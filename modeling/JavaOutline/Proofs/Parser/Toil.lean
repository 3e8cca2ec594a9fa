import Mathlib.Data.List.Basic
import JavaOutline.Proofs.Network.Looking
import JavaOutline.Proofs.Parser.Conservation

/-!
# How much is left to do

After an error the parser may return to a caller without having taken a token, and the caller may
lead it to the same place again. It gets on because it remembers the places at which it has failed
since the last token that was right: where it fails for the second time without having moved, it
skips a token. `Setting.toil` is the measure behind this. It counts the tokens that are left, and
for the next one of them the places at which the parser has not yet failed. No stretch of a parse
raises it (`Trail.toil_le`), a token lowers it (`Setting.toil_lt_of_pos_lt`), and so does every rule
that is given up before the end of the file (`Setting.giveUp_toil_lt`).
-/

namespace JavaOutline

namespace Place

/-- All places of the network. -/
def all : List Place :=
  Rule.all.flatMap fun r => (List.range r.body.layout.length).map (Place.mk r)

/-- Every place of the network is among them. -/
theorem Valid.mem_all {p : Place} (h : p.Valid) : p ∈ Place.all := by
  refine List.mem_flatMap.2 ⟨p.rule, p.rule.mem_all, List.mem_map.2 ⟨p.offset, ?_, rfl⟩⟩
  exact List.mem_range.2 h

/-- The network is small. -/
theorem length_all_le : Place.all.length ≤ 1650 := by
  decide +kernel

end Place

namespace Setting

variable {S : Setting} {s t : Progress}

/-- How often a rule can still be given up before the next token is skipped. -/
def trials (S : Setting) (s : Progress) : Nat :=
  if s.lastError = some (S.index s.pos) then (Place.all.filter (· ∉ s.failed)).length
  else Place.all.length + 1

/-- What is left to do: the tokens to come, each of which may be skipped only after the parser has
failed at all places. -/
def toil (S : Setting) (s : Progress) : Nat :=
  if s.pos < S.kinds.size then (S.kinds.size - s.pos) * (Place.all.length + 2) + S.trials s else 0

/-- There are no more trials than places, and one more before the first. -/
theorem trials_lt (S : Setting) (s : Progress) : S.trials s < Place.all.length + 2 := by
  have hle := List.length_filter_le (· ∉ s.failed) Place.all
  unfold trials
  split <;> omega

/-- At the end of the file nothing is left to do. -/
theorem toil_of_size_le (h : S.kinds.size ≤ s.pos) : S.toil s = 0 :=
  if_neg (Nat.not_lt.2 h)

/-- At a token there is something left to do. -/
theorem toil_pos (h : s.pos < S.kinds.size) : 0 < S.toil s := by
  rw [toil, if_pos h]
  have hpos : 0 < (S.kinds.size - s.pos) * (Place.all.length + 2) :=
    Nat.mul_pos (by omega) (by omega)
  omega

/-- Behind a token less is left to do. -/
theorem toil_lt_of_pos_lt (hpos : s.pos < t.pos) (hs : s.pos < S.kinds.size) :
    S.toil t < S.toil s := by
  by_cases ht : t.pos < S.kinds.size
  · have htrials := S.trials_lt t
    have htokens : (S.kinds.size - t.pos + 1) * (Place.all.length + 2) ≤
        (S.kinds.size - s.pos) * (Place.all.length + 2) := Nat.mul_le_mul_right _ (by omega)
    rw [Nat.add_mul, Nat.one_mul] at htokens
    rw [toil, toil, if_pos ht, if_pos hs]
    omega
  · rw [toil_of_size_le (Nat.le_of_not_lt ht)]
    exact toil_pos hs

/-- Where the parser stays it can only have failed at more places. -/
theorem toil_le_of_trials_le (hpos : t.pos = s.pos) (htrials : S.trials t ≤ S.trials s) :
    S.toil t ≤ S.toil s := by
  unfold toil
  rw [hpos]
  split
  · exact Nat.add_le_add_left htrials _
  · exact Nat.le_refl 0

/-- Fewer trials at a token leave less to do. -/
theorem toil_lt_of_trials_lt (hpos : t.pos = s.pos) (hs : s.pos < S.kinds.size)
    (htrials : S.trials t < S.trials s) : S.toil t < S.toil s := by
  rw [toil, toil, hpos, if_pos hs, if_pos hs]
  exact Nat.add_lt_add_left htrials _

/-- Taking a token leaves less to do, unless it is the end of the file. -/
theorem toil_lt_of_advance (hpos : t.pos = (s.advance S.kinds).pos) (hs : s.pos < S.kinds.size) :
    S.toil t < S.toil s := by
  rw [Progress.advance_pos, if_pos hs] at hpos
  exact toil_lt_of_pos_lt (by omega) hs

/-- Taking a token never leaves more to do. -/
theorem toil_le_of_advance (hpos : t.pos = (s.advance S.kinds).pos) : S.toil t ≤ S.toil s := by
  by_cases hs : s.pos < S.kinds.size
  · exact Nat.le_of_lt (toil_lt_of_advance hpos hs)
  · rw [Progress.advance_pos, if_neg hs] at hpos
    rw [toil_of_size_le (by omega)]
    exact Nat.zero_le _

@[simp] theorem toil_complain (pos : Nat) (cause : Cause) (s : Progress) :
    S.toil (s.complain pos cause) = S.toil s := by
  unfold Progress.complain
  split <;> rfl

/-- The state after a failure at a place. -/
def failAt (S : Setting) (p : Place) (s : Progress) : Progress :=
  { s with lastError := some (S.index s.pos), failed := p :: s.failed }

theorem trials_failAt (p : Place) (s : Progress) :
    S.trials (S.failAt p s) = ((Place.all.filter (· ∉ s.failed)).filter (· ≠ p)).length := by
  rw [trials, failAt, if_pos rfl, List.filter_filter]
  simp only [List.mem_cons, not_or, Bool.decide_and]

/-- Another failure leaves no more trials. -/
theorem trials_failAt_le (p : Place) (s : Progress) : S.trials (S.failAt p s) ≤ S.trials s := by
  have hall := List.length_filter_le (· ∉ s.failed) Place.all
  have hmore := List.length_filter_le (· ≠ p) (Place.all.filter (· ∉ s.failed))
  rw [trials_failAt, trials]
  split <;> omega

/-- A failure at a new place leaves fewer trials, and so does the first one at a token. -/
theorem trials_failAt_lt {p : Place} (hp : p.Valid)
    (hnew : s.lastError ≠ some (S.index s.pos) ∨ p ∉ s.failed) :
    S.trials (S.failAt p s) < S.trials s := by
  have hall := List.length_filter_le (· ∉ s.failed) Place.all
  have hmore := List.length_filter_le (· ≠ p) (Place.all.filter (· ∉ s.failed))
  rw [trials_failAt, trials]
  split
  · rename_i hlast
    have hp' : p ∈ Place.all.filter (· ∉ s.failed) :=
      List.mem_filter.2 ⟨hp.mem_all, decide_eq_true (hnew.resolve_left (not_not_intro hlast))⟩
    exact List.length_filter_lt_length_iff_exists.2 ⟨p, hp', by simp⟩
  · omega

end Setting

/-! ## Along a parse -/

/-- **No stretch of a parse leaves more to do.** -/
theorem Trail.toil_le {S : Setting} {K : Kind → Bool} {R : Rule → Bool} {s s' : Progress}
    {ts : List (Tree Nat)} (h : Trail S K R s ts s') : S.toil s' ≤ S.toil s := by
  induction h with
  | refl | look | cut | assume => exact Nat.le_refl _
  | trans _ _ ih ih' => exact Nat.le_trans ih' ih
  | complain => exact Nat.le_of_eq (Setting.toil_complain ..)
  | fail p s => exact Setting.toil_le_of_trials_le rfl (Setting.trials_failAt_le p s)
  | accept | skip | drop =>
    exact Setting.toil_le_of_advance (by simp [Progress.settle, Progress.advance_pos])
  | node _ _ _ ih | named _ _ ih => exact ih

namespace Setting

variable {S : Setting} {F : Frame} {s : Progress}

/-- **A rule that is given up leaves less to do**: the parser has not failed at this place before,
or it skips a token. -/
theorem giveUp_toil_lt {f : Fault} (hplace : f.place.Valid) (hs : s.pos < S.kinds.size) :
    S.toil (S.giveUp F f s).state < S.toil s := by
  rw [← toil_complain f.pos f.cause s]
  have hpos : (s.complain f.pos f.cause).pos < S.kinds.size := by simpa using hs
  have hrec : (s.complain f.pos f.cause).recovering = true := Progress.complain_recovering ..
  unfold giveUp
  generalize s.complain f.pos f.cause = t at hpos hrec ⊢
  -- What is skipped in the end does no harm.
  have hskip : ∀ u : Progress, u.recovering = true →
      S.toil (S.skipTo (restartKinds S.net F.callers) (S.kinds.size - u.pos)
        (S.failAt f.place u)).state ≤ S.toil (S.failAt f.place u) := by
    intro u hu
    have hfail : (S.failAt f.place u).recovering = true := hu
    exact (skipTo_trail (K := fun _ => true) (R := fun _ => true) _ _ hfail).toil_le
  dsimp only
  cases hstuck : t.lastError == some (S.index t.pos) && t.failed.contains f.place with
  | true =>
    calc _ ≤ S.toil (S.failAt f.place (t.advance S.kinds)) := hskip _ (by simpa using hrec)
      _ ≤ S.toil (t.advance S.kinds) := toil_le_of_trials_le rfl (trials_failAt_le ..)
      _ < S.toil t := toil_lt_of_advance rfl hpos
  | false =>
    have hnew : t.lastError ≠ some (S.index t.pos) ∨ f.place ∉ t.failed := by
      simpa [imp_iff_not_or] using hstuck
    calc _ ≤ S.toil (S.failAt f.place t) := hskip t hrec
      _ < S.toil t := toil_lt_of_trials_lt rfl hpos (trials_failAt_lt hplace hnew)

end Setting

end JavaOutline
