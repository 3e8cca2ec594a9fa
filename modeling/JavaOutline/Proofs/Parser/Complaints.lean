import JavaOutline.Proofs.Parser.Trail
import JavaOutline.Proofs.Tree.Leaves

/-!
# Errors do not go unreported

A parse keeps its complaints (`Trail.complaints_suffix`), and it never recovers from an error that
it has not complained about (`Progress.Honest`). Tokens are skipped and assumed only while it
recovers, so a parse without complaints gives trees that no recovery has touched
(`Trail.intactAll`).
-/

namespace JavaOutline

/-- The parser recovers only from errors that it has complained about. -/
def Progress.Honest (s : Progress) : Prop := s.recovering = true → s.complaints ≠ []

namespace Progress

theorem honest_initial : initial.Honest := by simp [Honest, initial]

@[simp] theorem advance_complaints (kinds : Array Kind) (s : Progress) :
    (s.advance kinds).complaints = s.complaints := by
  unfold advance
  split <;> rfl

/-- A complaint is added to the earlier ones, or none is. -/
theorem complaints_suffix_complain (pos : Nat) (cause : Cause) (s : Progress) :
    s.complaints <:+ (s.complain pos cause).complaints := by
  unfold complain
  split
  · exact List.suffix_refl _
  · exact List.suffix_cons _ _

/-- After a complaint there is one. -/
theorem Honest.complain_ne_nil {s : Progress} (h : s.Honest) (pos : Nat) (cause : Cause) :
    (s.complain pos cause).complaints ≠ [] := by
  unfold complain
  split
  · exact h ‹_›
  · simp

end Progress

namespace Trail

variable {S : Setting} {K : Kind → Bool} {R : Rule → Bool} {s s' : Progress}
  {ts : List (Tree Nat)}

/-- No complaint is ever taken back. -/
theorem complaints_suffix (h : Trail S K R s ts s') : s.complaints <:+ s'.complaints := by
  induction h with
  | refl | look | cut | fail | assume => exact List.suffix_refl _
  | trans _ _ ih ih' => exact ih.trans ih'
  | complain => exact Progress.complaints_suffix_complain ..
  | accept | skip | drop =>
    simp only [Progress.settle, Progress.advance_complaints]
    exact List.suffix_refl _
  | node _ _ _ ih | named _ _ ih => exact ih

/-- Without complaints at the end there were none at the start. -/
theorem complaints_eq_nil (h : Trail S K R s ts s') (hs' : s'.complaints = []) :
    s.complaints = [] :=
  List.suffix_nil.1 (hs' ▸ h.complaints_suffix)

/-- A parser that has complained about its errors goes on to do so. -/
theorem honest (h : Trail S K R s ts s') (hs : s.Honest) : s'.Honest := by
  induction h with
  | refl | look | cut | fail | assume => exact hs
  | trans _ _ ih ih' => exact ih' (ih hs)
  | complain pos cause => exact fun _ => hs.complain_ne_nil pos cause
  | accept | drop =>
    intro hrec
    simp [Progress.settle] at hrec
  | skip => simpa [Progress.Honest] using hs
  | node _ _ _ ih | named _ _ ih => exact ih hs

/-- Without complaints no token has been skipped or assumed. -/
theorem intactAll (h : Trail S K R s ts s') (hs : s.Honest) (hs' : s'.complaints = []) :
    Tree.IntactAll ts := by
  induction h with
  | refl | look | cut | complain | fail => trivial
  | trans h h' ih ih' =>
    have hmid := h'.complaints_eq_nil hs'
    rw [Tree.intactAll_iff]
    intro t ht
    rcases List.mem_append.1 ht with ht | ht
    · exact (Tree.intactAll_iff _).1 (ih hs hmid) t ht
    · exact (Tree.intactAll_iff _).1 (ih' (h.honest hs) hs') t ht
  | accept => exact ⟨trivial, trivial⟩
  | skip hrec | drop hrec => exact absurd (by simpa [Progress.settle] using hs') (hs hrec)
  | assume _ hrec => exact absurd hs' (hs hrec)
  | node _ _ _ ih => exact ⟨ih hs hs', trivial⟩
  | named role _ ih => exact (Tree.intactAll_lastWithRole role _).2 (ih hs hs')

end Trail

end JavaOutline
