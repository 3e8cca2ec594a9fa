import JavaOutline.Lexer.Rules
import JavaOutline.Proofs.Lexer.Patterns

/-!
# What loops read

A loop that takes any character for a turn goes on up to the first end mark and not further, whatever
else a turn may be (`Loop.Tracks.after`). That it goes on is clear, since the character leads back to
the head of the loop. That it ends there comes from the order of the ways: those in the end mark stand
in front of the head of the loop, and the one that has read most of the mark is the first
(`Loop.Marks`), so all others are given up when it comes to its end. The other turns, such as the
escape sequences of a text block, are behind the head of the loop and never decide anything.

`Loop.Tracks` compares the ways with what remains of the pattern `Pattern.through`, and `Follows`
extends this to all rules for tokens. What a rule reads is `Lexical.pattern`
(`Lexical.matches_rule`).
-/

namespace JavaOutline

/-! ## Openings -/

namespace Pattern

variable {p q : Pattern} {c : Char}

/-- Patterns that end where they can: what remains of them behind a text of theirs is over. -/
inductive Crisp : Pattern → Prop where
  | never : Crisp .never
  | nothing : Crisp .nothing
  | char (accepts : Char → Bool) : Crisp (.char accepts)
  | seq {p q : Pattern} (hp : Crisp p) (hne : p.isNullable = false) (hq : Crisp q) :
      Crisp (.seq p q)
  | gap {blank last : Char → Bool} (h : ∀ c, blank c = true → last c = false) :
      Crisp (.seq (.star (.char blank)) (.char last))

/-- Where a crisp pattern may end, nothing remains of it. -/
theorem Crisp.eq_nothing (h : p.Crisp) (hp : p.isNullable = true) : p = .nothing := by
  cases h with
  | nothing => rfl
  | never | char | gap => cases hp
  | seq _ hne _ =>
    rw [isNullable, hne] at hp
    cases hp

theorem Crisp.andThen (hp : p.Crisp) (hq : q.Crisp) : (p.andThen q).Crisp := by
  have hseq (hne : p ≠ .nothing) : (Pattern.seq p q).Crisp :=
    .seq hp (Bool.eq_false_iff.2 fun hnull => hne (hp.eq_nothing hnull)) hq
  cases p with
  | never => exact .never
  | nothing => exact hq
  | char | seq | or | star | through => exact hseq nofun

/-- What remains of a crisp pattern behind a character is crisp. -/
theorem Crisp.after (h : p.Crisp) : (p.after c).Crisp := by
  induction h with
  | never | nothing => exact .never
  | char accepts =>
    rw [Pattern.after]
    split
    · exact .nothing
    · exact .never
  | seq _ hne hq ihp _ =>
    rw [Pattern.after, hne]
    exact ihp.andThen hq
  | @gap blank last h =>
    -- The character is a blank, or it is the last one, or nothing goes on.
    cases hblank : blank c with
    | true =>
      have hafter : (Pattern.seq (.star (.char blank)) (.char last)).after c =
          .seq (.star (.char blank)) (.char last) := by
        simp [Pattern.after, Pattern.isNullable, Pattern.andThen, Pattern.orElse, hblank, h c hblank]
      rw [hafter]
      exact .gap h
    | false =>
      have hafter : (Pattern.seq (.star (.char blank)) (.char last)).after c =
          (Pattern.char last).after c := by
        simp [Pattern.after, Pattern.isNullable, Pattern.andThen, Pattern.orElse, hblank]
      rw [hafter, Pattern.after]
      split
      · exact .nothing
      · exact .never

theorem crisp_word (w : String) : (word w).Crisp := by
  unfold word
  induction w.toList with
  | nil => exact .nothing
  | cons c cs ih => exact .seq (.char _) rfl ih

end Pattern

namespace Loop

/-! ## End marks -/

/-- What is to come of an end mark whose first character is `c`. -/
def rest? (c : Char) : List Char → Option (List Char)
  | [] => none
  | d :: rest => if c = d then some rest else none

theorem rest?_eq_some {c : Char} {s rest : List Char} : rest? c s = some rest ↔ s = c :: rest := by
  cases s with
  | nil => simp [rest?]
  | cons d s =>
    rw [rest?, Option.ite_none_right_eq_some, Option.some.injEq, List.cons.injEq]
    exact and_congr_left' eq_comm

/-- What is to come of the end mark `stop` on each way on which some of it, or nothing, has just been
read. The way on which most of it has been read is the first. -/
structure Marks (stop read : List Char) (rests : List (List Char)) : Prop where
  sound : ∀ rest ∈ rests, ∃ u, stop = u ++ rest ∧ u <:+ read
  complete : ∀ u rest, stop = u ++ rest → u <:+ read → rest ∈ rests
  sorted : rests.Pairwise (·.length < ·.length)

namespace Marks

variable {stop read : List Char} {rests : List (List Char)} {c : Char}

/-- Before the first character all of the mark is to come. -/
theorem nil (stop : List Char) : Marks stop [] [stop] where
  sound rest hrest := ⟨[], (List.mem_singleton.1 hrest).symm, List.nil_suffix⟩
  complete u rest hstop hu := by
    obtain rfl := List.suffix_nil.1 hu
    exact List.mem_singleton.2 hstop.symm
  sorted := List.pairwise_singleton _ _

/-- A character leads on each way on which it is the next one of the mark, and there is always the way
on which all of the mark is to come. -/
theorem snoc (h : Marks stop read rests) (c : Char) :
    Marks stop (read ++ [c]) (rests.filterMap (rest? c) ++ [stop]) where
  sound rest hrest := by
    rcases List.mem_append.1 hrest with hrest | hrest
    · obtain ⟨longer, hlonger, hc⟩ := List.mem_filterMap.1 hrest
      obtain rfl := rest?_eq_some.1 hc
      obtain ⟨u, hstop, v, rfl⟩ := h.sound _ hlonger
      exact ⟨u ++ [c], by simp [hstop], v, by simp⟩
    · exact ⟨[], (List.mem_singleton.1 hrest).symm, List.nil_suffix⟩
  complete u rest hstop hu := by
    rcases List.eq_nil_or_concat u with rfl | ⟨u, d, rfl⟩
    · exact List.mem_append_right _ (List.mem_singleton.2 hstop.symm)
    · rw [List.concat_eq_append] at hstop hu
      obtain ⟨v, hv⟩ := hu
      rw [← List.append_assoc] at hv
      obtain ⟨hread, hd⟩ := List.append_inj' hv rfl
      obtain rfl : d = c := (List.cons.inj hd).1
      have hlonger : d :: rest ∈ rests := by
        refine h.complete u _ ?_ ⟨v, hread⟩
        rw [hstop, List.append_assoc]
        rfl
      exact List.mem_append_left _ (List.mem_filterMap.2 ⟨_, hlonger, rest?_eq_some.2 rfl⟩)
  sorted := by
    refine List.pairwise_append.2 ⟨?_, List.pairwise_singleton _ _, ?_⟩
    · refine h.sorted.filterMap _ fun s t hlt s' hs t' ht => ?_
      obtain rfl := rest?_eq_some.1 hs
      obtain rfl := rest?_eq_some.1 ht
      exact Nat.lt_of_succ_lt_succ hlt
    · intro rest hrest s hs
      obtain rfl := List.mem_singleton.1 hs
      obtain ⟨longer, hlonger, hc⟩ := List.mem_filterMap.1 hrest
      obtain rfl := rest?_eq_some.1 hc
      obtain ⟨u, rfl, -⟩ := h.sound _ hlonger
      rw [List.length_append, List.length_cons]
      omega

/-- Nothing of the mark is to come where it has just been read. -/
theorem nil_mem_iff (h : Marks stop read rests) : [] ∈ rests ↔ stop <:+ read := by
  constructor
  · intro hmem
    obtain ⟨u, hstop, hu⟩ := h.sound [] hmem
    rw [List.append_nil] at hstop
    exact hstop ▸ hu
  · intro hstop
    exact h.complete stop [] (List.append_nil _).symm hstop

/-- The way on which the mark has been read is the first one. -/
theorem exists_eq_cons (sorted : rests.Pairwise (·.length < ·.length)) (hmem : [] ∈ rests) :
    ∃ others, rests = [] :: others := by
  cases rests with
  | nil => cases hmem
  | cons rest others =>
    rcases List.mem_cons.1 hmem with rfl | hmem
    · exact ⟨others, rfl⟩
    · exact absurd ((List.pairwise_cons.1 sorted).1 [] hmem) (Nat.not_lt_zero _)

end Marks

/-! ## The order of the ways -/

variable {L : Loop} {ways : List Way} {p : Pattern} {c : Char}

theorem flatMap_toStop (c : Char) (rests : List (List Char)) :
    rests.flatMap (toStop c) = (rests.filterMap (rest? c)).map .stop := by
  induction rests with
  | nil => rfl
  | cons rest rests ih =>
    rw [List.flatMap_cons, ih]
    cases rest with
    | nil => rfl
    | cons d rest =>
      by_cases hc : c = d
      · simp [toStop, rest?, hc]
      · simp [toStop, rest?, hc]

theorem headOnce_append {ws ws' : List Way} (h : ∀ w ∈ ws, w.isHead = false) :
    headOnce (ws ++ .head :: ws') = ws ++ .head :: ws'.filter (!·.isHead) := by
  induction ws with
  | nil => rfl
  | cons w ws ih =>
    obtain ⟨hw, hws⟩ := List.forall_mem_cons.1 h
    rw [List.cons_append, headOnce, hw, ih hws]
    rfl

theorem upToEnd_eq_self {ws : List Way} (h : ∀ w ∈ ws, w.isEnd = false) : upToEnd ws = ws := by
  induction ws with
  | nil => rfl
  | cons w ws ih =>
    obtain ⟨hw, hws⟩ := List.forall_mem_cons.1 h
    rw [upToEnd, hw, ih hws]
    rfl

/-- The way is in a turn. -/
def InTurn (w : Way) : Prop := ∃ rest, w = .turn rest

/-- From a turn one stays in it or comes to the head of the loop. -/
theorem inTurn_of_toHead {rest : Pattern} {w : Way} (h : w ∈ toHead .turn rest) :
    InTurn w ∨ w = .head := by
  rcases List.mem_append.1 h with h | h
  · split at h
    · cases h
    · exact .inl ⟨rest, List.mem_singleton.1 h⟩
  · split at h
    · exact .inr (List.mem_singleton.1 h)
    · cases h

/-! ## Reading a loop -/

/-- The loop begins behind an opening that ends where it can, any character may be a turn, and the end
mark is not empty. -/
structure Lazy (L : Loop) : Prop where
  opening : L.opening.Crisp
  nonempty : L.opening.isNullable = false
  turns : ∃ others, L.turns = .anything :: others
  stop : L.stop ≠ []

/-- The ways through a loop, beside what remains of the pattern that describes it. -/
inductive Tracks (L : Loop) : List Way → Pattern → Prop where
  /-- The opening is read. -/
  | opening {o : Pattern} (crisp : o.Crisp) (more : o.isNullable = false) :
      Tracks L [.opening o] (.seq o (.through L.stop []))
  /-- The body is read, of which `seen` shows the end. Behind the ways in the end mark there is the
  one at the head of the loop. -/
  | body {seen read : List Char} {rests : List (List Char)} {ws : List Way}
      (marks : Marks L.stop read (rests ++ [L.stop])) (goesOn : ¬ L.stop <:+ read)
      (seen_iff : ∀ s, L.stop <:+ seen ++ s ↔ L.stop <:+ read ++ s) (turns : ∀ w ∈ ws, InTurn w) :
      Tracks L (rests.map .stop ++ .head :: ws) (.through L.stop seen)
  /-- The end mark has been read. -/
  | ended {seen : List Char} (h : L.stop <:+ seen) : Tracks L [.stop []] (.through L.stop seen)
  /-- The text cannot go on. -/
  | lost : Tracks L [] .never

/-- While the body is read no way has come to the end of the end mark. -/
theorem isEnd_eq_false {read : List Char} {rests : List (List Char)} {ws : List Way}
    (marks : Marks L.stop read (rests ++ [L.stop])) (goesOn : ¬ L.stop <:+ read)
    (turns : ∀ w ∈ ws, InTurn w) : ∀ w ∈ rests.map .stop ++ .head :: ws, w.isEnd = false := by
  intro w hw
  rcases List.mem_append.1 hw with hw | hw
  · obtain ⟨rest, hrest, rfl⟩ := List.mem_map.1 hw
    cases rest with
    | nil => exact absurd (marks.nil_mem_iff.1 (List.mem_append_left _ hrest)) goesOn
    | cons d rest => rfl
  · rcases List.mem_cons.1 hw with rfl | hw
    · rfl
    · obtain ⟨rest, rfl⟩ := turns w hw
      rfl

/-- The text may end where the ways say so. -/
theorem Tracks.any_isEnd (h : Tracks L ways p) : ways.any Way.isEnd = p.isNullable := by
  cases h with
  | opening _ more => simp [Way.isEnd, Pattern.isNullable, more]
  | @body seen read rests ws marks goesOn seen_iff turns =>
    have hseen : ¬ L.stop <:+ seen := by
      simpa using (seen_iff []).not.2 (by simpa using goesOn)
    rw [Pattern.isNullable, Bool.eq_false_iff.2 (mt List.isSuffixOf_iff_suffix.1 hseen),
      List.any_eq_false]
    intro w hw
    rw [isEnd_eq_false marks goesOn turns w hw]
    exact Bool.false_ne_true
  | ended h => simp [Way.isEnd, Pattern.isNullable, h]
  | lost => rfl

/-- The text can go on as long as there are ways. -/
theorem Tracks.isEmpty (h : Tracks L ways p) : ways.isEmpty = p.isDead := by
  cases h with
  | opening | ended | lost => rfl
  | @body seen read rests ws => cases rests <;> rfl

/-- A character in the opening leads on in it, or to the head of the loop. -/
theorem Tracks.after_opening {o : Pattern} (hL : L.Lazy) (crisp : o.Crisp)
    (more : o.isNullable = false) (c : Char) :
    Tracks L (L.advance c [.opening o]) ((Pattern.seq o (.through L.stop [])).after c) := by
  have hafter : (Pattern.seq o (.through L.stop [])).after c =
      (o.after c).andThen (.through L.stop []) := by
    rw [Pattern.after, more]
    rfl
  have hways : L.advance c [.opening o] = upToEnd (headOnce (toHead .opening (o.after c))) := by
    rw [advance, List.flatMap_singleton, follow]
  rw [hafter, hways]
  have hcrisp : (o.after c).Crisp := crisp.after
  generalize o.after c = q at hcrisp
  cases hq : q.isNullable with
  | true =>
    obtain rfl := hcrisp.eq_nothing hq
    have hmarks : Marks L.stop [] ([] ++ [L.stop]) := Marks.nil _
    exact .body hmarks (mt List.suffix_nil.1 hL.stop) (fun _ => Iff.rfl) (List.forall_mem_nil _)
  | false =>
    cases q with
    | never => exact .lost
    | nothing => cases hq
    | char | seq | or | star | through =>
      rw [toHead, hq]
      exact .opening hcrisp hq

/-- In the body the ways in the end mark come first, then the one to the head of the loop, and then
others in turns. -/
theorem advance_body (hL : L.Lazy) {rests : List (List Char)} {ws : List Way}
    (turns : ∀ w ∈ ws, InTurn w) (c : Char) : ∃ ws' : List Way, (∀ w ∈ ws', InTurn w) ∧
      L.advance c (rests.map .stop ++ .head :: ws) = upToEnd
        (((rests ++ [L.stop]).filterMap (rest? c)).map .stop ++ .head :: ws') := by
  obtain ⟨others, hturns⟩ := hL.turns
  let behind := others.flatMap (fun p => toHead .turn (p.after c)) ++ ws.flatMap (L.follow c)
  have hbehind : ∀ w ∈ behind, InTurn w ∨ w = .head := by
    intro w hw
    rcases List.mem_append.1 hw with hw | hw
    · obtain ⟨p, -, hp⟩ := List.mem_flatMap.1 hw
      exact inTurn_of_toHead hp
    · obtain ⟨v, hv, hw⟩ := List.mem_flatMap.1 hw
      obtain ⟨rest, rfl⟩ := turns v hv
      exact inTurn_of_toHead hw
  have hstops : (rests.map Way.stop).flatMap (L.follow c) = rests.flatMap (toStop c) :=
    List.flatMap_map ..
  have hall : (rests.map Way.stop ++ Way.head :: ws).flatMap (L.follow c) =
      ((rests ++ [L.stop]).filterMap (rest? c)).map .stop ++ .head :: behind := by
    rw [← flatMap_toStop, List.flatMap_append, List.flatMap_append, List.flatMap_cons, hstops,
      follow, hturns, List.flatMap_cons, List.flatMap_singleton]
    simp [behind, toHead, Pattern.anything, Pattern.after, Pattern.isOver, Pattern.isNullable]
  refine ⟨behind.filter (!·.isHead), fun w hw => ?_, ?_⟩
  · obtain ⟨hmem, hhead⟩ := List.mem_filter.1 hw
    refine (hbehind w hmem).resolve_right ?_
    rintro rfl
    cases hhead
  · rw [advance, hall, headOnce_append]
    intro w hw
    obtain ⟨rest, -, rfl⟩ := List.mem_map.1 hw
    rfl

/-- A character in the body completes the end mark, and then all other ways are given up, or leads on in
the body. -/
theorem Tracks.after_body (hL : L.Lazy) {seen read : List Char} {rests : List (List Char)}
    {ws : List Way} (marks : Marks L.stop read (rests ++ [L.stop])) (goesOn : ¬ L.stop <:+ read)
    (seen_iff : ∀ s, L.stop <:+ seen ++ s ↔ L.stop <:+ read ++ s) (turns : ∀ w ∈ ws, InTurn w)
    (c : Char) : Tracks L (L.advance c (rests.map .stop ++ .head :: ws))
      ((Pattern.through L.stop seen).after c) := by
  have hseen : ¬ L.stop <:+ seen := by
    simpa using (seen_iff []).not.2 (by simpa using goesOn)
  have hlength : seen.length + 1 = (seen ++ [c]).length := by simp
  rw [Pattern.after, Bool.eq_false_iff.2 (mt List.isSuffixOf_iff_suffix.1 hseen), hlength]
  -- As much of the text is kept as the end mark can cover.
  have hkept (s : List Char) :
      L.stop <:+ (seen ++ [c]).drop ((seen ++ [c]).length - L.stop.length) ++ s ↔
        L.stop <:+ read ++ [c] ++ s := by
    rw [Pattern.suffix_drop_append, List.append_assoc, List.append_assoc]
    exact seen_iff _
  have hmarks := marks.snoc c
  obtain ⟨ws', hturns, hadvance⟩ := advance_body hL turns c
  rw [hadvance]
  by_cases hstop : L.stop <:+ read ++ [c]
  · have hnil : [] ∈ (rests ++ [L.stop]).filterMap (rest? c) := by
      rcases List.mem_append.1 (hmarks.nil_mem_iff.2 hstop) with hnil | hnil
      · exact hnil
      · exact absurd (List.mem_singleton.1 hnil).symm hL.stop
    obtain ⟨others, hothers⟩ :=
      Marks.exists_eq_cons (List.pairwise_append.1 hmarks.sorted).1 hnil
    have hgivenUp : (others.map Way.stop ++ .head :: ws').filter (·.isOpening) = [] := by
      refine List.filter_eq_nil_iff.2 fun w hw => ?_
      rcases List.mem_append.1 hw with hw | hw
      · obtain ⟨rest, -, rfl⟩ := List.mem_map.1 hw
        exact Bool.false_ne_true
      · rcases List.mem_cons.1 hw with rfl | hw
        · exact Bool.false_ne_true
        · obtain ⟨rest, rfl⟩ := hturns w hw
          exact Bool.false_ne_true
    have hpruned : upToEnd (((rests ++ [L.stop]).filterMap (rest? c)).map .stop ++ .head :: ws') =
        [.stop []] := by
      rw [hothers, List.map_cons, List.cons_append, upToEnd, hgivenUp]
      rfl
    rw [hpruned]
    refine .ended ?_
    simpa using (hkept []).2 (by simpa using hstop)
  · rw [upToEnd_eq_self (isEnd_eq_false hmarks hstop hturns)]
    exact .body hmarks hstop hkept hturns

/-- **A character leads from ways to ways as it leads from pattern to pattern.** -/
theorem Tracks.after (hL : L.Lazy) (h : Tracks L ways p) (c : Char) :
    Tracks L (L.advance c ways) (p.after c) := by
  cases h with
  | opening crisp more => exact .after_opening hL crisp more c
  | body marks goesOn seen_iff turns => exact .after_body hL marks goesOn seen_iff turns c
  | ended h =>
    rw [Pattern.after, List.isSuffixOf_iff_suffix.2 h]
    exact .lost
  | lost => exact .lost

end Loop

/-! ## Rules for tokens -/

/-- The texts of a rule for tokens. A loop goes up to the first end mark behind its opening. -/
def TokenRule.pattern : TokenRule → Pattern
  | .plain p => p
  | .loop L => .seq L.opening (.through L.stop [])

/-- What is left of a rule while a text is read, beside what remains of a pattern. -/
inductive Follows : Reading → Pattern → Prop where
  | plain (p : Pattern) : Follows (.plain p) p
  | loop {L : Loop} {ways : List Way} {p : Pattern} (hL : L.Lazy) (h : L.Tracks ways p) :
      Follows (.loop L ways) p

namespace Reading

variable {r : Reading} {s : List Char} {c : Char}

/-- Reading the text leads to where it may end. -/
def Matches (r : Reading) (s : List Char) : Prop :=
  (s.foldl (fun r c => r.after c) r).isNullable = true

theorem matches_nil : r.Matches [] ↔ r.isNullable = true := Iff.rfl

theorem matches_after : (r.after c).Matches s ↔ r.Matches (c :: s) := Iff.rfl

/-- Where it is plain that no text can follow, none does. -/
theorem not_matches_of_isDead (h : r.isDead = true) : ¬ r.Matches s := by
  induction s generalizing r with
  | nil =>
    rw [matches_nil]
    cases r with
    | plain p => exact fun hp => Pattern.not_matches_of_isDead h ((Pattern.matches_nil p).2 hp)
    | loop L ways =>
      obtain rfl := List.isEmpty_iff.1 h
      exact nofun
  | cons c s ih =>
    rw [← matches_after]
    refine ih ?_
    cases r with
    | plain p =>
      cases p with
      | never => rfl
      | nothing | char | seq | or | star | through => cases h
    | loop L ways =>
      obtain rfl := List.isEmpty_iff.1 h
      rfl

end Reading

namespace Follows

variable {r : Reading} {p : Pattern} {s : List Char}

theorem isNullable_eq (h : Follows r p) : r.isNullable = p.isNullable := by
  cases h with
  | plain => rfl
  | loop _ h => exact h.any_isEnd

theorem isDead_eq (h : Follows r p) : r.isDead = p.isDead := by
  cases h with
  | plain => rfl
  | loop _ h => exact h.isEmpty

theorem after (h : Follows r p) (c : Char) : Follows (r.after c) (p.after c) := by
  cases h with
  | plain => exact .plain _
  | loop hL h => exact .loop hL (h.after hL c)

/-- Reading matches the texts of the pattern. -/
theorem matches_iff (h : Follows r p) : r.Matches s ↔ p.Matches s := by
  induction s generalizing r p with
  | nil => rw [Reading.matches_nil, Pattern.matches_nil, h.isNullable_eq]
  | cons c s ih => rw [← Reading.matches_after, ← Pattern.matches_after, ih (h.after c)]

end Follows

namespace Lexical

open Pattern

/-- The texts of the tokens of a kind. -/
def pattern (k : Kind) : Pattern := (rule k).pattern

/-- Any character is a turn of a comment. -/
theorem lazy_comment : comment.Lazy where
  opening := crisp_word _
  nonempty := rfl
  turns := ⟨[], rfl⟩
  stop := nofun

/-- Any character is a turn of a text block, whether or not an escape sequence begins with it. -/
theorem lazy_textBlock : textBlock.Lazy where
  opening := by
    refine .seq (crisp_word _) rfl (.gap fun c hc => ?_)
    have hblanks : (" \t".toList.all fun c => !"\r\n".toList.contains c) = true := by decide
    simpa using List.all_eq_true.1 hblanks c (List.contains_iff_mem.1 hc)
  nonempty := rfl
  turns := ⟨[escape], rfl⟩
  stop := nofun

/-- The loops among the rules are those of comments and text blocks. -/
theorem lazy_of_rule {k : Kind} {L : Loop} (h : rule k = .loop L) : L.Lazy := by
  unfold rule at h
  split at h
  case h_11 =>
    cases h
    exact lazy_textBlock
  case h_13 =>
    cases h
    exact lazy_comment
  case h_16 => split at h <;> cases h
  all_goals cases h

theorem follows_rule (k : Kind) : Follows (rule k).start (pattern k) := by
  unfold pattern
  cases h : rule k with
  | plain p => exact .plain p
  | loop L =>
    have hL := lazy_of_rule h
    exact .loop hL (.opening hL.opening hL.nonempty)

/-- **The rule for a kind reads the texts of its pattern.** -/
theorem matches_rule (k : Kind) {s : List Char} :
    (rule k).start.Matches s ↔ (pattern k).Matches s := (follows_rule k).matches_iff

end Lexical

end JavaOutline
