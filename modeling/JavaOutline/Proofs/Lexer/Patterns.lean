import JavaOutline.Lexer.Pattern
import Mathlib.Data.List.Basic

/-!
# Patterns and their texts

A text is read character by character with `Pattern.after` and `Pattern.isNullable`. These two decide
`Pattern.Matches` (`Pattern.matches_after`, `Pattern.matches_nil`): what remains of a pattern behind a
character describes the texts that may follow the character.
-/

namespace JavaOutline

namespace Pattern

variable {p q : Pattern} {s t : List Char} {c : Char}

/-! ## Patterns by their texts -/

theorem not_matches_never : ¬ Matches .never s := nofun

theorem matches_nothing : Matches .nothing s ↔ s = [] :=
  ⟨fun h => by cases h; rfl, fun h => h ▸ .nothing⟩

theorem matches_char {accepts : Char → Bool} :
    Matches (.char accepts) s ↔ ∃ c, accepts c = true ∧ s = [c] :=
  ⟨fun h => by cases h with | char h => exact ⟨_, h, rfl⟩, fun ⟨_, h, hs⟩ => hs ▸ .char h⟩

theorem matches_seq : Matches (.seq p q) s ↔ ∃ u v, s = u ++ v ∧ Matches p u ∧ Matches q v :=
  ⟨fun h => by cases h with | seq hp hq => exact ⟨_, _, rfl, hp, hq⟩,
    fun ⟨_, _, hs, hp, hq⟩ => hs ▸ .seq hp hq⟩

theorem matches_or : Matches (.or p q) s ↔ Matches p s ∨ Matches q s := by
  constructor
  · intro h
    cases h with
    | orLeft h => exact .inl h
    | orRight h => exact .inr h
  · rintro (h | h)
    · exact .orLeft h
    · exact .orRight h

theorem matches_through {stop seen : List Char} : Matches (.through stop seen) s ↔
    stop <:+ seen ++ s ∧ ∀ t, t <+: s → t ≠ s → ¬ stop <:+ seen ++ t :=
  ⟨fun h => by cases h with | through h first => exact ⟨h, first⟩, fun h => .through h.1 h.2⟩

theorem matches_word {w : String} : Matches (word w) s ↔ s = w.toList := by
  unfold word
  induction w.toList generalizing s with
  | nil => exact matches_nothing
  | cons c w ih =>
    rw [List.foldr_cons, matches_seq]
    simp only [matches_char, ih, beq_iff_eq]
    constructor
    · rintro ⟨u, v, rfl, ⟨d, rfl, rfl⟩, rfl⟩
      rfl
    · rintro rfl
      exact ⟨[c], w, rfl, ⟨c, rfl, rfl⟩, rfl⟩

theorem matches_anyOf {cs : String} : Matches (anyOf cs) s ↔ ∃ c ∈ cs.toList, s = [c] := by
  rw [anyOf, matches_char]
  simp only [List.contains_iff_mem]

theorem matches_star_char {accepts : Char → Bool} :
    Matches (.star (.char accepts)) s ↔ ∀ c ∈ s, accepts c = true := by
  constructor
  · intro h
    generalize hp : Pattern.star (.char accepts) = p at h
    induction h with
    | nothing | char | seq | orLeft | orRight | through => cases hp
    | starNil => exact nofun
    | starCons hfirst _ _ ih =>
      cases hp
      obtain ⟨c, hc, rfl⟩ := matches_char.1 hfirst
      exact List.forall_mem_cons.2 ⟨hc, ih rfl⟩
  · intro h
    induction s with
    | nil => exact .starNil
    | cons c s ih =>
      obtain ⟨hc, hs⟩ := List.forall_mem_cons.1 h
      exact .starCons (s := [c]) (.char hc) (ih hs)

theorem matches_star_anyOf {cs : String} :
    Matches (.star (anyOf cs)) s ↔ ∀ c ∈ s, c ∈ cs.toList := by
  rw [anyOf, matches_star_char]
  simp only [List.contains_iff_mem]

/-- The text ends with the first occurrence of `stop` in it. -/
def EndsFirst (stop s : List Char) : Prop := stop <:+ s ∧ ∀ t, t <+: s → t ≠ s → ¬ stop <:+ t

theorem matches_upTo {stop : String} : Matches (upTo stop) s ↔ EndsFirst stop.toList s :=
  matches_through

/-- A pattern that plainly cannot go on has no texts. -/
theorem not_matches_of_isDead (h : p.isDead = true) : ¬ Matches p s := by
  cases p with
  | never => exact not_matches_never
  | nothing | char | seq | or | star | through => cases h

/-! ## The empty text -/

/-- A pattern describes the empty text exactly if it is nullable. -/
theorem matches_nil (p : Pattern) : Matches p [] ↔ p.isNullable = true := by
  induction p with
  | never => exact iff_of_false not_matches_never nofun
  | nothing => exact iff_of_true .nothing rfl
  | char accepts => exact iff_of_false (by simp [matches_char]) nofun
  | seq p q hp hq =>
    rw [matches_seq, isNullable, Bool.and_eq_true, ← hp, ← hq]
    constructor
    · rintro ⟨u, v, huv, hu, hv⟩
      obtain ⟨rfl, rfl⟩ := List.append_eq_nil_iff.1 huv.symm
      exact ⟨hu, hv⟩
    · rintro ⟨hu, hv⟩
      exact ⟨[], [], rfl, hu, hv⟩
  | or p q hp hq => rw [matches_or, isNullable, Bool.or_eq_true, ← hp, ← hq]
  | star p _ => exact iff_of_true .starNil rfl
  | through stop seen =>
    rw [matches_through, isNullable, List.isSuffixOf_iff_suffix, List.append_nil]
    exact and_iff_left fun t ht hne => absurd (List.prefix_nil.1 ht) hne

/-! ## One character -/

theorem matches_andThen : Matches (p.andThen q) s ↔ Matches (.seq p q) s := by
  cases p with
  | never =>
    refine iff_of_false not_matches_never fun h => ?_
    obtain ⟨u, v, -, hu, -⟩ := matches_seq.1 h
    exact not_matches_never hu
  | nothing =>
    rw [matches_seq]
    constructor
    · intro h
      exact ⟨[], s, rfl, .nothing, h⟩
    · rintro ⟨u, v, rfl, hu, hv⟩
      rw [matches_nothing.1 hu]
      exact hv
  | char | seq | or | star | through => exact Iff.rfl

theorem matches_orElse : Matches (p.orElse q) s ↔ Matches p s ∨ Matches q s := by
  unfold orElse
  split
  · exact (or_iff_right not_matches_never).symm
  · exact (or_iff_left not_matches_never).symm
  · exact matches_or

/-- A text of a star that is not empty begins with a text that is not empty. -/
theorem matches_star_cons (h : Matches (.star p) (c :: s)) :
    ∃ u v, s = u ++ v ∧ Matches p (c :: u) ∧ Matches (.star p) v := by
  generalize hq : Pattern.star p = q at h
  generalize ht : c :: s = t at h
  induction h with
  | nothing | char | seq | orLeft | orRight | through => cases hq
  | starNil => cases ht
  | @starCons _ u v hp hs _ ih =>
    cases hq
    cases u with
    | nil => exact ih rfl ht
    | cons d u =>
      obtain ⟨rfl, rfl⟩ := List.cons.inj ht
      exact ⟨u, v, rfl, hp, hs⟩

/-- Whether a text ends with an end mark is seen from what the mark can cover. -/
theorem suffix_drop_append {stop seen : List Char} :
    stop <:+ seen.drop (seen.length - stop.length) ++ s ↔ stop <:+ seen ++ s := by
  have hsplit : seen ++ s =
      seen.take (seen.length - stop.length) ++ (seen.drop (seen.length - stop.length) ++ s) := by
    rw [← List.append_assoc, List.take_append_drop]
  constructor
  · intro h
    rw [hsplit]
    exact h.trans (List.suffix_append _ _)
  · intro h
    refine List.suffix_of_suffix_length_le h (hsplit ▸ List.suffix_append _ _) ?_
    have hlength := h.length_le
    simp only [List.length_append, List.length_drop] at hlength ⊢
    omega

/-- Behind a character an end mark is still to come for the first time. -/
theorem matches_through_cons {stop seen : List Char} :
    Matches (.through stop seen) (c :: s) ↔
      ¬ stop <:+ seen ∧ Matches (.through stop (seen ++ [c])) s := by
  rw [matches_through, matches_through]
  have hmove (t : List Char) : seen ++ c :: t = seen ++ [c] ++ t := by simp
  constructor
  · rintro ⟨h, hfirst⟩
    refine ⟨?_, hmove s ▸ h, fun t ht hne => ?_⟩
    · simpa using hfirst [] List.nil_prefix nofun
    · have hlater := hfirst (c :: t) (List.cons_prefix_cons.2 ⟨rfl, ht⟩) (by simpa using hne)
      rwa [hmove] at hlater
  · rintro ⟨hnow, h, hfirst⟩
    refine ⟨hmove s ▸ h, fun t ht hne => ?_⟩
    cases t with
    | nil => simpa using hnow
    | cons d t =>
      obtain ⟨rfl, hts⟩ := List.cons_prefix_cons.1 ht
      rw [hmove]
      exact hfirst t hts (by simpa using hne)

/-- What may follow a character. -/
theorem matches_after (p : Pattern) : Matches (p.after c) s ↔ Matches p (c :: s) := by
  induction p generalizing s with
  | never => exact iff_of_false not_matches_never not_matches_never
  | nothing => exact iff_of_false not_matches_never (by simp [matches_nothing])
  | char accepts =>
    rw [after, matches_char]
    split
    · rename_i hc
      rw [matches_nothing]
      constructor
      · rintro rfl
        exact ⟨c, hc, rfl⟩
      · rintro ⟨d, -, hd⟩
        exact (List.cons.inj hd).2
    · rename_i hc
      refine iff_of_false not_matches_never ?_
      rintro ⟨d, hd, heq⟩
      obtain ⟨rfl, -⟩ := List.cons.inj heq
      exact hc hd
  | or p q hp hq => rw [after, matches_orElse, hp, hq, matches_or]
  | star p hp =>
    rw [after, matches_andThen, matches_seq]
    constructor
    · rintro ⟨u, v, rfl, hu, hv⟩
      exact .starCons (hp.1 hu) hv
    · intro h
      obtain ⟨u, v, rfl, hu, hv⟩ := matches_star_cons h
      exact ⟨u, v, rfl, hp.2 hu, hv⟩
  | seq p q hp hq =>
    -- The character belongs to a text of `p`, or that text is empty and it belongs to one of `q`.
    have hfirst : Matches ((p.after c).andThen q) s ↔
        ∃ u v, s = u ++ v ∧ Matches p (c :: u) ∧ Matches q v := by
      rw [matches_andThen, matches_seq]
      simp only [hp]
    have hboth : Matches (.seq p q) (c :: s) ↔
        (∃ u v, s = u ++ v ∧ Matches p (c :: u) ∧ Matches q v) ∨
          Matches p [] ∧ Matches q (c :: s) := by
      rw [matches_seq]
      constructor
      · rintro ⟨u, v, huv, hu, hv⟩
        cases u with
        | nil => exact .inr ⟨hu, huv ▸ hv⟩
        | cons d u =>
          obtain ⟨rfl, rfl⟩ := List.cons.inj huv
          exact .inl ⟨u, v, rfl, hu, hv⟩
      · rintro (⟨u, v, rfl, hu, hv⟩ | ⟨hu, hv⟩)
        · exact ⟨c :: u, v, rfl, hu, hv⟩
        · exact ⟨[], c :: s, rfl, hu, hv⟩
    rw [after, hboth, matches_nil, ← hfirst]
    split
    · rename_i hnull
      rw [matches_orElse, hq]
      simp [hnull]
    · rename_i hnull
      simp [hnull]
  | through stop seen =>
    rw [matches_through_cons, after]
    split
    · rename_i hstop
      rw [List.isSuffixOf_iff_suffix] at hstop
      exact iff_of_false not_matches_never fun h => h.1 hstop
    · rename_i hstop
      rw [List.isSuffixOf_iff_suffix] at hstop
      have hlength : seen.length + 1 = (seen ++ [c]).length := by simp
      rw [and_iff_right hstop, matches_through, matches_through, hlength]
      simp only [suffix_drop_append]

end Pattern

end JavaOutline
