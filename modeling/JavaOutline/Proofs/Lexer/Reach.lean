import JavaOutline.Proofs.Lexer.Munch

/-!
# How far the lexer reads

The lexer reads on as long as some rule remains. A rule that remains has a text, so the lexer
stops exactly where no token can begin so any more (`Lexical.munch_reach`): text that is no token ends
with the character that no token can have there, or with the source text (`Lexical.Offends`).

That a pattern has a text cannot be seen from outside, since a class of characters may be empty.
`Pattern.isProductive` checks it for the lexical grammar, and `Pattern.isDecided_after` carries it over
to what remains of a pattern behind a character.
-/

namespace JavaOutline

/-! ## Patterns that have texts -/

namespace Pattern

variable {p q : Pattern} {c : Char}

/-- Has every class of characters in the pattern an ASCII character, and does no part of it exclude all
texts? -/
def isProductive : Pattern → Bool
  | .never => false
  | .nothing | .through _ _ => true
  | .char accepts => (List.range 128).any fun n => accepts (Char.ofNat n)
  | .seq p q | .or p q => p.isProductive && q.isProductive
  | .star p => p.isProductive

/-- A mark that is written ends the text behind which it stands, or it has occurred earlier. -/
theorem exists_matches_through (stop seen : List Char) : ∃ s, Matches (.through stop seen) s := by
  by_contra hnone
  -- If no beginning of the mark is the first to complete one, none completes one at all.
  have hnever : ∀ t, t <+: stop → ¬ stop <:+ seen ++ t := by
    intro t
    induction hn : t.length using Nat.strongRecOn generalizing t with
    | ind n ih =>
      intro ht hstop
      refine hnone ⟨t, matches_through.2 ⟨hstop, fun u hu hne => ?_⟩⟩
      have hlt : u.length < t.length :=
        Nat.lt_of_le_of_ne hu.length_le fun heq => hne (hu.eq_of_length heq)
      exact ih u.length (hn ▸ hlt) u rfl (hu.trans ht)
  exact hnever stop List.prefix_rfl (List.suffix_append seen stop)

/-- A productive pattern has a text. -/
theorem exists_matches_of_isProductive (h : p.isProductive = true) : ∃ s, p.Matches s := by
  induction p with
  | never => cases h
  | nothing => exact ⟨[], .nothing⟩
  | char accepts =>
    obtain ⟨n, -, hn⟩ := List.any_eq_true.1 h
    exact ⟨[_], .char hn⟩
  | seq p q hp hq =>
    rw [isProductive, Bool.and_eq_true] at h
    obtain ⟨s, hs⟩ := hp h.1
    obtain ⟨t, ht⟩ := hq h.2
    exact ⟨s ++ t, .seq hs ht⟩
  | or p q hp _ =>
    rw [isProductive, Bool.and_eq_true] at h
    obtain ⟨s, hs⟩ := hp h.1
    exact ⟨s, .orLeft hs⟩
  | star p _ => exact ⟨[], .starNil⟩
  | through stop seen => exact exists_matches_through stop seen

/-- A word of ASCII characters is productive. -/
theorem isProductive_word {w : String} (h : ∀ c ∈ w.toList, c.toNat < 128) :
    (word w).isProductive = true := by
  unfold word
  generalize w.toList = cs at h ⊢
  induction cs with
  | nil => rfl
  | cons c cs ih =>
    obtain ⟨hc, hcs⟩ := List.forall_mem_cons.1 h
    have hchar : (Pattern.char (· == c)).isProductive = true := by
      refine List.any_eq_true.2 ⟨c.toNat, List.mem_range.2 hc, ?_⟩
      rw [Char.ofNat_toNat]
      exact beq_self_eq_true c
    rw [List.foldr_cons, isProductive, hchar, ih hcs]
    rfl

/-- The pattern is productive, or it is plain that it has no texts. -/
def IsDecided (p : Pattern) : Prop := p = .never ∨ p.isProductive = true

theorem IsDecided.andThen (hp : p.IsDecided) (hq : q.isProductive = true) :
    (p.andThen q).IsDecided := by
  rcases hp with rfl | hp
  · exact .inl rfl
  · refine .inr ?_
    unfold Pattern.andThen
    split
    · exact hp
    · exact hq
    · rw [isProductive, hp, hq]
      rfl

theorem IsDecided.orElse (hp : p.IsDecided) (hq : q.IsDecided) : (p.orElse q).IsDecided := by
  unfold Pattern.orElse
  split
  · exact hq
  · exact hp
  · rename_i hpne hqne
    refine .inr ?_
    rw [isProductive, hp.resolve_left hpne, hq.resolve_left hqne]
    rfl

/-- What remains of a productive pattern behind a character is productive, if it is anything. -/
theorem isDecided_after (h : p.isProductive = true) : (p.after c).IsDecided := by
  induction p with
  | never => cases h
  | nothing => exact .inl rfl
  | char accepts =>
    rw [after]
    split
    · exact .inr rfl
    · exact .inl rfl
  | seq p q hp hq =>
    rw [isProductive, Bool.and_eq_true] at h
    have hfirst : ((p.after c).andThen q).IsDecided := (hp h.1).andThen h.2
    rw [after]
    split
    · exact hfirst.orElse (hq h.2)
    · exact hfirst
  | or p q hp hq =>
    rw [isProductive, Bool.and_eq_true] at h
    exact (hp h.1).orElse (hq h.2)
  | star p hp => exact (hp h).andThen h
  | through stop seen =>
    rw [after]
    split
    · exact .inl rfl
    · exact .inr rfl

end Pattern

namespace Lexical

open Pattern

/-! ## Reading on as long as a token can begin so -/

section
variable {rs : List (Kind × Reading)} {c : Char} {s t : List Char}

/-- Some text of the rules begins so. -/
def Begins (rs : List (Kind × Reading)) (t : List Char) : Prop :=
  ∃ x ∈ rs, ∃ u, x.2.Matches (t ++ u)

theorem begins_advance : Begins (advance c rs) t ↔ Begins rs (c :: t) := by
  constructor
  · rintro ⟨y, hy, u, hu⟩
    obtain ⟨x, hx, hkeep⟩ := List.mem_filterMap.1 hy
    simp only [Option.ite_none_left_eq_some, Option.some.injEq] at hkeep
    obtain ⟨-, rfl⟩ := hkeep
    exact ⟨x, hx, u, Reading.matches_after.1 hu⟩
  · rintro ⟨x, hx, u, hu⟩
    obtain ⟨y, hy, hmatch⟩ := matches_of_mem_advance hx hu
    exact ⟨y, hy, u, hmatch⟩

/-- All rules are productive, or plainly have no texts. -/
def AllDecided (rs : List (Kind × Reading)) : Prop :=
  ∀ x ∈ rs, ∃ p, Follows x.2 p ∧ p.IsDecided

/-- The rules that remain behind a character are productive. -/
theorem AllDecided.isProductive_of_mem_advance (h : AllDecided rs) {y : Kind × Reading}
    (hy : y ∈ advance c rs) : ∃ p, Follows y.2 p ∧ p.isProductive = true := by
  obtain ⟨x, hx, hkeep⟩ := List.mem_filterMap.1 hy
  simp only [Option.ite_none_left_eq_some, Option.some.injEq] at hkeep
  obtain ⟨halive, rfl⟩ := hkeep
  obtain ⟨p, hfollows, hp⟩ := h x hx
  have hne : p.after c ≠ .never := fun heq =>
    halive (by rw [(hfollows.after c).isDead_eq, heq]; rfl)
  refine ⟨p.after c, hfollows.after c, ?_⟩
  rcases hp with rfl | hp
  · exact absurd rfl hne
  · exact (isDecided_after hp).resolve_left hne

theorem AllDecided.advance (h : AllDecided rs) : AllDecided (advance c rs) := by
  intro y hy
  obtain ⟨p, hfollows, hp⟩ := h.isProductive_of_mem_advance hy
  exact ⟨p, hfollows, .inr hp⟩

/-- **The lexer reads on as long as a token can begin so**, and not further. -/
theorem munch_reach (hrs : AllDecided rs) (n : Nat) (longest : Option (Kind × Nat))
    (s : List Char) :
    ∃ m, (munch rs n longest s).reach = n + m ∧ m ≤ s.length ∧
      (0 < m → Begins rs (s.take m)) ∧ (m < s.length → ¬ Begins rs (s.take (m + 1))) := by
  induction s generalizing rs n longest with
  | nil => exact ⟨0, rfl, Nat.le_refl 0, nofun, nofun⟩
  | cons c cs ih =>
    rw [munch]
    split
    · rename_i hnone
      refine ⟨0, rfl, Nat.zero_le _, nofun, fun _ hbegins => ?_⟩
      obtain ⟨y, hy, -⟩ := begins_advance.2 hbegins
      rw [hnone] at hy
      cases hy
    · rename_i hsome
      obtain ⟨m, hreach, hle, hbegins, hstop⟩ := ih hrs.advance (n + 1) _
      refine ⟨m + 1, by rw [hreach]; omega, Nat.succ_le_succ hle, fun _ => ?_, fun hlt => ?_⟩
      · refine begins_advance.1 ?_
        cases m with
        | succ m => exact hbegins (Nat.succ_pos m)
        | zero =>
          obtain ⟨y, rest, hy⟩ := List.exists_cons_of_ne_nil hsome
          have hmem : y ∈ Lexical.advance c rs := hy ▸ List.mem_cons_self
          obtain ⟨p, hfollows, hp⟩ := hrs.isProductive_of_mem_advance hmem
          obtain ⟨u, hu⟩ := exists_matches_of_isProductive hp
          exact ⟨y, hmem, u, hfollows.matches_iff.2 hu⟩
      · exact fun hmore => hstop (Nat.lt_of_succ_lt_succ hlt) (begins_advance.2 hmore)

end

/-- Some token begins so. -/
def CanBegin (t : List Char) : Prop := ∃ k u, (pattern k).Matches (t ++ u)

theorem begins_rules {t : List Char} : Begins rules t ↔ CanBegin t := by
  constructor
  · rintro ⟨x, hx, u, hu⟩
    obtain ⟨k, -, rfl⟩ := List.mem_map.1 hx
    exact ⟨k, u, (matches_rule k).1 hu⟩
  · rintro ⟨k, u, hu⟩
    exact ⟨_, mem_rules k, u, (matches_rule k).2 hu⟩

theorem CanBegin.mono {t u : List Char} (h : CanBegin t) (hu : u <+: t) : CanBegin u := by
  obtain ⟨v, rfl⟩ := hu
  obtain ⟨k, w, hw⟩ := h
  exact ⟨k, v ++ w, List.append_assoc u v w ▸ hw⟩

theorem pattern_eq_word {k : Kind} {w : String} (h : k.spelling? = some w) : pattern k = word w := by
  unfold pattern rule
  split
  case h_16 => simp only [h, TokenRule.pattern]
  all_goals cases h

/-- Every kind of token has texts, but for the end of the file. -/
theorem allDecided_rules : AllDecided rules := by
  have hchecked : ∀ k ∈ Kind.all, k = .endOfFile ∨
      (∃ w ∈ k.spelling?, w.toList.all (·.toNat < 128) = true) ∨
      k.spelling? = none ∧ (pattern k).isProductive = true := by
    decide +kernel
  intro x hx
  obtain ⟨k, hk, rfl⟩ := List.mem_map.1 hx
  refine ⟨pattern k, follows_rule k, ?_⟩
  rcases hchecked k hk with rfl | ⟨w, hw, hascii⟩ | ⟨-, hproductive⟩
  · exact .inl rfl
  · refine .inr ?_
    rw [pattern_eq_word hw]
    exact isProductive_word (by simpa using hascii)
  · exact .inr hproductive

/-- The text goes on as long as a token can begin so, and one character further: that character is
the offending one, if there is one before the end of `s`. -/
structure Offends (text s : List Char) : Prop where
  begins : ∀ t, t <+: text → t ≠ text → CanBegin t
  offends : text ≠ s → ¬ CanBegin text

theorem offends_take_reach (s : List Char) :
    Offends (s.take ((munch rules 0 none s).reach + 1)) s := by
  obtain ⟨m, hreach, hle, hbegins, hstop⟩ := munch_reach allDecided_rules 0 none s
  rw [hreach, Nat.zero_add]
  refine ⟨fun t ht hne => ?_, fun hne hbegin => ?_⟩
  · have hlt : t.length < (s.take (m + 1)).length :=
      Nat.lt_of_le_of_ne ht.length_le fun heq => hne (ht.eq_of_length heq)
    rw [List.length_take] at hlt
    have htake : t <+: s.take m :=
      List.prefix_of_prefix_length_le (ht.trans (List.take_prefix _ s)) (List.take_prefix m s)
        (by rw [List.length_take]; omega)
    rcases Nat.eq_zero_or_pos m with rfl | hpos
    · obtain rfl : t = [] := List.prefix_nil.1 htake
      exact ⟨.whitespace, [' '], matches_after _ |>.1 (matches_nil _ |>.2 rfl)⟩
    · exact (begins_rules.1 (hbegins hpos)).mono htake
  · rcases Nat.lt_or_ge m s.length with hlt | hge
    · exact hstop hlt (begins_rules.2 hbegin)
    · exact hne (List.take_of_length_le (Nat.le_succ_of_le hge))

end Lexical

end JavaOutline
