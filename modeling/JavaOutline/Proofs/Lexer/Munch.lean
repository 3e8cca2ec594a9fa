import JavaOutline.Parser.Analysis
import JavaOutline.Proofs.Lexer.Loops

/-!
# Maximal munch

The lexer reads a text character by character with `Reading.after` and `Reading.isNullable`. Reading
on finds the longest text that matches a rule, and of the rules that match it the first one
(`Lexical.munch_longest`); and the rules match the texts that their patterns describe
(`Lexical.matches_rule`).

`Lexical.Scanned` says how a text is to be cut into lexemes. `Lexical.scanned_lexemes` says that the
lexer cuts it so, and `lex_maximal_munch` says what this means for each lexeme of a source text.
-/

namespace JavaOutline

namespace Lexical

open Pattern

/-! ## Texts that end at a mark -/

/-- A comment ends at the first end mark behind its opening mark. -/
theorem matches_comment {t : List Char} : (pattern .comment).Matches t ↔
    ∃ s, t = "/*".toList ++ s ∧ EndsFirst "*/".toList s := by
  have hparts : pattern .comment = .seq (word "/*") (upTo "*/") := rfl
  rw [hparts, matches_seq]
  simp only [matches_word, matches_upTo]
  constructor
  · rintro ⟨u, s, ht, rfl, hs⟩
    exact ⟨s, ht, hs⟩
  · rintro ⟨s, ht, hs⟩
    exact ⟨_, s, ht, rfl, hs⟩

/-- A text block ends at the first three quotes behind its opening line, which is blank but for the
opening mark. -/
theorem matches_textBlock {t : List Char} : (pattern .textBlock).Matches t ↔
    ∃ blanks newline s, t = "\"\"\"".toList ++ (blanks ++ newline :: s) ∧
      (∀ c ∈ blanks, c ∈ " \t".toList) ∧ newline ∈ "\r\n".toList ∧
      EndsFirst "\"\"\"".toList s := by
  have hparts : pattern .textBlock = .seq
      (.seq (word "\"\"\"") (.seq (.star (anyOf " \t")) (anyOf "\r\n"))) (upTo "\"\"\"") := rfl
  rw [hparts]
  simp only [matches_seq, matches_word, matches_star_anyOf, matches_upTo, matches_anyOf]
  constructor
  · rintro ⟨_, s, rfl, ⟨_, _, rfl, rfl, blanks, _, rfl, hblanks, newline, hnewline, rfl⟩, hs⟩
    exact ⟨blanks, newline, s, by simp, hblanks, hnewline, hs⟩
  · rintro ⟨blanks, newline, s, rfl, hblanks, hnewline, hs⟩
    refine ⟨"\"\"\"".toList ++ (blanks ++ [newline]), s, by simp, ?_, hs⟩
    exact ⟨_, _, rfl, rfl, blanks, [newline], rfl, hblanks, newline, hnewline, rfl⟩

/-! ## Reading on -/

/-- The first of the rules that match the text has the kind `k`. -/
def FirstMatch : List (Kind × Reading) → List Char → Kind → Prop
  | [], _, _ => False
  | (j, r) :: rs, t, k => r.Matches t ∧ j = k ∨ ¬ r.Matches t ∧ FirstMatch rs t k

section
variable {rs : List (Kind × Reading)} {c : Char} {s t : List Char} {k : Kind}

/-- The rules that remain behind a character are those that may go on with it. -/
theorem firstMatch_advance : FirstMatch (advance c rs) t k ↔ FirstMatch rs (c :: t) k := by
  induction rs with
  | nil => exact Iff.rfl
  | cons x rs ih =>
    obtain ⟨j, r⟩ := x
    rw [FirstMatch, ← Reading.matches_after, ← ih]
    cases hdead : (r.after c).isDead with
    | true =>
      have hskip : advance c ((j, r) :: rs) = advance c rs := by simp [advance, hdead]
      rw [hskip]
      simp [Reading.not_matches_of_isDead hdead]
    | false =>
      have hkeep : advance c ((j, r) :: rs) = (j, r.after c) :: advance c rs := by
        simp [advance, hdead]
      rw [hkeep, FirstMatch]

theorem matches_of_mem_advance {x : Kind × Reading} (hx : x ∈ rs) (h : x.2.Matches (c :: t)) :
    ∃ y ∈ advance c rs, y.2.Matches t := by
  have halive : ¬ (x.2.after c).isDead = true := fun hdead =>
    Reading.not_matches_of_isDead hdead (Reading.matches_after.2 h)
  refine ⟨(x.1, x.2.after c), List.mem_filterMap.2 ⟨x, hx, ?_⟩, Reading.matches_after.2 h⟩
  simp [halive]

/-- The kind that is accepted is that of the first rule that matches the empty text. -/
theorem firstMatch_of_accepted? (h : accepted? rs = some k) : FirstMatch rs [] k := by
  induction rs with
  | nil => cases h
  | cons x rs ih =>
    obtain ⟨j, r⟩ := x
    rw [accepted?, List.find?_cons] at h
    rw [FirstMatch, Reading.matches_nil]
    cases hr : r.isNullable with
    | true =>
      simp only [hr, Option.map_some, Option.some.injEq] at h
      exact .inl ⟨rfl, h⟩
    | false =>
      simp only [hr] at h
      exact .inr ⟨nofun, ih h⟩

theorem not_matches_of_accepted? (h : accepted? rs = none) : ∀ x ∈ rs, ¬ x.2.Matches [] := by
  intro x hx hmatch
  rw [accepted?, Option.map_eq_none_iff, List.find?_eq_none] at h
  exact h x hx (Reading.matches_nil.1 hmatch)

/-- **Reading on finds the longest text that matches** some rule, with the first rule that matches
it, or leaves what had been found if no text but the empty one matches. -/
theorem munch_longest (rs : List (Kind × Reading)) (n : Nat) (longest : Option (Kind × Nat))
    (s : List Char) :
    (∃ k m, (munch rs n longest s).longest = some (k, n + m) ∧ 0 < m ∧ m ≤ s.length ∧
      FirstMatch rs (s.take m) k ∧
      ∀ l, m < l → l ≤ s.length → ∀ x ∈ rs, ¬ x.2.Matches (s.take l)) ∨
    ((munch rs n longest s).longest = longest ∧
      ∀ l, 0 < l → l ≤ s.length → ∀ x ∈ rs, ¬ x.2.Matches (s.take l)) := by
  induction s generalizing rs n longest with
  | nil => exact .inr ⟨rfl, fun l hpos hle => absurd hle (Nat.not_le.2 hpos)⟩
  | cons c cs ih =>
    rw [munch]
    split
    · rename_i hnone
      refine .inr ⟨rfl, fun l hpos hle x hx hmatch => ?_⟩
      obtain ⟨l, rfl⟩ := Nat.exists_eq_succ_of_ne_zero (Nat.ne_zero_of_lt hpos)
      obtain ⟨y, hy, -⟩ := matches_of_mem_advance hx hmatch
      rw [hnone] at hy
      cases hy
    · -- What is longer than one character is found behind the character.
      have hlater {m : Nat} (h : ∀ l, m < l → l ≤ cs.length →
          ∀ x ∈ advance c rs, ¬ x.2.Matches (cs.take l)) :
          ∀ l, m + 1 < l → l ≤ (c :: cs).length → ∀ x ∈ rs, ¬ x.2.Matches ((c :: cs).take l) := by
        intro l hlt hle x hx hmatch
        obtain ⟨l, rfl⟩ := Nat.exists_eq_succ_of_ne_zero (Nat.ne_zero_of_lt hlt)
        obtain ⟨y, hy, hmatch⟩ := matches_of_mem_advance hx hmatch
        exact h l (Nat.lt_of_succ_lt_succ hlt) (Nat.le_of_succ_le_succ hle) y hy hmatch
      rcases ih (advance c rs) (n + 1) _ with
        ⟨k, m, hfound, hpos, hle, hfirst, hmax⟩ | ⟨hfound, hmax⟩
      · refine .inl ⟨k, m + 1, ?_, Nat.succ_pos m, Nat.succ_le_succ hle, ?_, hlater hmax⟩
        · rw [hfound, Nat.add_right_comm, Nat.add_assoc]
        · exact firstMatch_advance.1 hfirst
      · rw [hfound]
        cases hacc : accepted? (advance c rs) with
        | some k =>
          refine .inl ⟨k, 1, rfl, Nat.one_pos, Nat.succ_le_succ (Nat.zero_le _), ?_, hlater hmax⟩
          exact firstMatch_advance.1 (firstMatch_of_accepted? hacc)
        | none =>
          refine .inr ⟨rfl, fun l hpos hle x hx hmatch => ?_⟩
          obtain ⟨l, rfl⟩ := Nat.exists_eq_succ_of_ne_zero (Nat.ne_zero_of_lt hpos)
          obtain ⟨y, hy, hmatch⟩ := matches_of_mem_advance hx hmatch
          cases l with
          | zero => exact not_matches_of_accepted? hacc y hy (by simpa using hmatch)
          | succ l => exact hmax (l + 1) (Nat.succ_pos l) (Nat.le_of_succ_le_succ hle) y hy hmatch

end

/-! ## The kinds in order -/

theorem pairwise_all : Kind.all.Pairwise fun j k => j.index < k.index := by decide +kernel

theorem mem_all (k : Kind) : k ∈ Kind.all := by cases k <;> decide +kernel

/-- The first of the rules of some kinds in order belongs to the least kind. -/
theorem FirstMatch.earliest {ks : List Kind} {t : List Char} {k : Kind}
    (hks : ks.Pairwise fun j k => j.index < k.index)
    (h : FirstMatch (ks.map fun k => (k, (rule k).start)) t k) :
    (pattern k).Matches t ∧ ∀ j ∈ ks, j.index < k.index → ¬ (pattern j).Matches t := by
  induction ks with
  | nil => exact h.elim
  | cons i ks ih =>
    obtain ⟨hi, hks⟩ := List.pairwise_cons.1 hks
    rw [List.map_cons, FirstMatch, matches_rule] at h
    rcases h with ⟨hmatch, rfl⟩ | ⟨hno, h⟩
    · refine ⟨hmatch, fun j hj hlt => ?_⟩
      rcases List.mem_cons.1 hj with rfl | hj
      · exact absurd hlt (Nat.lt_irrefl _)
      · exact absurd hlt (Nat.lt_asymm (hi j hj))
    · obtain ⟨hmatch, hearlier⟩ := ih hks h
      refine ⟨hmatch, fun j hj hlt => ?_⟩
      rcases List.mem_cons.1 hj with rfl | hj
      · exact hno
      · exact hearlier j hj hlt

/-! ## Lexemes -/

/-- The text is the longest one at the beginning of `s` that matches some pattern, and `k` is the
first kind whose pattern matches it. -/
structure IsMunch (k : Kind) (text s : List Char) : Prop where
  nonempty : text ≠ []
  beginning : text <+: s
  accepted : (pattern k).Matches text
  longest : ∀ t, t <+: s → text.length < t.length → ∀ j, ¬ (pattern j).Matches t
  earliest : ∀ j : Kind, j.index < k.index → ¬ (pattern j).Matches text

/-- No text at the beginning of `s` but the empty one matches a pattern. -/
def NoMunch (s : List Char) : Prop := ∀ t, t <+: s → t ≠ [] → ∀ j, ¬ (pattern j).Matches t

/-- How a text that begins at a position is cut into lexemes. -/
inductive Scanned : Position → List Char → List Lexeme → Prop where
  | nil {p : Position} : Scanned p [] []
  | token {p : Position} {k : Kind} {text s : List Char} {ls : List Lexeme}
      (munch : IsMunch k text s) (next : Scanned (p.advance text) (s.drop text.length) ls) :
      Scanned p s (.token ⟨k, text, p⟩ :: ls)
  | garbage {p : Position} {text s : List Char} {ls : List Lexeme} (nonempty : text ≠ [])
      (beginning : text <+: s) (none : NoMunch s)
      (next : Scanned (p.advance text) (s.drop text.length) ls) :
      Scanned p s (.garbage text p :: ls)

section
variable {p : Position} {s : List Char} {l : Lexeme} {ls : List Lexeme}

theorem mem_rules (j : Kind) : (j, (rule j).start) ∈ rules :=
  List.mem_map.2 ⟨j, mem_all j, rfl⟩

/-- The first lexeme is the longest text that matches, or there is none. -/
theorem first_spec (p : Position) (hs : s ≠ []) :
    (∃ k text, first p s = (.token ⟨k, text, p⟩, s.drop text.length) ∧ IsMunch k text s) ∨
    (∃ text, first p s = (.garbage text p, s.drop text.length) ∧ text <+: s ∧ text ≠ [] ∧
      NoMunch s) := by
  have htake {t : List Char} (ht : t <+: s) : t = s.take t.length := List.prefix_iff_eq_take.1 ht
  unfold first
  rcases munch_longest rules 0 none s with
    ⟨k, m, hfound, hpos, hle, hfirst, hmax⟩ | ⟨hfound, hmax⟩
  · rw [Nat.zero_add] at hfound
    have hlength : (s.take m).length = m := List.length_take_of_le hle
    obtain ⟨hmatch, hearlier⟩ := FirstMatch.earliest pairwise_all hfirst
    refine .inl ⟨k, s.take m, by simp only [hfound, hlength], ?_, List.take_prefix m s, hmatch, ?_,
      fun j => hearlier j (mem_all j)⟩
    · intro hnil
      rw [hnil] at hlength
      exact absurd hlength (Nat.ne_of_lt hpos)
    · intro t ht hlt j hj
      rw [hlength] at hlt
      rw [htake ht] at hj
      exact hmax t.length hlt ht.length_le _ (mem_rules j) ((matches_rule j).2 hj)
  · have hlength : s.drop (s.take ((munch rules 0 none s).reach + 1)).length =
        s.drop ((munch rules 0 none s).reach + 1) := by
      rw [List.length_take]
      rcases Nat.le_total ((munch rules 0 none s).reach + 1) s.length with hle | hle
      · rw [Nat.min_eq_left hle]
      · rw [Nat.min_eq_right hle, List.drop_eq_nil_of_le hle, List.drop_eq_nil_of_le (Nat.le_refl _)]
    refine .inr ⟨s.take ((munch rules 0 none s).reach + 1), by simp only [hfound, hlength],
      List.take_prefix _ s, by simpa using hs, ?_⟩
    intro t ht hne j hj
    rw [htake ht] at hj
    exact hmax t.length (List.length_pos_iff.2 hne) ht.length_le _ (mem_rules j)
      ((matches_rule j).2 hj)

/-- The lexer cuts a text as it is to be cut. -/
theorem scanned_lexemes {n : Nat} (hn : s.length ≤ n) : Scanned p s (lexemes n p s) := by
  induction n generalizing p s with
  | zero =>
    obtain rfl := List.length_eq_zero_iff.1 (Nat.le_zero.1 hn)
    exact .nil
  | succ n ih =>
    cases s with
    | nil => exact .nil
    | cons c cs =>
      have hrest {text : List Char} (hne : text ≠ []) :
          ((c :: cs).drop text.length).length ≤ n := by
        have hpos := List.length_pos_iff.2 hne
        rw [List.length_drop]
        omega
      rcases first_spec p (List.cons_ne_nil c cs) with
        ⟨k, text, hfirst, hmunch⟩ | ⟨text, hfirst, hprefix, hne, hnone⟩
      · simp only [lexemes, hfirst]
        exact .token hmunch (ih (hrest hmunch.nonempty))
      · simp only [lexemes, hfirst]
        exact .garbage hne hprefix hnone (ih (hrest hne))

/-- The lexemes together are the text. -/
theorem Scanned.flatMap_text (h : Scanned p s ls) : ls.flatMap Lexeme.text = s := by
  induction h with
  | nil => rfl
  | token munch _ ih =>
    rw [List.flatMap_cons, ih]
    exact List.prefix_iff_eq_append.1 munch.beginning
  | garbage _ beginning _ _ ih =>
    rw [List.flatMap_cons, ih]
    exact List.prefix_iff_eq_append.1 beginning

/-- What is behind some lexemes is cut into the others. -/
theorem Scanned.drop {before after : List Lexeme} (h : Scanned p s (before ++ after)) :
    Scanned (p.advance (before.flatMap Lexeme.text)) (after.flatMap Lexeme.text) after := by
  induction before generalizing p s with
  | nil => exact h.flatMap_text.symm ▸ h
  | cons l before ih =>
    have hadvance (text : List Char) : p.advance (text ++ before.flatMap Lexeme.text) =
        (p.advance text).advance (before.flatMap Lexeme.text) := List.foldl_append
    rw [List.cons_append] at h
    cases h with
    | token _ next => exact (hadvance _).symm ▸ ih next
    | garbage _ _ _ next => exact (hadvance _).symm ▸ ih next

end

end Lexical

namespace TokenStream

open Lexical

/-- The tokens of a stream are those among the lexemes, in order. -/
theorem tokens_ofLexemes (p : Position) (n : Nat) (ls : List Lexeme) :
    (ofLexemes p n ls).tokens = ls.filterMap fun
      | .token t => some t
      | .garbage _ _ => none := by
  induction ls generalizing p n with
  | nil => rfl
  | cons l ls ih =>
    cases l with
    | token t => exact congrArg (t :: ·) (ih _ _)
    | garbage text q => exact ih _ _

/-- There is a message for each text that is no token, in order. -/
theorem messages_ofLexemes (p : Position) (n : Nat) (ls : List Lexeme) :
    (ofLexemes p n ls).messages = ls.filterMap fun
      | .token _ => none
      | .garbage text q => some (garbageMessage text q) := by
  induction ls generalizing p n with
  | nil => rfl
  | cons l ls ih =>
    cases l with
    | token t => exact ih _ _
    | garbage text q => exact congrArg (garbageMessage text q :: ·) (ih _ _)

end TokenStream

/-- **The lexer takes the longest token.** The lexemes of a source text together are the text. Where
a lexeme begins, if some text that is not empty matches a pattern, the lexeme is a token with the
longest such text, and its kind is the first one whose pattern matches that text; if there is no such
text, the lexeme is no token. The token stream has these tokens in order, and a message for each text
that is no token with the position where it begins; hidden are blanks and comments. Comments and
text blocks, alone among the patterns, run up to the first end mark. -/
theorem lex_maximal_munch (source : List Char) :
    (lex source).flatMap Lexical.Lexeme.text = source ∧
    (∀ before l after, lex source = before ++ l :: after →
      let p := Position.start.advance (before.flatMap Lexical.Lexeme.text)
      let rest := (l :: after).flatMap Lexical.Lexeme.text
      ((∃ t, t <+: rest ∧ t ≠ [] ∧ ∃ k, (Lexical.pattern k).Matches t) →
        ∃ k text, l = .token ⟨k, text, p⟩ ∧ Lexical.IsMunch k text rest) ∧
      ((¬ ∃ t, t <+: rest ∧ t ≠ [] ∧ ∃ k, (Lexical.pattern k).Matches t) →
        ∃ text, l = .garbage text p ∧ text ≠ [])) ∧
    (TokenStream.ofSource source).tokens = (lex source).filterMap (fun
      | .token t => some t
      | .garbage _ _ => none) ∧
    (TokenStream.ofSource source).messages = (lex source).filterMap (fun
      | .token _ => none
      | .garbage text p => some ⟨p.line, p.column,
          "token recognition error at: ".toList ++ quoted text⟩) ∧
    (∀ k : Kind, k.isHidden = true ↔ k = .whitespace ∨ k = .comment ∨ k = .lineComment) ∧
    (∀ t, (Lexical.pattern .comment).Matches t ↔
      ∃ s, t = "/*".toList ++ s ∧ Pattern.EndsFirst "*/".toList s) ∧
    ∀ t, (Lexical.pattern .textBlock).Matches t ↔
      ∃ blanks newline s, t = "\"\"\"".toList ++ (blanks ++ newline :: s) ∧
        (∀ c ∈ blanks, c ∈ " \t".toList) ∧ newline ∈ "\r\n".toList ∧
        Pattern.EndsFirst "\"\"\"".toList s := by
  have hscanned : Lexical.Scanned .start source (lex source) :=
    Lexical.scanned_lexemes (Nat.le_refl _)
  refine ⟨hscanned.flatMap_text, fun before l after hsplit => ?_,
    TokenStream.tokens_ofLexemes _ _ _, TokenStream.messages_ofLexemes _ _ _,
    fun k => by cases k <;> decide, fun _ => Lexical.matches_comment,
    fun _ => Lexical.matches_textBlock⟩
  intro p rest
  have hthere : Lexical.Scanned p rest (l :: after) := (hsplit ▸ hscanned).drop
  clear_value p rest
  cases hthere with
  | token munch next =>
    refine ⟨fun _ => ⟨_, _, rfl, munch⟩, fun hnone => ?_⟩
    exact absurd ⟨_, munch.beginning, munch.nonempty, _, munch.accepted⟩ hnone
  | garbage nonempty _ none next =>
    refine ⟨fun ⟨t, ht, hne, k, hk⟩ => absurd hk (none t ht hne k), fun _ => ⟨_, rfl, nonempty⟩⟩

end JavaOutline
