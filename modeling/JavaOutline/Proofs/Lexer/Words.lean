import JavaOutline.Proofs.Lexer.Quotes

/-!
# Where words end

A word is a keyword, a truth value, `null` or a name. The text of a word reads as a name
(`Lexical.isName_of_isWord`), and a name goes on as long as letters and digits follow. So the longest
token is never a word that ends inside a run of letters and digits (`Lexical.IsMunch.ends_of_isWord`).

One keyword is spelled with a hyphen, so it is no name. It is cut off behind its last letter whatever
follows (`Lexical.isMunch_nonSealed`), and it alone can end inside a name (`words_end_iff`).
-/

namespace JavaOutline

/-- Is a token of this kind a word: a keyword, a truth value, `null` or a name? -/
def Kind.isWord (k : Kind) : Bool :=
  (Kind.kwAbstract.index ≤ k.index && k.index ≤ Kind.kwNonSealed.index) ||
    k = .boolLiteral || k = .nullLiteral || k = .identifier

namespace Lexical

open Pattern

variable {k : Kind} {s t : List Char} {c : Char}

/-- A character with which a name may go on: a letter or a decimal digit. -/
def isLetterOrDigit (c : Char) : Bool := isLetter c || isDigit c

/-! ## Words as names -/

/-- Is the text a letter, and then letters and digits? -/
def isName : List Char → Bool
  | [] => false
  | c :: cs => isLetter c && cs.all isLetterOrDigit

theorem matches_identifier : (pattern .identifier).Matches s ↔ isName s = true := by
  have hparts : pattern .identifier =
      .seq (.char isLetter) (.star (.char isLetterOrDigit)) := rfl
  rw [hparts]
  simp only [matches_seq, matches_char, matches_star_char]
  constructor
  · rintro ⟨_, cs, rfl, ⟨c, hc, rfl⟩, hcs⟩
    simpa [isName, hc] using hcs
  · intro h
    cases s with
    | nil => cases h
    | cons c cs =>
      obtain ⟨hc, hcs⟩ := (Bool.and_eq_true _ _).mp h
      exact ⟨[c], cs, rfl, ⟨c, hc, rfl⟩, List.all_eq_true.1 hcs⟩

/-- Behind a name a letter or digit makes a longer name. -/
theorem isName_concat (h : isName s = true) : isName (s ++ [c]) = isLetterOrDigit c := by
  cases s with
  | nil => cases h
  | cons d ds =>
    obtain ⟨hd, hds⟩ := (Bool.and_eq_true _ _).mp h
    simp [isName, hd, hds]

/-- The text of a word is a name, unless there is a hyphen in it. -/
theorem isName_of_isWord (hword : k.isWord = true) (hne : k ≠ .kwNonSealed)
    (h : (pattern k).Matches s) : isName s = true := by
  have hspellings : ∀ k ∈ Kind.all, k.isWord = true → k ≠ .kwNonSealed →
      k = .identifier ∨ k = .boolLiteral ∨ ∃ w ∈ k.spelling?, isName w.toList = true := by
    decide +kernel
  rcases hspellings k (mem_all k) hword hne with rfl | rfl | ⟨w, hw, hname⟩
  · exact matches_identifier.1 h
  · rcases matches_or.1 h with h | h
    · rw [matches_word.1 h]
      decide
    · rw [matches_word.1 h]
      decide
  · rw [pattern_eq_word hw] at h
    rwa [matches_word.1 h]

/-- **A word ends where no letter or digit follows**, since with such a character it would be a
longer name. -/
theorem IsMunch.ends_of_isWord (h : IsMunch k t s) (hword : k.isWord = true)
    (hne : k ≠ .kwNonSealed) (hc : t ++ [c] <+: s) : isLetterOrDigit c = false := by
  rw [← Bool.not_eq_true]
  intro hgoesOn
  have hlonger : isName (t ++ [c]) = true := by
    rw [isName_concat (isName_of_isWord hword hne h.accepted), hgoesOn]
  exact h.longest _ hc (by simp) .identifier (matches_identifier.2 hlonger)

/-! ## The word with a hyphen -/

/-- Only one kind of token begins with the keyword that has a hyphen. -/
theorem kind_of_nonSealed (h : (pattern k).Matches ("non-sealed".toList ++ s)) :
    k = .kwNonSealed := by
  have hall : (Kind.all.all fun k => k = .kwNonSealed ||
      ("non-sealed".toList.foldl (fun p c => p.after c) (pattern k)).isDead) = true := by
    decide +kernel
  have hk := List.all_eq_true.1 hall k (mem_all k)
  rw [Bool.or_eq_true, decide_eq_true_eq] at hk
  exact hk.resolve_right (not_isDead_of_matches_append h)

/-- The keyword with a hyphen is cut off a text that begins with it, whatever follows. -/
theorem isMunch_nonSealed (h : "non-sealed".toList <+: s) :
    IsMunch .kwNonSealed "non-sealed".toList s := by
  have hspelling {t : List Char} : (pattern .kwNonSealed).Matches t ↔ t = "non-sealed".toList :=
    matches_word
  refine ⟨by decide, h, hspelling.2 rfl, fun t ht hlt j hj => ?_, fun j hlt hj => ?_⟩
  · obtain ⟨rest, rfl⟩ := List.prefix_of_prefix_length_le h ht hlt.le
    obtain rfl := kind_of_nonSealed hj
    rw [hspelling.1 hj] at hlt
    exact absurd hlt (Nat.lt_irrefl _)
  · rw [kind_of_nonSealed (s := []) hj] at hlt
    exact absurd hlt (Nat.lt_irrefl _)

/-- The first lexeme of a text, if it is a token, is cut off the text. -/
theorem Scanned.isMunch_head {p : Position} {t : Token} {ls : List Lexeme}
    (h : Scanned p s (.token t :: ls)) : IsMunch t.kind t.text s := by
  cases h with
  | token munch _ => exact munch

end Lexical

namespace TokenStream

open Lexical

variable {source : List Char}

/-- What begins with a lexeme of a source text is cut into this lexeme and those behind it. -/
theorem scanned_of_mem_lex {l : Lexeme} (h : l ∈ lex source) :
    ∃ ls, Scanned l.position (source.drop l.start) (l :: ls) := by
  obtain ⟨before, after, hsplit⟩ := List.append_of_mem h
  have hscanned : Scanned .start source (before ++ l :: after) := hsplit ▸ scanned_lex source
  have hdrop : source.drop l.start = (l :: after).flatMap Lexeme.text := by
    rw [hscanned.start_eq, hscanned.eq_append, List.drop_left, List.flatMap_cons]
  rw [hdrop, hscanned.position_eq]
  exact ⟨after, hscanned.drop⟩

/-- A token of a source text is cut off where it begins. -/
theorem isMunch_of_mem_tokens {t : Token} (h : t ∈ (ofSource source).tokens) :
    IsMunch t.kind t.text (source.drop t.position.offset) := by
  obtain ⟨ls, hscanned⟩ := scanned_of_mem_lex (mem_lex_of_mem_tokens h)
  exact hscanned.isMunch_head

end TokenStream

namespace Lexical

open TokenStream

variable {source : List Char} {t : Token}

/-- The character right behind the token, if there is one, is neither a letter nor a digit. -/
def EndsWord (source : List Char) (t : Token) : Prop :=
  ∀ c, source[t.position.offset + t.text.length]? = some c → isLetterOrDigit c = false

/-- The character right behind a text that a source text goes on with. -/
theorem concat_prefix_drop_iff {s : List Char} {n : Nat} {c : Char} (h : s <+: source.drop n) :
    s ++ [c] <+: source.drop n ↔ source[n + s.length]? = some c := by
  obtain ⟨rest, hrest⟩ := h
  have hbehind : source[n + s.length]? = rest.head? := by
    rw [← List.getElem?_drop, ← hrest, List.getElem?_append_right (Nat.le_refl _), Nat.sub_self,
      List.head?_eq_getElem?]
  rw [hbehind, ← hrest, List.prefix_append_right_inj, List.head?_eq_some_iff]
  simp [List.cons_prefix_iff]

theorem endsWord_of_ne (h : t ∈ (ofSource source).tokens) (hword : t.kind.isWord = true)
    (hne : t.kind ≠ .kwNonSealed) : EndsWord source t := by
  intro c hc
  have hmunch := isMunch_of_mem_tokens h
  exact hmunch.ends_of_isWord hword hne ((concat_prefix_drop_iff hmunch.beginning).2 hc)

theorem eq_nonSealed_of_mem_lex {l : Lexeme} (h : l ∈ lex source)
    (hbegins : "non-sealed".toList <+: source.drop l.start) :
    l = .token ⟨.kwNonSealed, "non-sealed".toList, l.position⟩ := by
  obtain ⟨ls, hscanned⟩ := scanned_of_mem_lex h
  obtain ⟨ls', heq, -⟩ := hscanned.cons_of_munch (isMunch_nonSealed hbegins)
  exact (List.cons.inj heq).1

end Lexical

/-- **Words end where no letter or digit follows, with one exception.** A keyword, truth value, `null`
or name is never directly followed by a letter or digit, unless it is the keyword with a hyphen. Where
a lexeme begins and the source text goes on with this keyword, the lexeme is this keyword, whatever
follows. So all words of a source text end where no letter or digit follows exactly if there is no
place where a lexeme begins and the source text goes on with this keyword and a letter or digit. -/
theorem words_end_iff (source : List Char) :
    let T := TokenStream.ofSource source
    (∀ t ∈ T.tokens, t.kind.isWord = true → t.kind ≠ .kwNonSealed → Lexical.EndsWord source t) ∧
    (∀ l ∈ lex source, "non-sealed".toList <+: source.drop l.start →
      l = .token ⟨.kwNonSealed, "non-sealed".toList, l.position⟩) ∧
    ((∀ t ∈ T.tokens, t.kind.isWord = true → Lexical.EndsWord source t) ↔
      ∀ l ∈ lex source, ∀ c, Lexical.isLetterOrDigit c = true →
        ¬ "non-sealed".toList ++ [c] <+: source.drop l.start) := by
  intro T
  refine ⟨fun t ht => Lexical.endsWord_of_ne ht, fun l hl => Lexical.eq_nonSealed_of_mem_lex hl,
    fun h l hl c hc hprefix => ?_, fun h t ht hword => ?_⟩
  · -- The lexeme is the keyword, and the letter or digit follows it.
    have hbegins := (List.prefix_append "non-sealed".toList [c]).trans hprefix
    have heq := Lexical.eq_nonSealed_of_mem_lex hl hbegins
    have htoken : (⟨.kwNonSealed, "non-sealed".toList, l.position⟩ : Token) ∈ T.tokens := by
      rw [TokenStream.tokens_ofSource]
      exact List.mem_filterMap.2 ⟨l, hl, by rw [heq]; rfl⟩
    have hends := h _ htoken rfl c ((Lexical.concat_prefix_drop_iff hbegins).1 hprefix)
    rw [hc] at hends
    cases hends
  · by_cases hkind : t.kind = .kwNonSealed
    · intro c hc
      rw [← Bool.not_eq_true]
      intro hgoesOn
      have hmunch := TokenStream.isMunch_of_mem_tokens ht
      have htext : t.text = "non-sealed".toList :=
        Pattern.matches_word.1 (hkind ▸ hmunch.accepted :)
      refine h _ (TokenStream.mem_lex_of_mem_tokens ht) c hgoesOn ?_
      rw [← htext]
      exact (Lexical.concat_prefix_drop_iff hmunch.beginning).2 hc
    · exact Lexical.endsWord_of_ne ht hword hkind

/-- Behind a hyphen a name is split: its first letters go to the keyword, and the last one is a name
of its own. -/
theorem name_split_behind_hyphen :
    let source := "non-sealedx".toList
    let t : Token := ⟨.kwNonSealed, "non-sealed".toList, .start⟩
    let rest : Token := ⟨.identifier, ['x'], ⟨10, 1, 10⟩⟩
    (TokenStream.ofSource source).tokens = [t, rest] ∧ t.kind.isWord = true ∧
    ¬ ∀ t ∈ (TokenStream.ofSource source).tokens, t.kind.isWord = true →
      Lexical.EndsWord source t := by
  intro source t rest
  have htokens : (TokenStream.ofSource source).tokens = [t, rest] := by decide +kernel
  have hlexeme : .token t ∈ lex source :=
    TokenStream.mem_lex_of_mem_tokens (htokens ▸ List.mem_cons_self)
  refine ⟨htokens, rfl, fun h => ?_⟩
  exact (words_end_iff source).2.2.1 h (.token t) hlexeme 'x' (by decide) (by decide)

end JavaOutline
