import JavaOutline.Proofs.Lexer.LineBreaks
import Mathlib.Algebra.Group.Nat.Even

/-!
# Quotes in literals

A quote ends a string literal unless it belongs to an escape sequence, so a string literal is a
quote, some characters and escape sequences, and another quote (`Lexical.matches_stringLiteral`).
Two escape sequences have a quote in them (`Lexical.eq_of_escape_of_quote`). In one of them the
backslash is written as a backslash and `u005c`, which by itself is an escape sequence too.

In a text block escape sequences do not count. It ends at the first three quotes behind its opening
line, even if a backslash escapes them (`textBlock_ends_at_first_quotes`).
-/

namespace JavaOutline

namespace Pattern

variable {p : Pattern} {s t : List Char} {c : Char}

/-! ## Patterns that leave out a character -/

/-- Does the pattern itself rule out the character? -/
def excludes (c : Char) : Pattern → Bool
  | .never | .nothing => true
  | .char accepts => !accepts c
  | .seq p q | .or p q => p.excludes c && q.excludes c
  | .star p => p.excludes c
  | .through _ _ => false

theorem notMem_of_excludes (hs : p.Matches s) (h : p.excludes c = true) : c ∉ s := by
  induction hs with
  | nothing | starNil => exact List.not_mem_nil
  | char hd =>
    rintro hc
    rw [List.mem_singleton.1 hc, excludes, hd] at h
    cases h
  | seq _ _ hp hq =>
    obtain ⟨hleft, hright⟩ := (Bool.and_eq_true _ _).mp h
    exact fun hc => (List.mem_append.1 hc).elim (hp hleft) (hq hright)
  | orLeft _ hp => exact hp ((Bool.and_eq_true _ _).mp h).1
  | orRight _ hq => exact hq ((Bool.and_eq_true _ _).mp h).2
  | starCons _ _ hp hq => exact fun hc => (List.mem_append.1 hc).elim (hp h) (hq h)
  | through => cases h

theorem matches_noneOf {cs : String} : Matches (noneOf cs) s ↔ ∃ c, c ∉ cs.toList ∧ s = [c] := by
  rw [noneOf, matches_char]
  simp only [Bool.not_eq_true', ← Bool.not_eq_true, List.contains_iff_mem]

/-- What may follow a text. -/
theorem matches_foldl_after {u : List Char} :
    Matches (u.foldl (fun p c => p.after c) p) s ↔ Matches p (u ++ s) := by
  induction u generalizing p with
  | nil => exact Iff.rfl
  | cons c u ih => rw [List.foldl_cons, ih, matches_after, List.cons_append]

/-- A pattern goes on as long as some text of it begins so. -/
theorem not_isDead_of_matches_append {u : List Char} (h : p.Matches (u ++ s)) :
    ¬ (u.foldl (fun p c => p.after c) p).isDead = true :=
  fun hdead => not_matches_of_isDead hdead (matches_foldl_after.2 h)

/-- Whether a text matches is found by reading it. -/
theorem matches_iff_isNullable :
    Matches p s ↔ (s.foldl (fun p c => p.after c) p).isNullable = true := by
  rw [← matches_nil, matches_foldl_after, List.append_nil]

/-! ## Repetitions -/

theorem matches_star_append (hs : Matches (.star p) s) (ht : Matches (.star p) t) :
    Matches (.star p) (s ++ t) := by
  generalize hq : Pattern.star p = q at hs
  induction hs with
  | nothing | char | seq | orLeft | orRight | through => cases hq
  | starNil => cases hq; exact ht
  | starCons hp _ _ ih =>
    cases hq
    rw [List.append_assoc]
    exact .starCons hp (ih rfl)

theorem matches_star_of_matches (h : p.Matches s) : Matches (.star p) s := by
  rw [← List.append_nil s]
  exact .starCons h .starNil

theorem matches_star_of_forall (h : ∀ c ∈ s, p.Matches [c]) : Matches (.star p) s := by
  induction s with
  | nil => exact .starNil
  | cons c s ih =>
    obtain ⟨hc, hs⟩ := List.forall_mem_cons.1 h
    exact .starCons hc (ih hs)

/-- A repetition is cut at a character that is never but a part of its own. -/
theorem matches_star_split (hc : ∀ u, p.Matches u → c ∈ u → u = [c])
    (h : Matches (.star p) (s ++ c :: t)) : Matches (.star p) s ∧ Matches (.star p) t := by
  generalize hq : Pattern.star p = q at h
  generalize hw : s ++ c :: t = w at h
  induction h generalizing s with
  | nothing | char | seq | orLeft | orRight | through => cases hq
  | starNil => simp at hw
  | @starCons _ u v hu hv _ ih =>
    cases hq
    rcases List.append_eq_append_iff.1 hw with ⟨before, rfl, hbefore⟩ | ⟨behind, rfl, hbehind⟩
    · cases before with
      | nil =>
        rw [List.append_nil] at hu
        exact ⟨matches_star_of_matches hu, (ih (s := []) rfl hbefore).2⟩
      | cons d before =>
        -- The character is in the first part, and so it is that part.
        obtain ⟨rfl, rfl⟩ := List.cons.inj hbefore
        have halone := congrArg List.length (hc _ hu (by simp))
        simp only [List.length_append, List.length_cons, List.length_nil] at halone
        obtain rfl : s = [] := List.length_eq_zero_iff.1 (by omega)
        obtain rfl : before = [] := List.length_eq_zero_iff.1 (by omega)
        exact ⟨.starNil, hv⟩
    · obtain ⟨hs, ht⟩ := ih rfl hbehind.symm
      exact ⟨.starCons hu hs, ht⟩

end Pattern

namespace Lexical

open Pattern

variable {s t : List Char}

/-! ## String and character literals -/

/-- What a string literal consists of between its quotes, any number of times. -/
def stringUnit : Pattern := .or (noneOf "\"\\\r\n") escape

theorem matches_stringLiteral : (pattern .stringLiteral).Matches t ↔
    ∃ s, t = '"' :: (s ++ ['"']) ∧ (Pattern.star stringUnit).Matches s := by
  have hparts : pattern .stringLiteral =
      .seq (word "\"") (.seq (.star stringUnit) (word "\"")) := rfl
  rw [hparts]
  simp only [matches_seq, matches_word]
  constructor
  · rintro ⟨_, _, rfl, rfl, s, _, rfl, hs, rfl⟩
    exact ⟨s, rfl, hs⟩
  · rintro ⟨s, rfl, hs⟩
    exact ⟨_, _, rfl, rfl, s, _, rfl, hs, rfl⟩

theorem matches_charLiteral : (pattern .charLiteral).Matches t ↔
    ∃ s, t = '\'' :: (s ++ ['\'']) ∧
      ((∃ c, c ∉ "'\\\r\n".toList ∧ s = [c]) ∨ escape.Matches s) := by
  have hparts : pattern .charLiteral =
      .seq (word "'") (.seq (.or (noneOf "'\\\r\n") escape) (word "'")) := rfl
  rw [hparts]
  simp only [matches_seq, matches_word, matches_or, matches_noneOf]
  constructor
  · rintro ⟨_, _, rfl, rfl, s, _, rfl, hs, rfl⟩
    exact ⟨s, rfl, hs⟩
  · rintro ⟨s, rfl, hs⟩
    exact ⟨_, _, rfl, rfl, s, _, rfl, hs, rfl⟩

/-- The escape sequences with a quote in them. -/
theorem eq_of_escape_of_quote (hs : escape.Matches s) (hquote : '"' ∈ s) :
    s = "\\\"".toList ∨ s = "\\u005c\"".toList := by
  -- The numbers have no quote.
  rcases matches_or.1 hs with hs | hs
  · obtain ⟨u, v, rfl, hu, hv⟩ := matches_seq.1 hs
    obtain ⟨c, -, rfl⟩ := matches_anyOf.1 hv
    have hbackslash : '"' ∉ u := notMem_of_excludes hu (by decide)
    obtain rfl : '"' = c := by simpa [hbackslash] using hquote
    obtain ⟨_, w, rfl, hback, hw⟩ := matches_seq.1 hu
    rw [matches_word.1 hback]
    rcases matches_or.1 hw with hw | hw
    · rw [matches_word.1 hw]
      exact .inr rfl
    · rw [matches_nothing.1 hw]
      exact .inl rfl
  · exact absurd hquote (notMem_of_excludes hs (by decide))

/-! ## Beginnings -/

/-- Some beginnings, each with the kinds of the tokens whose texts may begin so. -/
def beginnings : List (List Char × List Kind) :=
  [("\"".toList, [.stringLiteral, .textBlock]), ("\"\"\"".toList, [.textBlock]),
    ("'".toList, [.charLiteral]), ("/*".toList, [.comment]), ("//".toList, [.lineComment])] ++
  " \t\r\n\x0c".toList.map fun c => ([c], [.whitespace])

/-- The text of a token of any other kind does not begin so. -/
theorem kind_of_beginning {k : Kind} {u : List Char} {ks : List Kind} (hu : (u, ks) ∈ beginnings)
    (h : (pattern k).Matches (u ++ s)) : k ∈ ks := by
  have hall : (Kind.all.all fun k => beginnings.all fun b =>
      b.2.contains k || (b.1.foldl (fun p c => p.after c) (pattern k)).isDead) = true := by
    decide +kernel
  have hk := List.all_eq_true.1 (List.all_eq_true.1 hall k (mem_all k)) (u, ks) hu
  simpa [not_isDead_of_matches_append h] using hk

/-- Only string literals and text blocks begin with a quote. -/
theorem kind_of_quote {k : Kind} (h : (pattern k).Matches ('"' :: s)) :
    k = .stringLiteral ∨ k = .textBlock :=
  List.mem_pair.1 (kind_of_beginning (u := ['"']) (by decide) h)

/-- Only text blocks begin with three quotes, since two of them are a string literal already. -/
theorem kind_of_quotes {k : Kind} (h : (pattern k).Matches ("\"\"\"".toList ++ s)) :
    k = .textBlock := List.mem_singleton.1 (kind_of_beginning (by decide) h)

/-! ## The first lexeme -/

/-- At most one token can be cut off a text. -/
theorem IsMunch.unique {j k : Kind} {u v : List Char} (hu : IsMunch j u s) (hv : IsMunch k v s) :
    j = k ∧ u = v := by
  have hlength : u.length = v.length := by
    rcases Nat.lt_trichotomy u.length v.length with hlt | heq | hlt
    · exact absurd hv.accepted (hu.longest v hv.beginning hlt k)
    · exact heq
    · exact absurd hu.accepted (hv.longest u hu.beginning hlt j)
  obtain rfl : u = v :=
    (List.prefix_of_prefix_length_le hu.beginning hv.beginning hlength.le).eq_of_length hlength
  refine ⟨?_, rfl⟩
  rcases Nat.lt_trichotomy j.index k.index with hlt | heq | hlt
  · exact absurd hu.accepted (hv.earliest j hlt)
  · exact Kind.index_inj.1 heq
  · exact absurd hv.accepted (hu.earliest k hlt)

/-- If a token can be cut off a text, it is the first lexeme. -/
theorem Scanned.cons_of_munch {p : Position} {ls : List Lexeme} {k : Kind}
    (h : Scanned p s ls) (hmunch : IsMunch k t s) :
    ∃ ls', ls = .token ⟨k, t, p⟩ :: ls' ∧ Scanned (p.advance t) (s.drop t.length) ls' := by
  cases h with
  | nil => exact absurd (List.prefix_nil.1 hmunch.beginning) hmunch.nonempty
  | token munch next =>
    obtain ⟨rfl, rfl⟩ := munch.unique hmunch
    exact ⟨_, rfl, next⟩
  | garbage _ _ none _ =>
    exact absurd hmunch.accepted (none _ hmunch.beginning hmunch.nonempty k)

/-! ## Text blocks -/

/-- The text is the opening line of a text block: three quotes, blanks and a line break. -/
def IsOpening (o : List Char) : Prop :=
  ∃ blanks newline, o = "\"\"\"".toList ++ (blanks ++ [newline]) ∧
    (∀ c ∈ blanks, c ∈ " \t".toList) ∧ newline ∈ "\r\n".toList

theorem matches_textBlock_iff : (pattern .textBlock).Matches t ↔
    ∃ o s, t = o ++ s ∧ IsOpening o ∧ EndsFirst "\"\"\"".toList s := by
  rw [matches_textBlock]
  constructor
  · rintro ⟨blanks, newline, s, rfl, hblanks, hnewline, hs⟩
    exact ⟨_, s, by simp, ⟨blanks, newline, rfl, hblanks, hnewline⟩, hs⟩
  · rintro ⟨_, s, rfl, ⟨blanks, newline, rfl, hblanks, hnewline⟩, hs⟩
    exact ⟨blanks, newline, s, by simp, hblanks, hnewline, hs⟩

/-- A text has one opening line at most. -/
theorem IsOpening.append_inj {o o' s' : List Char} (h : IsOpening o) (h' : IsOpening o')
    (heq : o ++ s = o' ++ s') : o = o' ∧ s = s' := by
  have hspan {blanks s : List Char} {newline : Char} (hblanks : ∀ c ∈ blanks, c ∈ " \t".toList)
      (hnewline : newline ∈ "\r\n".toList) :
      (blanks ++ newline :: s).takeWhile (" \t".toList.contains ·) = blanks := by
    have hbreaks : ("\r\n".toList.all fun c => !" \t".toList.contains c) = true := by decide
    have hbreak := List.all_eq_true.1 hbreaks newline hnewline
    rw [List.takeWhile_append_of_pos (by simpa using hblanks),
      List.takeWhile_cons_of_neg (by simpa using hbreak), List.append_nil]
  obtain ⟨blanks, newline, rfl, hblanks, hnewline⟩ := h
  obtain ⟨blanks', newline', rfl, hblanks', hnewline'⟩ := h'
  simp only [List.append_assoc, List.cons_append, List.nil_append] at heq
  have hline := List.append_cancel_left heq
  obtain rfl : blanks = blanks' := by rw [← hspan hblanks hnewline, hline, hspan hblanks' hnewline']
  obtain ⟨rfl, rfl⟩ := List.cons.inj (List.append_cancel_left hline)
  exact ⟨rfl, rfl⟩

/-- No text block begins another one. -/
theorem eq_of_prefix_of_textBlock (hs : (pattern .textBlock).Matches s)
    (ht : (pattern .textBlock).Matches t) (h : s <+: t) : s = t := by
  obtain ⟨o, u, rfl, ho, hu⟩ := matches_textBlock_iff.1 hs
  obtain ⟨o', u', rfl, ho', hu'⟩ := matches_textBlock_iff.1 ht
  obtain ⟨rest, hrest⟩ := h
  rw [List.append_assoc] at hrest
  obtain ⟨rfl, rfl⟩ := ho.append_inj ho' hrest
  by_contra hne
  exact hu'.2 u (List.prefix_append u rest) (fun heq => hne (by rw [← heq])) hu.1

theorem quotes_prefix_of_textBlock (h : (pattern .textBlock).Matches t) :
    "\"\"\"".toList <+: t := by
  obtain ⟨_, s, rfl, ⟨blanks, newline, rfl, -⟩, -⟩ := matches_textBlock_iff.1 h
  rw [List.append_assoc]
  exact List.prefix_append _ _

/-- A text block is cut at its first end mark, whatever follows. -/
theorem isMunch_textBlock (h : (pattern .textBlock).Matches t) (rest : List Char) :
    IsMunch .textBlock t (t ++ rest) := by
  have hquotes := quotes_prefix_of_textBlock h
  have honly {u : List Char} {j : Kind} (hu : t <+: u) (hj : (pattern j).Matches u) :
      j = .textBlock := by
    obtain ⟨v, rfl⟩ := hquotes.trans hu
    exact kind_of_quotes hj
  refine ⟨?_, List.prefix_append t rest, h, fun u hu hlt j hj => ?_, fun j hlt hj => ?_⟩
  · rintro rfl
    exact absurd hquotes (by decide)
  · have htu : t <+: u := List.prefix_of_prefix_length_le (List.prefix_append t rest) hu hlt.le
    obtain rfl := honly htu hj
    rw [eq_of_prefix_of_textBlock h hj htu] at hlt
    exact absurd hlt (Nat.lt_irrefl _)
  · rw [honly List.prefix_rfl hj] at hlt
    exact absurd hlt (Nat.lt_irrefl _)

end Lexical

/-- The number of backslashes at the end of a text. -/
def backslashes (s : List Char) : Nat := (s.rtakeWhile (· = '\\')).length

/-- The text ends with three quotes of which the first is not escaped. -/
def EndsUnescaped (s : List Char) : Prop :=
  ∃ body, s = body ++ "\"\"\"".toList ∧ Even (backslashes body)

/-- The text ends with three quotes of which the first is not escaped, for the first time. -/
def EndsFirstUnescaped (s : List Char) : Prop :=
  EndsUnescaped s ∧ ∀ t, t <+: s → t ≠ s → ¬ EndsUnescaped t

/-- The first end mark is the first one that is not escaped exactly if it is not escaped. -/
theorem endsFirstUnescaped_iff {body : List Char}
    (h : Pattern.EndsFirst "\"\"\"".toList (body ++ "\"\"\"".toList)) :
    EndsFirstUnescaped (body ++ "\"\"\"".toList) ↔ Even (backslashes body) := by
  constructor
  · rintro ⟨⟨body', hbody, heven⟩, -⟩
    rwa [List.append_cancel_right hbody]
  · intro heven
    refine ⟨⟨body, rfl, heven⟩, ?_⟩
    rintro _ hprefix hne ⟨u, rfl, -⟩
    exact h.2 _ hprefix hne (List.suffix_append u _)

/-- **A text block ends at the first three quotes** behind its opening line, escaped or not. These
are the first ones that are not escaped exactly if there is an even number of backslashes before them.
And a source text that begins with an opening line and has three quotes behind it begins with the text
block that ends at the first of them, whatever follows. -/
theorem textBlock_ends_at_first_quotes (source : List Char) :
    (∀ t ∈ (TokenStream.ofSource source).tokens, t.kind = .textBlock →
      ∃ opening body, t.text = opening ++ (body ++ "\"\"\"".toList) ∧ Lexical.IsOpening opening ∧
        Pattern.EndsFirst "\"\"\"".toList (body ++ "\"\"\"".toList) ∧
        (EndsFirstUnescaped (body ++ "\"\"\"".toList) ↔ Even (backslashes body))) ∧
    ∀ opening body rest, Lexical.IsOpening opening →
      Pattern.EndsFirst "\"\"\"".toList (body ++ "\"\"\"".toList) →
      source = opening ++ (body ++ "\"\"\"".toList) ++ rest →
      (TokenStream.ofSource source).tokens.head? =
        some ⟨.textBlock, opening ++ (body ++ "\"\"\"".toList), .start⟩ := by
  have hscanned := TokenStream.scanned_lex source
  constructor
  · intro t ht hkind
    have hmatches := hscanned.matches_of_mem (TokenStream.mem_lex_of_mem_tokens ht)
    rw [hkind] at hmatches
    obtain ⟨opening, s, htext, hopening, hs⟩ := Lexical.matches_textBlock_iff.1 hmatches
    obtain ⟨body, rfl⟩ := hs.1
    exact ⟨opening, body, htext, hopening, hs, endsFirstUnescaped_iff hs⟩
  · rintro opening body rest hopening hbody hsource
    have hmatches := Lexical.matches_textBlock_iff.2 ⟨opening, _, rfl, hopening, hbody⟩
    have hmunch := hsource ▸ Lexical.isMunch_textBlock hmatches rest
    obtain ⟨ls, hls, -⟩ := hscanned.cons_of_munch hmunch
    rw [TokenStream.tokens_ofSource, hls]
    rfl

/-- A text block is cut at three quotes behind a backslash, though there are three more to come. -/
theorem textBlock_cut_at_escaped_quotes :
    let source := "\"\"\"\n\\\"\"\" \"\"\"".toList
    let t : Token := ⟨.textBlock, "\"\"\"\n\\\"\"\"".toList, .start⟩
    t ∈ (TokenStream.ofSource source).tokens ∧
    (TokenStream.ofSource source).tokens.head? = some t ∧
    Pattern.EndsFirst "\"\"\"".toList "\\\"\"\"".toList ∧
    ¬ EndsFirstUnescaped "\\\"\"\"".toList := by
  intro source t
  have ht : t ∈ (TokenStream.ofSource source).tokens := by decide +kernel
  have hopening : Lexical.IsOpening "\"\"\"\n".toList := ⟨[], '\n', rfl, by simp, by decide⟩
  obtain ⟨hblocks, hcut⟩ := textBlock_ends_at_first_quotes source
  obtain ⟨opening, body, htext, hopening', hfirst, hescaped⟩ := hblocks t ht rfl
  have hsplit : "\"\"\"\n".toList ++ "\\\"\"\"".toList =
      opening ++ (body ++ "\"\"\"".toList) := htext
  obtain ⟨-, hrest⟩ := hopening.append_inj hopening' hsplit
  obtain rfl : ['\\'] = body := List.append_cancel_right hrest
  refine ⟨ht, hcut _ _ " \"\"\"".toList hopening hfirst rfl, hfirst, fun h => ?_⟩
  exact absurd (hescaped.1 h) (by decide)

end JavaOutline
