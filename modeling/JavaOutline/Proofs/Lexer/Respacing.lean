import JavaOutline.Proofs.Lexer.Quotes

/-!
# Tokens with blanks between them

The visible tokens of a source text are written one after the other with a blank between any two of
them, and the text is read again. A blank ends every token but a string literal
(`Lexical.Whole.kinds_of_longer`). A string literal goes on behind its last quote if that quote may
also be part of an escape sequence and some later token has a quote to end it
(`Lexical.Whole.swallows_iff`). So the same tokens are found again exactly if no such string literal
stands before such a token (`tokens_found_again_iff`).
-/

namespace JavaOutline

namespace Lexical

open Pattern

variable {t u : Token} {ts : List Token} {s v : List Char} {k : Kind}

/-- The texts of the tokens, with a blank between any two of them. -/
def spaced (ts : List Token) : List Char := [' '].intercalate (ts.map Token.text)

@[simp] theorem spaced_nil : spaced [] = [] := rfl

@[simp] theorem spaced_singleton (t : Token) : spaced [t] = t.text := by
  simp [spaced]

@[simp] theorem spaced_cons_cons (t u : Token) (ts : List Token) :
    spaced (t :: u :: ts) = t.text ++ ' ' :: spaced (u :: ts) := by
  simp [spaced, List.intercalate_cons_cons]

theorem prefix_spaced (t : Token) (ts : List Token) : t.text <+: spaced (t :: ts) := by
  cases ts with
  | nil => exact spaced_singleton t ▸ List.prefix_rfl
  | cons u ts => exact spaced_cons_cons t u ts ▸ List.prefix_append _ _

/-! ## A token and a blank -/

/-- The token is one that the parser sees, and it is cut off its own text. -/
structure Whole (t : Token) : Prop where
  visible : t.kind.isHidden = false
  munch : IsMunch t.kind t.text t.text

theorem IsMunch.alone (h : IsMunch k s v) : IsMunch k s s where
  nonempty := h.nonempty
  beginning := List.prefix_rfl
  accepted := h.accepted
  longest _ hu hlt := absurd hu.length_le (Nat.not_le.2 hlt)
  earliest := h.earliest

/-- A token that is cut from a text is cut off some text. -/
theorem Scanned.munch_of_mem {p : Position} {ls : List Lexeme} (h : Scanned p s ls)
    (ht : .token t ∈ ls) : ∃ v, IsMunch t.kind t.text v := by
  induction h with
  | nil => cases ht
  | token munch _ ih =>
    rcases List.mem_cons.1 ht with ht | ht
    · cases ht
      exact ⟨_, munch⟩
    · exact ih ht
  | garbage _ _ _ _ ih =>
    rcases List.mem_cons.1 ht with ht | ht
    · cases ht
    · exact ih ht

/-- The kinds whose texts may have a blank in them, or one of the characters that do not stand for
themselves in a string literal. -/
def roomyKinds : List Kind :=
  [.charLiteral, .stringLiteral, .textBlock, .whitespace, .comment, .lineComment]

theorem kind_of_mem {c : Char} (hc : c ∈ " \"\\\r\n".toList) (h : (pattern k).Matches s)
    (hs : c ∈ s) : k ∈ roomyKinds := by
  have hall : (Kind.all.all fun k => " \"\\\r\n".toList.all fun c =>
      roomyKinds.contains k || (pattern k).excludes c) = true := by
    decide +kernel
  have hk := List.all_eq_true.1 (List.all_eq_true.1 hall k (mem_all k)) c hc
  have hin : ¬ (pattern k).excludes c = true := fun hout => notMem_of_excludes h hout hs
  simpa [hin] using hk

/-- A text begins before a blank and ends there, or it goes on behind the blank. -/
theorem prefix_append_blank_iff {w : List Char} :
    w <+: s ++ ' ' :: v ↔ w <+: s ∨ ∃ x, w = s ++ ' ' :: x ∧ x <+: v := by
  constructor
  · intro h
    rcases List.prefix_or_prefix_of_prefix h (List.prefix_append s (' ' :: v)) with hs | ⟨x, rfl⟩
    · exact .inl hs
    · rw [List.prefix_append_right_inj] at h
      cases x with
      | nil => simp
      | cons c x =>
        obtain ⟨rfl, hx⟩ := List.cons_prefix_cons.1 h
        exact .inr ⟨x, rfl, hx⟩
  · rintro (h | ⟨x, rfl, hx⟩)
    · exact h.trans (List.prefix_append _ _)
    · rw [List.prefix_append_right_inj]
      exact List.cons_prefix_cons.2 ⟨rfl, hx⟩

theorem Whole.first_notMem_blanks (h : Whole t) {c : Char} (ht : t.text = c :: s) :
    c ∉ " \t\r\n\x0c".toList := by
  intro hc
  have hbegins : ([c], [Kind.whitespace]) ∈ beginnings :=
    List.mem_append_right _ (List.mem_map_of_mem hc)
  have hkind := kind_of_beginning (s := s) hbegins (ht ▸ h.munch.accepted)
  have hvisible := h.visible
  rw [List.mem_singleton.1 hkind] at hvisible
  cases hvisible

/-- How a text begins that goes on behind a token and a blank tells the kind of the token. -/
theorem Whole.kind_of_longer (h : Whole t) {w : List Char} {ks : List Kind}
    (hw : w <+: t.text ++ ' ' :: v) (hblank : ' ' ∉ w) (hbegins : (w, ks) ∈ beginnings) :
    t.kind ∈ ks := by
  rcases prefix_append_blank_iff.1 hw with ⟨rest, hrest⟩ | ⟨x, rfl, -⟩
  · exact kind_of_beginning hbegins (hrest ▸ h.munch.accepted)
  · exact absurd (by simp) hblank

/-- A character literal has no blank behind its last mark. -/
theorem not_matches_charLiteral_append_blank (hs : (pattern .charLiteral).Matches s) :
    ¬ (pattern .charLiteral).Matches (s ++ ' ' :: v) := by
  intro hlonger
  obtain ⟨body, rfl, -⟩ := matches_charLiteral.1 hs
  obtain ⟨body', heq, hbody'⟩ := matches_charLiteral.1 hlonger
  have hparts : body ++ '\'' :: ' ' :: v = body' ++ ['\''] := by simpa using heq
  have hblank : ' ' ∈ body' := by
    have hmem : ' ' ∈ body' ++ ['\''] := by simp [← hparts]
    simpa using hmem
  rcases hbody' with ⟨c, -, rfl⟩ | hescape
  · obtain rfl : ' ' = c := by simpa using hblank
    cases body with
    | nil => simp at hparts
    | cons d body =>
      have hlength := congrArg List.length hparts
      simp only [List.length_append, List.length_cons, List.length_nil] at hlength
      omega
  · exact notMem_of_excludes hescape (by decide) hblank

/-- **A blank ends every token** but a string literal, and it is a string literal that goes on. -/
theorem Whole.kinds_of_longer (h : Whole t) (hlonger : (pattern k).Matches (t.text ++ ' ' :: v)) :
    t.kind = .stringLiteral ∧ k = .stringLiteral := by
  have haccepted := h.munch.accepted
  have hvisible := h.visible
  have hk := kind_of_mem (by decide) hlonger (by simp : ' ' ∈ t.text ++ ' ' :: v)
  simp only [roomyKinds, List.mem_cons, List.not_mem_nil, or_false] at hk
  -- The longer text is a character literal, a string literal, a text block, blanks or a comment.
  rcases hk with rfl | rfl | rfl | rfl | rfl | rfl
  · obtain ⟨body, hbody, -⟩ := matches_charLiteral.1 hlonger
    have hkind : t.kind ∈ [Kind.charLiteral] :=
      h.kind_of_longer (w := "'".toList) (v := v) (hbody ▸ ⟨_, rfl⟩) (by decide) (by decide)
    rw [List.mem_singleton.1 hkind] at haccepted
    exact absurd hlonger (not_matches_charLiteral_append_blank haccepted)
  · obtain ⟨body, hbody, -⟩ := matches_stringLiteral.1 hlonger
    have hkind : t.kind ∈ [Kind.stringLiteral, .textBlock] :=
      h.kind_of_longer (w := "\"".toList) (v := v) (hbody ▸ ⟨_, rfl⟩) (by decide) (by decide)
    rcases List.mem_pair.1 hkind with hkind | hkind
    · exact ⟨hkind, rfl⟩
    · -- A text that begins with a text block is no string literal.
      rw [hkind] at haccepted
      obtain ⟨rest, hrest⟩ := quotes_prefix_of_textBlock haccepted
      rw [← hrest, List.append_assoc] at hlonger
      cases kind_of_quotes hlonger
  · have hkind : t.kind ∈ [Kind.textBlock] :=
      h.kind_of_longer (v := v) (quotes_prefix_of_textBlock hlonger) (by decide) (by decide)
    rw [List.mem_singleton.1 hkind] at haccepted
    have heq := eq_of_prefix_of_textBlock haccepted hlonger (List.prefix_append _ _)
    simp at heq
  · obtain ⟨c, rest, htext⟩ := List.exists_cons_of_ne_nil h.munch.nonempty
    obtain ⟨_, _, hparts, hfirst, -⟩ := matches_seq.1 hlonger
    obtain ⟨d, hd, rfl⟩ := matches_anyOf.1 hfirst
    rw [htext] at hparts
    obtain rfl : c = d := (List.cons.inj hparts).1
    exact absurd hd (h.first_notMem_blanks htext)
  · obtain ⟨body, hbody, -⟩ := matches_comment.1 hlonger
    have hkind : t.kind ∈ [Kind.comment] :=
      h.kind_of_longer (w := "/*".toList) (v := v) (hbody ▸ ⟨_, rfl⟩) (by decide) (by decide)
    rw [List.mem_singleton.1 hkind] at hvisible
    cases hvisible
  · obtain ⟨_, _, hparts, hopen, -⟩ := matches_seq.1 hlonger
    rw [matches_word.1 hopen] at hparts
    have hkind : t.kind ∈ [Kind.lineComment] :=
      h.kind_of_longer (w := "//".toList) (v := v) (hparts ▸ ⟨_, rfl⟩) (by decide) (by decide)
    rw [List.mem_singleton.1 hkind] at hvisible
    cases hvisible

/-! ## Ending a string literal -/

theorem eq_blank_of_stringUnit (h : stringUnit.Matches s) (hs : ' ' ∈ s) : s = [' '] := by
  rcases matches_or.1 h with h | h
  · obtain ⟨c, -, rfl⟩ := matches_noneOf.1 h
    rw [List.mem_singleton.1 hs]
  · exact absurd hs (notMem_of_excludes h (by decide))

/-- What may stand inside of a string literal may do so on both sides of a blank. -/
theorem units_append_blank : (Pattern.star stringUnit).Matches (s ++ ' ' :: v) ↔
    (Pattern.star stringUnit).Matches s ∧ (Pattern.star stringUnit).Matches v := by
  constructor
  · exact matches_star_split fun _ => eq_blank_of_stringUnit
  · rintro ⟨hs, hv⟩
    have hblank : stringUnit.Matches [' '] := .orLeft (matches_noneOf.2 ⟨' ', by decide, rfl⟩)
    exact matches_star_append hs (.starCons hblank hv)

/-- A string literal that is open before the text can end in it. -/
def EndsIn (s : List Char) : Prop :=
  ∃ inside, (Pattern.star stringUnit).Matches inside ∧ inside ++ ['"'] <+: s

theorem not_endsIn_nil : ¬ EndsIn [] := by
  rintro ⟨inside, -, hquote⟩
  simp at hquote

/-- A quote stands before a blank or behind it. -/
theorem concat_quote_prefix_iff {x : List Char} : x ++ ['"'] <+: s ++ ' ' :: v ↔
    x ++ ['"'] <+: s ∨ ∃ y, x = s ++ ' ' :: y ∧ y ++ ['"'] <+: v := by
  rw [prefix_append_blank_iff]
  refine or_congr_right ⟨?_, ?_⟩
  · rintro ⟨z, hz, hv⟩
    rcases List.eq_nil_or_concat z with rfl | ⟨y, d, rfl⟩
    · simpa using (List.append_inj' hz rfl).2
    · have hlast : x ++ ['"'] = (s ++ ' ' :: y) ++ [d] := by simpa using hz
      obtain ⟨rfl, hd⟩ := List.append_inj' hlast rfl
      rw [List.concat_eq_append, ← hd] at hv
      exact ⟨y, rfl, hv⟩
  · rintro ⟨y, rfl, hy⟩
    exact ⟨_, by simp, hy⟩

theorem endsIn_append_blank :
    EndsIn (s ++ ' ' :: v) ↔ EndsIn s ∨ (Pattern.star stringUnit).Matches s ∧ EndsIn v := by
  constructor
  · rintro ⟨inside, hinside, hquote⟩
    rcases concat_quote_prefix_iff.1 hquote with hs | ⟨y, rfl, hy⟩
    · exact .inl ⟨inside, hinside, hs⟩
    · obtain ⟨hs, hinside⟩ := units_append_blank.1 hinside
      exact .inr ⟨hs, y, hinside, hy⟩
  · rintro (⟨inside, hinside, hs⟩ | ⟨hs, inside, hinside, hv⟩)
    · exact ⟨inside, hinside, concat_quote_prefix_iff.2 (.inl hs)⟩
    · refine ⟨_, units_append_blank.2 ⟨hs, hinside⟩, ?_⟩
      exact concat_quote_prefix_iff.2 (.inr ⟨inside, rfl, hv⟩)

/-- Has the token a quote that can end a string literal? The quote of an escape sequence can only if
what is before it is an escape sequence by itself. -/
def holdsQuote (t : Token) : Bool :=
  t.kind = .stringLiteral || t.kind = .textBlock || t.text = "'\"'".toList ||
    t.text = "'\\u005c\"'".toList

/-- A token without such a quote may stand inside of a string literal. -/
theorem Whole.matches_units (h : Whole u) (hquote : holdsQuote u = false) :
    (Pattern.star stringUnit).Matches u.text := by
  have hplain {c : Char} (hc : c ∉ "\"\\\r\n".toList) : stringUnit.Matches [c] :=
    .orLeft (matches_noneOf.2 ⟨c, hc, rfl⟩)
  simp only [holdsQuote, Bool.or_eq_false_iff, decide_eq_false_iff_not] at hquote
  obtain ⟨⟨⟨hstring, hblock⟩, hchar⟩, -⟩ := hquote
  by_cases hkind : u.kind = .charLiteral
  · obtain ⟨body, htext, hbody⟩ := matches_charLiteral.1 (hkind ▸ h.munch.accepted)
    have hmark : stringUnit.Matches ['\''] := hplain (by decide)
    have hunit : stringUnit.Matches body := by
      rcases hbody with ⟨c, hc, rfl⟩ | hescape
      · refine hplain fun hspecial => ?_
        rcases List.mem_cons.1 hspecial with rfl | hspecial
        · exact hchar htext
        · exact hc (List.mem_cons_of_mem '\'' hspecial)
      · exact .orRight hescape
    rw [htext]
    exact .starCons hmark (.starCons hunit (matches_star_of_matches hmark))
  · refine matches_star_of_forall fun c hc => hplain fun hspecial => ?_
    have hk := kind_of_mem (List.mem_cons_of_mem ' ' hspecial) h.munch.accepted hc
    have hvisible := h.visible
    simp only [roomyKinds, List.mem_cons, List.not_mem_nil, or_false, hkind, hstring, hblock, false_or] at hk
    rcases hk with hk | hk | hk <;> simp [hk, Kind.isHidden] at hvisible

/-- The quote in a character literal with an escape sequence can end a string literal only if what is
before the quote is an escape sequence by itself. -/
theorem eq_of_endsIn_escape (hs : escape.Matches s) (hends : EndsIn ('\'' :: (s ++ ['\'']))) :
    s = "\\u005c\"".toList := by
  obtain ⟨inside, hinside, rest, hquote⟩ := hends
  rw [List.append_assoc] at hquote
  have hmem : '"' ∈ s := by
    have hmem : '"' ∈ '\'' :: (s ++ ['\'']) := by simp [← hquote]
    simpa using hmem
  rcases eq_of_escape_of_quote hs hmem with rfl | rfl
  · have hsplit : ['\'', '\\'] ++ '"' :: ['\''] = inside ++ '"' :: rest := hquote.symm
    obtain ⟨rfl, -, -⟩ := (List.append_cons_inj_of_notMem (by decide) (by decide)).1 hsplit
    exact absurd (matches_iff_isNullable.1 hinside) (by decide)
  · rfl

theorem Whole.endsIn_iff (h : Whole u) : EndsIn u.text ↔ holdsQuote u = true := by
  have haccepted := h.munch.accepted
  simp only [holdsQuote, Bool.or_eq_true, decide_eq_true_eq]
  constructor
  · intro hends
    by_contra hquote
    simp only [not_or] at hquote
    obtain ⟨⟨⟨hstring, hblock⟩, hchar⟩, hescaped⟩ := hquote
    have hmem : '"' ∈ u.text := by
      obtain ⟨inside, -, hprefix⟩ := hends
      exact hprefix.subset (by simp)
    have hk := kind_of_mem (by decide) haccepted hmem
    have hvisible := h.visible
    simp only [roomyKinds, List.mem_cons, List.not_mem_nil, or_false, hstring, hblock, false_or] at hk
    rcases hk with hk | hk | hk | hk
    · obtain ⟨body, htext, ⟨c, -, rfl⟩ | hescape⟩ := matches_charLiteral.1 (hk ▸ haccepted)
      · rw [htext] at hmem
        obtain rfl : '"' = c := by simpa using hmem
        exact hchar htext
      · rw [eq_of_endsIn_escape hescape (htext ▸ hends)] at htext
        exact hescaped htext
    all_goals simp [hk, Kind.isHidden] at hvisible
  · rintro (((hkind | hkind) | htext) | htext)
    · obtain ⟨body, htext, -⟩ := matches_stringLiteral.1 (hkind ▸ haccepted)
      exact ⟨[], .starNil, _, htext.symm⟩
    · obtain ⟨rest, htext⟩ := quotes_prefix_of_textBlock (hkind ▸ haccepted)
      exact ⟨[], .starNil, _, htext⟩
    · exact ⟨"'".toList, matches_iff_isNullable.2 (by decide), _, htext.symm⟩
    · exact ⟨"'\\u005c".toList, matches_iff_isNullable.2 (by decide), _, htext.symm⟩

/-- A string literal can end in tokens exactly if one of them has a quote for it. -/
theorem endsIn_spaced_iff (hts : ∀ t ∈ ts, Whole t) :
    EndsIn (spaced ts) ↔ ∃ u ∈ ts, holdsQuote u = true := by
  induction ts with
  | nil => simp [not_endsIn_nil]
  | cons t ts ih =>
    obtain ⟨ht, hts⟩ := List.forall_mem_cons.1 hts
    have hcons : (∃ u ∈ t :: ts, holdsQuote u = true) ↔
        EndsIn t.text ∨ EndsIn (spaced ts) := by
      rw [ih hts, ht.endsIn_iff]
      simp
    rw [hcons]
    cases ts with
    | nil => simp [not_endsIn_nil]
    | cons u ts =>
      rw [spaced_cons_cons, endsIn_append_blank]
      constructor
      · rintro (hnow | ⟨-, hlater⟩)
        · exact .inl hnow
        · exact .inr hlater
      · rintro (hnow | hlater)
        · exact .inl hnow
        · cases hquote : holdsQuote t with
          | true => exact .inl (ht.endsIn_iff.2 hquote)
          | false => exact .inr ⟨ht.matches_units hquote, hlater⟩

/-! ## String literals that go on -/

/-- What a string literal is before its last quote. -/
def openString : Pattern := .seq (word "\"") (.star stringUnit)

theorem matches_openString : openString.Matches s ↔
    ∃ body, s = '"' :: body ∧ (Pattern.star stringUnit).Matches body := by
  rw [openString, matches_seq]
  simp only [matches_word]
  constructor
  · rintro ⟨_, body, rfl, rfl, hbody⟩
    exact ⟨body, rfl, hbody⟩
  · rintro ⟨body, rfl, hbody⟩
    exact ⟨_, body, rfl, rfl, hbody⟩

/-- The token is a string literal that may go on: its last quote may be part of an escape sequence. -/
def MayGoOn (t : Token) : Prop := t.kind = .stringLiteral ∧ openString.Matches t.text

/-- Before the other tokens a string literal begins where the token does, and goes on behind it. -/
def Swallows (t : Token) (ts : List Token) : Prop :=
  ∃ w, w <+: spaced (t :: ts) ∧ t.text.length < w.length ∧ (pattern .stringLiteral).Matches w

/-- What goes on behind a token goes on behind a blank. -/
theorem eq_append_blank_of_longer {w : List Char} (hw : w <+: spaced (t :: ts))
    (hlt : t.text.length < w.length) : ∃ v, w = t.text ++ ' ' :: v ∧ v <+: spaced ts := by
  cases ts with
  | nil =>
    rw [spaced_singleton] at hw
    exact absurd hw.length_le (Nat.not_le.2 hlt)
  | cons u ts =>
    rw [spaced_cons_cons] at hw
    rcases prefix_append_blank_iff.1 hw with hshort | hlonger
    · exact absurd hshort.length_le (Nat.not_le.2 hlt)
    · exact hlonger

/-- A token goes on exactly if it may and there is an end for it. -/
theorem Whole.swallows_iff (h : Whole t) : Swallows t ts ↔ MayGoOn t ∧ EndsIn (spaced ts) := by
  constructor
  · rintro ⟨_, hw, hlt, hmatches⟩
    obtain ⟨v, rfl, hv⟩ := eq_append_blank_of_longer hw hlt
    obtain ⟨hkind, -⟩ := h.kinds_of_longer hmatches
    obtain ⟨body, htext, -⟩ := matches_stringLiteral.1 (hkind ▸ h.munch.accepted)
    obtain ⟨inside, hparts, hinside⟩ := matches_stringLiteral.1 hmatches
    rw [htext, List.cons_append, List.cons.injEq] at hparts
    have hend : inside ++ ['"'] <+: body ++ ['"'] ++ ' ' :: v := hparts.2 ▸ List.prefix_rfl
    rcases concat_quote_prefix_iff.1 hend with hshort | ⟨y, rfl, hy⟩
    · have hle := hshort.length_le
      rw [← hparts.2] at hle
      simp at hle
    · obtain ⟨hopen, hy'⟩ := units_append_blank.1 hinside
      exact ⟨⟨hkind, matches_openString.2 ⟨_, htext, hopen⟩⟩, y, hy', hy.trans hv⟩
  · rintro ⟨⟨-, hopen⟩, inside, hinside, hquote⟩
    obtain ⟨body, htext, hbody⟩ := matches_openString.1 hopen
    cases ts with
    | nil => simp at hquote
    | cons u ts =>
      refine ⟨t.text ++ ' ' :: (inside ++ ['"']), ?_, by simp, ?_⟩
      · rw [spaced_cons_cons, List.prefix_append_right_inj]
        exact List.cons_prefix_cons.2 ⟨rfl, hquote⟩
      · refine matches_stringLiteral.2 ⟨body ++ ' ' :: inside, by simp [htext], ?_⟩
        exact units_append_blank.2 ⟨hbody, hinside⟩

/-- A token is found again before the other ones exactly if it does not go on. -/
theorem Whole.isMunch_spaced_iff (h : Whole t) :
    IsMunch t.kind t.text (spaced (t :: ts)) ↔ ¬ Swallows t ts := by
  constructor
  · rintro hmunch ⟨w, hw, hlt, hmatches⟩
    exact hmunch.longest w hw hlt _ hmatches
  · intro hno
    refine ⟨h.munch.nonempty, prefix_spaced t ts, h.munch.accepted, fun w hw hlt j hj => ?_,
      h.munch.earliest⟩
    obtain ⟨v, rfl, -⟩ := eq_append_blank_of_longer hw hlt
    obtain ⟨-, rfl⟩ := h.kinds_of_longer hj
    exact hno ⟨_, hw, hlt, hj⟩

/-- A single blank is found before a character that is none. -/
theorem isMunch_blank {c : Char} (hc : c ∉ " \t\r\n\x0c".toList) :
    IsMunch .whitespace [' '] (' ' :: c :: s) := by
  have honly {j : Kind} {w : List Char} (hj : (pattern j).Matches (' ' :: w)) : j = .whitespace :=
    List.mem_singleton.1 (kind_of_beginning (u := [' ']) (by decide) hj)
  refine ⟨by simp, ⟨c :: s, rfl⟩, matches_iff_isNullable.2 (by decide), fun w hw hlt j hj => ?_,
    fun j hlt hj => ?_⟩
  · obtain ⟨v, rfl⟩ := List.prefix_of_prefix_length_le ⟨c :: s, rfl⟩ hw hlt.le
    obtain rfl := honly hj
    obtain ⟨_, blanks, hparts, hfirst, hblanks⟩ := matches_seq.1 hj
    obtain ⟨d, -, rfl⟩ := matches_anyOf.1 hfirst
    obtain rfl : v = blanks := (List.cons.inj hparts).2
    cases v with
    | nil => simp at hlt
    | cons d v =>
      obtain ⟨rfl, -⟩ := List.cons_prefix_cons.1 (List.cons_prefix_cons.1 hw).2
      exact hc (matches_star_anyOf.1 hblanks _ List.mem_cons_self)
  · rw [honly hj] at hlt
    exact absurd hlt (Nat.lt_irrefl _)

/-! ## Reading again -/

/-- The kind and the text of a lexeme that is a visible token. -/
def Lexeme.seen? : Lexeme → Option (Kind × List Char)
  | .token t => if t.kind.isHidden then none else some (t.kind, t.text)
  | .garbage _ _ => none

/-- The lexemes are tokens, and the visible ones have the kinds and texts of the given tokens. -/
def Again (ls : List Lexeme) (ts : List Token) : Prop :=
  (∀ l ∈ ls, l.garbage? = none) ∧ ls.filterMap Lexeme.seen? = ts.map fun t => (t.kind, t.text)

/-- Tokens that have been found again may be left out. -/
theorem again_cons_iff {ls : List Lexeme} {p : Position} (h : t.kind.isHidden = false) :
    Again (.token ⟨t.kind, t.text, p⟩ :: ls) (t :: ts) ↔ Again ls ts := by
  simp [Again, Lexeme.seen?, Lexeme.garbage?, h]

theorem again_blank_iff {ls : List Lexeme} {p : Position} :
    Again (.token ⟨.whitespace, s, p⟩ :: ls) ts ↔ Again ls ts := by
  simp [Again, Lexeme.seen?, Lexeme.garbage?, Kind.isHidden]

/-- A token that goes on is not found again. -/
theorem not_again_of_swallows {p : Position} {ls : List Lexeme}
    (hls : Scanned p (spaced (t :: ts)) ls) (hswallows : Swallows t ts) : ¬ Again ls (t :: ts) := by
  rintro ⟨hclean, hseen⟩
  obtain ⟨w, hw, hlt, hmatches⟩ := hswallows
  generalize spaced (t :: ts) = s at hls hw
  cases hls with
  | nil => simp at hseen
  | garbage => simpa [Lexeme.garbage?] using hclean _ List.mem_cons_self
  | @token _ k text _ ls munch next =>
    -- The token that is found is at least as long as the string literal, and not hidden.
    have hle : w.length ≤ text.length := by
      by_contra hlt
      exact munch.longest w hw (Nat.not_le.1 hlt) _ hmatches
    obtain ⟨v, rfl⟩ := List.prefix_of_prefix_length_le hw munch.beginning hle
    obtain ⟨inside, rfl, -⟩ := matches_stringLiteral.1 hmatches
    have hvisible : k.isHidden = false := by
      rcases kind_of_quote munch.accepted with rfl | rfl <;> rfl
    have hfirst {text : List Char} : (Lexeme.token ⟨k, text, p⟩).seen? = some (k, text) := by
      simp [Lexeme.seen?, hvisible]
    rw [List.filterMap_cons_some hfirst, List.map_cons, List.cons.injEq, Prod.mk.injEq] at hseen
    rw [← hseen.1.2] at hlt
    simp at hlt

/-- There are no lexemes in an empty text. -/
theorem Scanned.eq_nil {p : Position} {ls : List Lexeme} (h : Scanned p [] ls) : ls = [] := by
  cases h with
  | nil => rfl
  | token munch => exact absurd (List.prefix_nil.1 munch.beginning) munch.nonempty
  | garbage nonempty beginning => exact absurd (List.prefix_nil.1 beginning) nonempty

/-- **Tokens are found again** exactly if none goes on over another one. -/
theorem Scanned.again_iff (hts : ∀ t ∈ ts, Whole t) {p : Position} {ls : List Lexeme}
    (h : Scanned p (spaced ts) ls) :
    Again ls ts ↔ ts.Pairwise fun t u => ¬ (MayGoOn t ∧ holdsQuote u = true) := by
  induction ts generalizing p ls with
  | nil =>
    obtain rfl : ls = [] := h.eq_nil
    exact iff_of_true ⟨nofun, rfl⟩ .nil
  | cons t ts ih =>
    obtain ⟨ht, hts⟩ := List.forall_mem_cons.1 hts
    have hswallows : Swallows t ts ↔ ∃ u ∈ ts, MayGoOn t ∧ holdsQuote u = true := by
      rw [ht.swallows_iff, endsIn_spaced_iff hts]
      grind
    rw [List.pairwise_cons]
    by_cases hgoes : Swallows t ts
    · refine iff_of_false (not_again_of_swallows h hgoes) fun hno => ?_
      obtain ⟨u, hu, hboth⟩ := hswallows.1 hgoes
      exact hno.1 u hu hboth
    · have hfirst : ∀ u ∈ ts, ¬ (MayGoOn t ∧ holdsQuote u = true) := fun u hu hboth =>
        hgoes (hswallows.2 ⟨u, hu, hboth⟩)
      obtain ⟨ls', rfl, hls'⟩ := h.cons_of_munch (ht.isMunch_spaced_iff.2 hgoes)
      rw [and_iff_right hfirst, again_cons_iff ht.visible]
      cases ts with
      | nil =>
        rw [spaced_singleton, List.drop_length] at hls'
        exact ih hts hls'
      | cons u ts =>
        have hu : Whole u := hts u List.mem_cons_self
        obtain ⟨c, rest, htext⟩ := List.exists_cons_of_ne_nil hu.munch.nonempty
        obtain ⟨others, hothers⟩ := prefix_spaced u ts
        rw [htext, List.cons_append] at hothers
        rw [spaced_cons_cons, List.drop_left] at hls'
        have hblank := isMunch_blank (s := rest ++ others) (hu.first_notMem_blanks htext)
        rw [hothers] at hblank
        obtain ⟨ls', rfl, hnext⟩ := hls'.cons_of_munch hblank
        rw [again_blank_iff]
        exact ih hts hnext

end Lexical

namespace TokenStream

open Lexical

variable {source : List Char}

/-- The visible tokens of a source text are cut off their own texts. -/
theorem whole_of_mem_visible {t : Token} (h : t ∈ (ofSource source).visible.toList) : Whole t := by
  simp only [visible, List.mem_filter, Bool.not_eq_true'] at h
  obtain ⟨s, hmunch⟩ := (scanned_lex source).munch_of_mem (mem_lex_of_mem_tokens h.1)
  exact ⟨h.2, hmunch.alone⟩

/-- There are no messages exactly if all lexemes are tokens. -/
theorem messages_eq_nil_iff :
    (ofSource source).messages = [] ↔ ∀ l ∈ lex source, l.garbage? = none := by
  rw [ofSource, messages_ofLexemes, List.filterMap_eq_nil_iff]
  refine forall₂_congr fun l _ => ?_
  cases l <;> simp [Lexeme.garbage?]

theorem map_visible_eq_filterMap :
    (ofSource source).visible.toList.map (fun t => (t.kind, t.text)) =
      (lex source).filterMap Lexeme.seen? := by
  rw [visible, tokens_ofSource, List.filter_filterMap, List.map_filterMap]
  refine List.filterMap_congr fun l _ => ?_
  cases l with
  | token t => cases hhidden : t.kind.isHidden <;> simp [Lexeme.seen?, Lexeme.token?, hhidden]
  | garbage => rfl

end TokenStream

/-- **Tokens with blanks between them are found again**, without a message and with the same kinds
and texts, exactly if there is no string literal whose last quote may be part of an escape sequence
before a token with a quote that can end it. -/
theorem tokens_found_again_iff (source : List Char) :
    let ts := (TokenStream.ofSource source).visible.toList
    let T := TokenStream.ofSource (Lexical.spaced ts)
    (T.messages = [] ∧
      T.visible.toList.map (fun t => (t.kind, t.text)) = ts.map fun t => (t.kind, t.text)) ↔
    ts.Pairwise fun t u => ¬ (Lexical.MayGoOn t ∧ Lexical.holdsQuote u = true) := by
  intro ts T
  rw [TokenStream.messages_eq_nil_iff, TokenStream.map_visible_eq_filterMap]
  exact (TokenStream.scanned_lex _).again_iff fun t => TokenStream.whole_of_mem_visible

/-- Two string literals on two lines are not found again on one line: the first one goes on up to the
first quote of the second one, and the last quote begins no token. -/
theorem strings_not_found_again :
    let ts := (TokenStream.ofSource "\"\\u005c\"\n\"x\"".toList).visible.toList
    let T := TokenStream.ofSource (Lexical.spaced ts)
    Lexical.spaced ts = "\"\\u005c\" \"x\"".toList ∧
    ¬ (T.messages = [] ∧
      T.visible.toList.map (fun t => (t.kind, t.text)) = ts.map fun t => (t.kind, t.text)) := by
  decide +kernel

end JavaOutline
