import JavaOutline.Proofs.Lexer.Tiling

/-!
# Line breaks in tokens

A token that the parser sees has a line break in its text exactly if it is a text block
(`TokenStream.hasLineBreak_of_mem_visible`). That the other kinds have none can be read off their
patterns (`Pattern.isOneLine`); a text block has one behind its opening mark.
-/

namespace JavaOutline

/-- Does a line end with this character? -/
def isLineBreak (c : Char) : Bool := c = '\n' || c = '\r'

/-- The text has a line feed or a carriage return in it. -/
def HasLineBreak (s : List Char) : Prop := ∃ c ∈ s, isLineBreak c = true

instance (s : List Char) : Decidable (HasLineBreak s) :=
  decidable_of_iff (s.any isLineBreak = true) List.any_eq_true

@[simp] theorem not_hasLineBreak_nil : ¬ HasLineBreak [] := by
  rintro ⟨c, hc, -⟩
  cases hc

@[simp] theorem hasLineBreak_append {s t : List Char} :
    HasLineBreak (s ++ t) ↔ HasLineBreak s ∨ HasLineBreak t := by
  simp only [HasLineBreak, List.mem_append, or_and_right, exists_or]

@[simp] theorem hasLineBreak_cons {c : Char} {s : List Char} :
    HasLineBreak (c :: s) ↔ isLineBreak c = true ∨ HasLineBreak s := by
  simp only [HasLineBreak, List.mem_cons, or_and_right, exists_or, exists_eq_left]

theorem not_hasLineBreak_iff {s : List Char} :
    ¬ HasLineBreak s ↔ ∀ c ∈ s, isLineBreak c = false := by
  simp only [HasLineBreak, not_exists, not_and, Bool.not_eq_true]

namespace Pattern

/-- Does the pattern itself rule out line breaks? -/
def isOneLine : Pattern → Bool
  | .never | .nothing => true
  | .char accepts => !accepts '\n' && !accepts '\r'
  | .seq p q | .or p q => p.isOneLine && q.isOneLine
  | .star p => p.isOneLine
  | .through _ _ => false

theorem not_hasLineBreak_of_matches {p : Pattern} {s : List Char} (hs : p.Matches s)
    (h : p.isOneLine = true) : ¬ HasLineBreak s := by
  induction hs with
  | nothing | starNil => exact not_hasLineBreak_nil
  | @char accepts c hc =>
    rintro ⟨d, hd, hbreak⟩
    obtain rfl : d = c := List.mem_singleton.1 hd
    simp only [isOneLine, Bool.and_eq_true, Bool.not_eq_true'] at h
    simp only [isLineBreak, Bool.or_eq_true, decide_eq_true_eq] at hbreak
    rcases hbreak with rfl | rfl <;> simp_all
  | seq _ _ hp hq =>
    obtain ⟨hleft, hright⟩ := (Bool.and_eq_true _ _).mp h
    exact fun hbreak => (hasLineBreak_append.1 hbreak).elim (hp hleft) (hq hright)
  | orLeft _ hp => exact hp ((Bool.and_eq_true _ _).mp h).1
  | orRight _ hq => exact hq ((Bool.and_eq_true _ _).mp h).2
  | starCons _ _ hp hq => exact fun hbreak => (hasLineBreak_append.1 hbreak).elim (hp h) (hq h)
  | through => cases h

end Pattern

namespace Lexical

/-- Apart from blanks and comments, only text blocks may go on over several lines. -/
theorem isOneLine_pattern (k : Kind) (hhidden : k.isHidden = false) (hblock : k ≠ .textBlock) :
    (pattern k).isOneLine = true := by
  have hall : (Kind.all.all fun k =>
      k.isHidden || k = .textBlock || (pattern k).isOneLine) = true := by decide +kernel
  have hk := List.all_eq_true.1 hall k (mem_all k)
  simpa [hhidden, hblock] using hk

/-- A text block has a line break behind its opening mark. -/
theorem hasLineBreak_of_matches_textBlock {s : List Char} (h : (pattern .textBlock).Matches s) :
    HasLineBreak s := by
  obtain ⟨blanks, newline, rest, rfl, -, hnewline, -⟩ := matches_textBlock.1 h
  have hbreaks : "\r\n".toList.all isLineBreak = true := by decide
  exact ⟨newline, by simp, List.all_eq_true.1 hbreaks newline hnewline⟩

/-- A token that is cut from a text matches the pattern of its kind. -/
theorem Scanned.matches_of_mem {p : Position} {s : List Char} {ls : List Lexeme}
    (h : Scanned p s ls) {t : Token} (ht : .token t ∈ ls) : (pattern t.kind).Matches t.text := by
  induction h with
  | nil => cases ht
  | token munch _ ih =>
    rcases List.mem_cons.1 ht with ht | ht
    · cases ht
      exact munch.accepted
    · exact ih ht
  | garbage _ _ _ _ ih =>
    rcases List.mem_cons.1 ht with ht | ht
    · cases ht
    · exact ih ht

end Lexical

namespace TokenStream

open Lexical

variable {source : List Char}

/-- Of the tokens that the parser sees, the text blocks are those with a line break. -/
theorem hasLineBreak_of_mem_visible {t : Token} (h : t ∈ (ofSource source).visible) :
    HasLineBreak t.text ↔ t.kind = .textBlock := by
  simp only [visible, List.mem_toArray, List.mem_filter, Bool.not_eq_true'] at h
  have hmatches : (pattern t.kind).Matches t.text :=
    (scanned_lex source).matches_of_mem (mem_lex_of_mem_tokens h.1)
  constructor
  · intro hbreak
    by_contra hkind
    exact Pattern.not_hasLineBreak_of_matches hmatches (isOneLine_pattern _ h.2 hkind) hbreak
  · intro hkind
    rw [hkind] at hmatches
    exact hasLineBreak_of_matches_textBlock hmatches

/-- The same for all that the parser can ask for, the end of the file included. -/
theorem hasLineBreak_get (source : List Char) (i : Nat) :
    HasLineBreak ((ofSource source).get i).text ↔ ((ofSource source).get i).kind = .textBlock := by
  unfold get
  rw [Array.getD_eq_getD_getElem?]
  cases hi : (ofSource source).visible[i]? with
  | none =>
    have htext : ¬ HasLineBreak "<EOF>".toList := by decide
    rw [Option.getD_none, final_ofSource]
    exact iff_of_false htext nofun
  | some t => exact hasLineBreak_of_mem_visible (Array.mem_of_getElem? hi)

end TokenStream

end JavaOutline
