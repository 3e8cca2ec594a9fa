import JavaOutline.Parser.Analysis

/-!
# The kinds in a token stream

The end of the file has a kind of its own, and no text is ever cut into a token of that kind
(`TokenStream.kind_ne_endOfFile`). So the kind of a visible token tells whether the file has been
read to its end (`TokenStream.get_kind_eq_endOfFile`).
-/

namespace JavaOutline

namespace Lexical

/-- Only a rule that never matches stands for the end of the file. -/
def NoEnd (rs : List (Kind × Reading)) : Prop :=
  ∀ k r, (k, r) ∈ rs → k = .endOfFile → r = .plain .never

/-- The lexical grammar has no text for the end of the file. -/
theorem rules_noEnd : NoEnd rules := by
  rintro k r hmem rfl
  obtain ⟨j, -, hj⟩ := List.mem_map.1 hmem
  cases hj
  rfl

/-- Once a character has been read, the end of the file is out of question. -/
theorem NoEnd.kind_of_mem_advance {rs : List (Kind × Reading)} (h : NoEnd rs) {c : Char}
    {k : Kind} {r : Reading} (hmem : (k, r) ∈ advance c rs) : k ≠ .endOfFile := by
  rintro rfl
  obtain ⟨⟨j, r'⟩, hr', hkeep⟩ := List.mem_filterMap.1 hmem
  simp only [Option.ite_none_left_eq_some, Option.some.injEq, Prod.mk.injEq] at hkeep
  obtain ⟨halive, rfl, -⟩ := hkeep
  rw [h _ r' hr' rfl] at halive
  exact halive rfl

/-- The longest token is not the end of the file. -/
theorem NoEnd.munch {rs : List (Kind × Reading)} (h : NoEnd rs) {n : Nat}
    {longest : Option (Kind × Nat)} (hl : ∀ k m, longest = some (k, m) → k ≠ .endOfFile)
    {s : List Char} {k : Kind} {m : Nat} (hk : (munch rs n longest s).longest = some (k, m)) :
    k ≠ .endOfFile := by
  induction s generalizing rs n longest with
  | nil => exact hl k m hk
  | cons c cs ih =>
    unfold Lexical.munch at hk
    split at hk
    · exact hl k m hk
    · have hkinds : ∀ j r, (j, r) ∈ advance c rs → j ≠ .endOfFile :=
        fun j r => h.kind_of_mem_advance
      refine ih (fun j r hmem hj => absurd hj (hkinds j r hmem)) ?_ hk
      intro j m' hj
      split at hj
      · rename_i hacc
        cases hj
        obtain ⟨⟨j', r⟩, hfind, rfl⟩ := Option.map_eq_some_iff.1 hacc
        exact hkinds _ r (List.mem_of_find?_eq_some hfind)
      · exact hl j m' hj

/-- No lexeme is a token for the end of the file. -/
theorem lexemes_kind {n : Nat} {p : Position} {s : List Char} {t : Token}
    (h : Lexeme.token t ∈ lexemes n p s) : t.kind ≠ .endOfFile := by
  induction n generalizing p s with
  | zero => cases s <;> simp [lexemes] at h
  | succ n ih =>
    cases s with
    | nil => simp [lexemes] at h
    | cons c cs =>
      simp only [lexemes, List.mem_cons] at h
      rcases h with h | h
      · simp only [first] at h
        split at h
        · rename_i hlong
          cases h
          exact rules_noEnd.munch (by simp) hlong
        · cases h
      · exact ih h

end Lexical

namespace TokenStream

/-- The tokens of a stream are those among the lexemes. -/
theorem mem_tokens_ofLexemes {ls : List Lexical.Lexeme} {p : Position} {n : Nat} {t : Token}
    (h : t ∈ (ofLexemes p n ls).tokens) : .token t ∈ ls := by
  induction ls generalizing p n with
  | nil => simp [ofLexemes] at h
  | cons l ls ih =>
    cases l with
    | token u =>
      simp only [ofLexemes, List.mem_cons] at h
      rcases h with rfl | h
      · exact .head _
      · exact .tail _ (ih h)
    | garbage text q => exact .tail _ (ih h)

/-- The last token of a stream is the end of the file. -/
@[simp] theorem final_kind_ofLexemes (ls : List Lexical.Lexeme) (p : Position) (n : Nat) :
    (ofLexemes p n ls).final.kind = .endOfFile := by
  induction ls generalizing p n with
  | nil => rfl
  | cons l ls ih => cases l <;> exact ih _ _

variable (source : List Char)

/-- The last token of a source text is the end of the file. -/
@[simp] theorem final_kind : (ofSource source).final.kind = .endOfFile :=
  final_kind_ofLexemes _ _ _

/-- No visible token is the end of the file. -/
theorem kind_ne_endOfFile {t : Token} (h : t ∈ (ofSource source).visible) :
    t.kind ≠ .endOfFile := by
  simp only [visible, List.mem_toArray, List.mem_filter] at h
  exact Lexical.lexemes_kind (mem_tokens_ofLexemes h.1)

@[simp] theorem size_kinds (T : TokenStream) : T.kinds.size = T.visible.size := Array.size_map

/-- The parser sees the kind of the token at each position. -/
theorem get_kind (i : Nat) : ((ofSource source).get i).kind = kindAt (ofSource source).kinds i := by
  unfold get kindAt kinds
  rcases Nat.lt_or_ge i (ofSource source).visible.size with h | h
  · simp [Array.getD_eq_getD_getElem?, h]
  · simp [Array.getD_eq_getD_getElem?, Array.getElem?_eq_none h]

/-- The end of the file is reached exactly where no visible token is left. -/
theorem get_kind_eq_endOfFile (i : Nat) :
    ((ofSource source).get i).kind = .endOfFile ↔ (ofSource source).visible.size ≤ i := by
  constructor
  · intro h
    rcases Nat.lt_or_ge i (ofSource source).visible.size with hi | hi
    · unfold get at h
      rw [Array.getD_eq_getD_getElem?, Array.getElem?_eq_getElem hi] at h
      exact absurd h (kind_ne_endOfFile source (Array.getElem_mem hi))
    · exact hi
  · intro h
    rw [get, Array.getD_eq_getD_getElem?, Array.getElem?_eq_none h]
    exact final_kind source

end TokenStream

end JavaOutline
