import JavaOutline.Proofs.Lexer.Reach
import JavaOutline.Proofs.Lexer.Stream
import Mathlib.Data.List.DropRight

/-!
# Lexemes tile the source text

Every lexeme begins where the one before it ends, so the lexemes cover the source text from its start
to its end (`Lexical.Scanned.tiles`, `lexemes_tile_source`).

Positions are kept up to date character by character. `Position.advance_start` counts them all at once,
and since a lexeme begins behind the text of the lexemes before it (`Lexical.Scanned.position_eq`), its
position is right whatever these are (`positions_count_source`).
-/

namespace JavaOutline

namespace Position

/-! ## Counting positions -/

/-- **Positions count what is before them**: all characters, the line feeds, and the characters behind
the last line feed. -/
theorem advance_start (s : List Char) : start.advance s =
    ⟨s.length, 1 + s.count '\n', (s.rtakeWhile (· ≠ '\n')).length⟩ := by
  induction s using List.reverseRecOn with
  | nil => rfl
  | append_singleton s c ih =>
    have hstep : start.advance (s ++ [c]) = (start.advance s).next c := List.foldl_concat ..
    rw [hstep, ih, next, List.rtakeWhile_concat]
    by_cases hc : c = '\n'
    · simp [hc, Nat.add_assoc]
    · simp [hc]

@[simp] theorem start_offset : start.offset = 0 := rfl

@[simp] theorem advance_offset (p : Position) (s : List Char) :
    (p.advance s).offset = p.offset + s.length := by
  induction s using List.reverseRecOn with
  | nil => rfl
  | append_singleton s c ih =>
    have hstep : p.advance (s ++ [c]) = (p.advance s).next c := List.foldl_concat ..
    rw [hstep, next]
    split <;> simp [ih, Nat.add_assoc]

theorem advance_append (p : Position) (s t : List Char) :
    p.advance (s ++ t) = (p.advance s).advance t := List.foldl_append

end Position

/-- The offset of the last character of a token; the end of the file has none, and ends before it
begins. -/
def Token.stop (t : Token) : Int := t.position.offset + t.width - 1

namespace Lexical

/-! ## One lexeme after the other -/

namespace Lexeme

/-- The token of a lexeme, if it is one. -/
def token? : Lexeme → Option Token
  | .token t => some t
  | .garbage _ _ => none

/-- The text of a lexeme that is no token, with its position. -/
def garbage? : Lexeme → Option (List Char × Position)
  | .token _ => none
  | .garbage text p => some (text, p)

/-- Where a lexeme begins. -/
def position : Lexeme → Position
  | .token t => t.position
  | .garbage _ p => p

/-- The offset of the first character of a lexeme. -/
def start (l : Lexeme) : Nat := l.position.offset

/-- The offset of the last character of a lexeme. -/
def stop (l : Lexeme) : Int := l.start + l.text.length - 1

end Lexeme

/-- The lexemes are intervals that are not empty and follow one another without gap or overlap from the
offset `a` up to the offset `b`. -/
def Tiles : Int → List Lexeme → Int → Prop
  | a, [], b => a = b
  | a, l :: ls, b => l.start = a ∧ l.start ≤ l.stop ∧ Tiles (l.stop + 1) ls b

/-- The characters of a text from the offset `a` to the offset `b`, both included. -/
def slice (s : List Char) (a b : Int) : List Char := (s.drop a.toNat).take (b + 1 - a).toNat

theorem slice_middle (u v w : List Char) :
    slice (u ++ (v ++ w)) u.length (u.length + v.length - 1) = v := by
  have hlength : ((u.length : Int) + v.length - 1 + 1 - u.length).toNat = v.length := by omega
  rw [slice, hlength, Int.toNat_natCast, List.drop_left, List.take_left]

section
variable {p : Position} {s : List Char} {l : Lexeme} {ls before after : List Lexeme}

/-- The first lexeme begins at the position and is not empty. -/
theorem Scanned.head (h : Scanned p s (l :: ls)) : l.position = p ∧ l.text ≠ [] := by
  cases h with
  | token munch _ => exact ⟨rfl, munch.nonempty⟩
  | garbage nonempty _ _ _ => exact ⟨rfl, nonempty⟩

/-- The other lexemes begin behind the first one. -/
theorem Scanned.tail (h : Scanned p s (l :: ls)) :
    Scanned (p.advance l.text) (s.drop l.text.length) ls := by
  cases h with
  | token _ next => exact next
  | garbage _ _ _ next => exact next

/-- **The lexemes tile the text** in which they have been found. -/
theorem Scanned.tiles (h : Scanned p s ls) : Tiles p.offset ls (p.offset + s.length) := by
  induction ls generalizing p s with
  | nil =>
    cases h
    simp [Tiles]
  | cons l ls ih =>
    obtain ⟨hposition, hne⟩ := h.head
    have hlength : s.length = l.text.length + (s.drop l.text.length).length := by
      rw [← h.flatMap_text, List.flatMap_cons, List.drop_left, List.length_append]
    have hpos := List.length_pos_iff.2 hne
    have hrest := ih h.tail
    rw [Position.advance_offset] at hrest
    refine ⟨by rw [Lexeme.start, hposition], by unfold Lexeme.stop; omega, ?_⟩
    have hnext : l.stop + 1 = ((p.offset + l.text.length : Nat) : Int) := by
      unfold Lexeme.stop Lexeme.start
      rw [hposition]
      omega
    have hend : (p.offset : Int) + s.length =
        ((p.offset + l.text.length : Nat) : Int) + (s.drop l.text.length).length := by omega
    rw [hnext, hend]
    exact hrest

/-- A lexeme begins behind the text of the lexemes before it. -/
theorem Scanned.position_eq (h : Scanned p s (before ++ l :: after)) :
    l.position = p.advance (before.flatMap Lexeme.text) := h.drop.head.1

/-- The offset of a lexeme is the length of the text before it. -/
theorem Scanned.start_eq (h : Scanned .start s (before ++ l :: after)) :
    l.start = (before.flatMap Lexeme.text).length := by
  rw [Lexeme.start, h.position_eq, Position.advance_offset, Position.start_offset, Nat.zero_add]

/-- The text around a lexeme. -/
theorem Scanned.eq_append (h : Scanned p s (before ++ l :: after)) :
    s = before.flatMap Lexeme.text ++ (l.text ++ after.flatMap Lexeme.text) := by
  rw [← h.flatMap_text, List.flatMap_append, List.flatMap_cons]

theorem lexemes_succ (n : Nat) (p : Position) (hs : s ≠ []) : lexemes (n + 1) p s =
    (first p s).1 :: lexemes n (p.advance (first p s).1.text) (first p s).2 := by
  cases s with
  | nil => exact absurd rfl hs
  | cons c cs => rfl

/-- Less is left behind a lexeme. -/
theorem length_first_lt (p : Position) (hs : s ≠ []) : (first p s).2.length < s.length := by
  have hless {text : List Char} (hne : text ≠ []) : (s.drop text.length).length < s.length := by
    have hpos := List.length_pos_iff.2 hne
    have hpos' := List.length_pos_iff.2 hs
    rw [List.length_drop]
    omega
  rcases first_spec p hs with ⟨k, text, hfirst, hmunch⟩ | ⟨text, hfirst, -, hne, -⟩
  · rw [hfirst]
    exact hless hmunch.nonempty
  · rw [hfirst]
    exact hless hne

/-- Text that is no token ends with the offending character. -/
theorem offends_of_first {text : List Char} {q : Position}
    (h : (first p s).1 = .garbage text q) : Offends text s := by
  unfold first at h
  dsimp only at h
  split at h
  · cases h
  · cases h
    exact offends_take_reach s

/-- Wherever text is dropped it ends with the offending character. -/
theorem offends_of_lexemes {n : Nat} {text : List Char} {q : Position} (hn : s.length ≤ n)
    (h : lexemes n p s = before ++ .garbage text q :: after) :
    Offends text (text ++ after.flatMap Lexeme.text) := by
  induction n generalizing p s before with
  | zero =>
    obtain rfl := List.length_eq_zero_iff.1 (Nat.le_zero.1 hn)
    simp [lexemes] at h
  | succ n ih =>
    have hs : s ≠ [] := by
      rintro rfl
      simp [lexemes] at h
    have hscanned : Scanned p s (before ++ .garbage text q :: after) := h ▸ scanned_lexemes hn
    rw [lexemes_succ n p hs] at h
    cases before with
    | nil =>
      have htext : s = text ++ after.flatMap Lexeme.text := hscanned.eq_append
      rw [← htext]
      exact offends_of_first (List.cons.inj h).1
    | cons l before =>
      have hless := length_first_lt p hs
      exact ih (by omega) (List.cons.inj h).2

end

end Lexical

namespace TokenStream

open Lexical

/-! ## Token streams -/

/-- The texts of a stream that are no tokens are those among the lexemes, in order. -/
theorem garbage_ofLexemes (p : Position) (n : Nat) (ls : List Lexeme) :
    (ofLexemes p n ls).garbage.map (fun g => (g.1, g.2.1)) = ls.filterMap Lexeme.garbage? := by
  induction ls generalizing p n with
  | nil => rfl
  | cons l ls ih =>
    cases l with
    | token t => exact ih _ _
    | garbage text q => exact congrArg ((text, q) :: ·) (ih _ _)

/-- The last token stands behind all the text. -/
theorem final_ofLexemes {p : Position} {s : List Char} {ls : List Lexeme} (h : Scanned p s ls)
    (n : Nat) : (ofLexemes p n ls).final = .endOfFile (p.advance s) := by
  induction ls generalizing p s n with
  | nil =>
    cases h
    rfl
  | cons l ls ih =>
    have hbehind : p.advance s = (p.advance l.text).advance (s.drop l.text.length) := by
      rw [← Position.advance_append, ← h.flatMap_text, List.flatMap_cons, List.drop_left]
    rw [hbehind]
    cases l with
    | token t =>
      obtain rfl : t.position = p := h.head.1
      exact ih h.tail _
    | garbage text q =>
      obtain rfl : q = p := h.head.1
      exact ih h.tail _

variable (source : List Char)

theorem scanned_lex : Scanned .start source (lex source) := scanned_lexemes (Nat.le_refl _)

theorem tokens_ofSource : (ofSource source).tokens = (lex source).filterMap Lexeme.token? := by
  rw [ofSource, tokens_ofLexemes]
  exact List.filterMap_congr fun l _ => by cases l <;> rfl

theorem garbage_ofSource : (ofSource source).garbage.map (fun g => (g.1, g.2.1)) =
    (lex source).filterMap Lexeme.garbage? := garbage_ofLexemes _ _ _

theorem final_ofSource : (ofSource source).final = .endOfFile (Position.start.advance source) :=
  final_ofLexemes (scanned_lex source) 0

variable {source}

theorem mem_lex_of_mem_tokens {t : Token} (h : t ∈ (ofSource source).tokens) :
    .token t ∈ lex source := mem_tokens_ofLexemes h

theorem mem_lex_of_mem_garbage {g : List Char × Position × Nat} (h : g ∈ (ofSource source).garbage) :
    .garbage g.1 g.2.1 ∈ lex source := by
  have hmem : (g.1, g.2.1) ∈ (lex source).filterMap Lexeme.garbage? := by
    rw [← garbage_ofSource]
    exact List.mem_map_of_mem h
  obtain ⟨l, hl, hgarbage⟩ := List.mem_filterMap.1 hmem
  cases l with
  | token t => cases hgarbage
  | garbage text q =>
    obtain ⟨htext, hq⟩ := Prod.mk.inj (Option.some.inj hgarbage)
    rw [← htext, ← hq]
    exact hl

/-- A lexeme of a source text begins at the position behind the text before it. -/
theorem position_of_mem_lex {l : Lexeme} (h : l ∈ lex source) :
    l.position = Position.start.advance (source.take l.start) := by
  obtain ⟨before, after, hsplit⟩ := List.append_of_mem h
  have hscanned : Scanned .start source (before ++ l :: after) := hsplit ▸ scanned_lex source
  have htake : source.take l.start = before.flatMap Lexeme.text := by
    rw [hscanned.eq_append, hscanned.start_eq, List.take_left]
  rw [htake]
  exact hscanned.position_eq

/-- A lexeme of a source text is what stands between its first and its last character. -/
theorem text_of_mem_lex {l : Lexeme} (h : l ∈ lex source) :
    l.text = slice source l.start l.stop := by
  obtain ⟨before, after, hsplit⟩ := List.append_of_mem h
  have hscanned : Scanned .start source (before ++ l :: after) := hsplit ▸ scanned_lex source
  rw [Lexeme.stop, hscanned.start_eq, hscanned.eq_append, slice_middle]

/-- Dropped text of a source text ends with the offending character. -/
theorem offends_of_mem_lex {text : List Char} {p : Position} (h : .garbage text p ∈ lex source) :
    Offends text (source.drop p.offset) := by
  obtain ⟨before, after, hsplit⟩ := List.append_of_mem h
  have hscanned : Scanned .start source (before ++ .garbage text p :: after) :=
    hsplit ▸ scanned_lex source
  have hdrop : source.drop p.offset = text ++ after.flatMap Lexeme.text := by
    have hstart : p.offset = _ := hscanned.start_eq
    rw [hstart]
    exact (congrArg _ hscanned.eq_append).trans List.drop_left
  rw [hdrop]
  exact offends_of_lexemes (Nat.le_refl _) hsplit

end TokenStream

/-- **The lexemes tile the source text.** Tokens of all kinds and dropped texts, in the order in which
they are found, are intervals that are not empty and follow one another from the start of the text to
its end. Each is the text between its first and its last character, so together they are the source
text. Dropped text goes on as long as some token can begin so and ends with the character where none
can any more, or with the source text. Behind all this, and nowhere else, is the end of the file. -/
theorem lexemes_tile_source (source : List Char) :
    let T := TokenStream.ofSource source
    Lexical.Tiles 0 (lex source) source.length ∧
    (lex source).flatMap Lexical.Lexeme.text = source ∧
    T.tokens = (lex source).filterMap Lexical.Lexeme.token? ∧
    (∀ t ∈ T.tokens, t.kind ≠ .endOfFile ∧
      t.text = Lexical.slice source t.position.offset t.stop) ∧
    T.garbage.map (fun g => (g.1, g.2.1)) = (lex source).filterMap Lexical.Lexeme.garbage? ∧
    (∀ text p n, (text, p, n) ∈ T.garbage →
      text = Lexical.slice source p.offset (p.offset + text.length - 1) ∧
      Lexical.Offends text (source.drop p.offset)) ∧
    T.all = T.tokens ++ [T.final] ∧ T.final.kind = .endOfFile ∧
    T.final.position.offset = source.length ∧ T.final.stop = source.length - 1 := by
  intro T
  have hscanned := TokenStream.scanned_lex source
  have hfinal : T.final.position.offset = source.length := by
    rw [TokenStream.final_ofSource, Token.endOfFile, Position.advance_offset, Position.start_offset,
      Nat.zero_add]
  refine ⟨by simpa using hscanned.tiles, hscanned.flatMap_text, TokenStream.tokens_ofSource source,
    fun t ht => ?_, TokenStream.garbage_ofSource source, fun text p n hg => ?_, rfl,
    TokenStream.final_kind source, hfinal, ?_⟩
  · have hmem := TokenStream.mem_lex_of_mem_tokens ht
    have hkind : t.kind ≠ .endOfFile := Lexical.lexemes_kind hmem
    refine ⟨hkind, ?_⟩
    rw [Token.stop, Token.width, if_neg hkind]
    exact TokenStream.text_of_mem_lex hmem
  · have hmem := TokenStream.mem_lex_of_mem_garbage hg
    exact ⟨TokenStream.text_of_mem_lex hmem, TokenStream.offends_of_mem_lex hmem⟩
  · rw [Token.stop, hfinal, Token.width, if_pos (TokenStream.final_kind source)]
    omega

/-- **Positions are right after any history.** The line of every token, the end of the file included,
and of every dropped text is one more than the number of line feeds before its first character, and its
column is the number of characters between the last of these and its first character. So it is in the
messages. -/
theorem positions_count_source (source : List Char) :
    let T := TokenStream.ofSource source
    let line (n : Nat) := 1 + (source.take n).count '\n'
    let column (n : Nat) := ((source.take n).rtakeWhile (· ≠ '\n')).length
    (∀ t ∈ T.all, t.position.offset ≤ source.length ∧
      t.position.line = line t.position.offset ∧ t.position.column = column t.position.offset) ∧
    (∀ text p n, (text, p, n) ∈ T.garbage → p.offset ≤ source.length ∧
      p.line = line p.offset ∧ p.column = column p.offset) ∧
    T.messages = T.garbage.map fun g => ⟨line g.2.1.offset, column g.2.1.offset,
      "token recognition error at: ".toList ++ quoted g.1⟩ := by
  intro T line column
  -- It is enough that a position is the one behind the text before it.
  have hcount {p : Position} (hp : p = Position.start.advance (source.take p.offset)) :
      p.offset ≤ source.length ∧ p.line = line p.offset ∧ p.column = column p.offset := by
    rw [Position.advance_start] at hp
    have hoffset : p.offset = (source.take p.offset).length := congrArg Position.offset hp
    rw [List.length_take] at hoffset
    exact ⟨by omega, congrArg Position.line hp, congrArg Position.column hp⟩
  have hgarbage : ∀ text p n, (text, p, n) ∈ T.garbage →
      p.offset ≤ source.length ∧ p.line = line p.offset ∧ p.column = column p.offset :=
    fun text p n hg => hcount (TokenStream.position_of_mem_lex (TokenStream.mem_lex_of_mem_garbage hg))
  refine ⟨fun t ht => ?_, hgarbage, ?_⟩
  · rcases List.mem_append.1 ht with ht | ht
    · exact hcount (TokenStream.position_of_mem_lex (TokenStream.mem_lex_of_mem_tokens ht))
    · rw [List.mem_singleton.1 ht, TokenStream.final_ofSource, Token.endOfFile]
      refine hcount ?_
      rw [Position.advance_offset, Position.start_offset, Nat.zero_add, List.take_length]
  · refine List.map_congr_left fun ⟨text, p, n⟩ hg => ?_
    obtain ⟨-, hline, hcolumn⟩ := hgarbage text p n hg
    dsimp only [TokenStream.garbageMessage]
    rw [← hline, ← hcolumn]

end JavaOutline
