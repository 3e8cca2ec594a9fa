import JavaOutline.Token.Kind

/-!
# Tokens and positions

A position in a source text counts characters from the start of the text, lines from 1, and
characters from the start of the line. Only a line feed begins a new line. A character is one code
point, whatever its width.
-/

namespace JavaOutline

/-- A position in a source text. -/
structure Position where
  /-- The number of characters before it. -/
  offset : Nat
  /-- The line, counted from 1. -/
  line : Nat
  /-- The number of characters before it on its line. -/
  column : Nat
  deriving DecidableEq, Repr, Inhabited

namespace Position

/-- The start of a text. -/
def start : Position := ⟨0, 1, 0⟩

/-- The position behind a character. -/
def next (p : Position) (c : Char) : Position :=
  if c = '\n' then ⟨p.offset + 1, p.line + 1, 0⟩ else ⟨p.offset + 1, p.line, p.column + 1⟩

/-- The position behind a text. -/
def advance (p : Position) (s : List Char) : Position := s.foldl next p

end Position

/-- A token: its kind, its text, and where it begins. -/
structure Token where
  kind : Kind
  text : List Char
  position : Position
  deriving DecidableEq, Repr, Inhabited

namespace Token

/-- The token that closes the token stream of a text that ends here. -/
def endOfFile (p : Position) : Token := ⟨.endOfFile, "<EOF>".toList, p⟩

/-- The number of characters of the source text in a token. -/
def width (t : Token) : Nat := if t.kind = .endOfFile then 0 else t.text.length

end Token

end JavaOutline
