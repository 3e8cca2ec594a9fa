import JavaOutline.Token.Basic
import JavaOutline.Lexer.Rules

/-!
# Cutting a text into tokens

At every position the longest text that matches some rule becomes a token, and of several rules
that match it the first one gives its kind. If no text matches, reading stops at the first character
with which no rule can go on, or at the end of the text; everything up to that character is dropped,
and the lexer goes on behind it.
-/

namespace JavaOutline

namespace Lexical

/-- What reading as far as possible has shown. -/
structure Munch where
  /-- The kind and length of the longest token, if there is one. -/
  longest : Option (Kind × Nat)
  /-- The number of characters with which some rule could go on. -/
  reach : Nat
  deriving DecidableEq, Repr, Inhabited

/-- The rules that remain after a character. -/
def advance (c : Char) (rs : List (Kind × Reading)) : List (Kind × Reading) :=
  rs.filterMap fun (k, r) => if (r.after c).isDead then none else some (k, r.after c)

/-- The first kind whose text may end here. -/
def accepted? (rs : List (Kind × Reading)) : Option Kind :=
  (rs.find? (·.2.isNullable)).map (·.1)

/-- Reads on with the rules `rs`, of which `n` characters have been read and `longest` is the longest
token so far. -/
def munch : List (Kind × Reading) → Nat → Option (Kind × Nat) → List Char → Munch
  | _, n, longest, [] => ⟨longest, n⟩
  | rs, n, longest, c :: cs =>
    match advance c rs with
    | [] => ⟨longest, n⟩
    | rs' =>
      let longest' := match accepted? rs' with
        | some k => some (k, n + 1)
        | none => longest
      munch rs' (n + 1) longest' cs

/-- A piece of a source text: a token, or text that is no token. -/
inductive Lexeme where
  | token (t : Token)
  | garbage (text : List Char) (position : Position)
  deriving DecidableEq, Repr, Inhabited

/-- The first lexeme of a text that begins at a position. A lexeme is never empty unless the text
is. -/
def first (p : Position) (s : List Char) : Lexeme × List Char :=
  let m := munch rules 0 none s
  match m.longest with
  | some (k, n) => (.token ⟨k, s.take n, p⟩, s.drop n)
  | none => (.garbage (s.take (m.reach + 1)) p, s.drop (m.reach + 1))

/-- The characters of a lexeme. -/
def Lexeme.text : Lexeme → List Char
  | .token t => t.text
  | .garbage text _ => text

/-- The lexemes of a text that begins at a position. The first argument bounds their number. -/
def lexemes : Nat → Position → List Char → List Lexeme
  | _, _, [] => []
  | 0, _, _ :: _ => []
  | n + 1, p, s =>
    let (l, rest) := first p s
    l :: lexemes n (p.advance l.text) rest

end Lexical

/-- The lexemes of a source text. -/
def lex (s : List Char) : List Lexical.Lexeme := Lexical.lexemes s.length .start s

end JavaOutline
