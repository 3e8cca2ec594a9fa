import JavaOutline.Token.Kind
import JavaOutline.Lexer.Loop

/-!
# The lexical grammar of Java

One rule for each kind of token. Words and symbols are given by their spelling, and a word is
also a name; it is the order of the kinds that makes it a word.
-/

namespace JavaOutline

namespace Lexical

open Pattern

/-- The characters between two, both included. -/
def between (a b c : Char) : Bool := a ≤ c && c ≤ b

/-- A decimal digit. -/
def isDigit (c : Char) : Bool := between '0' '9' c

/-- A hexadecimal digit. -/
def isHexDigit (c : Char) : Bool := isDigit c || between 'a' 'f' c || between 'A' 'F' c

/-- A character with which a name may begin: an ASCII letter, `$`, `_`, or any character outside
ASCII. -/
def isLetter (c : Char) : Bool :=
  between 'a' 'z' c || between 'A' 'Z' c || c == '$' || c == '_' || 0x7f < c.toNat

/-- A digit of a class, or several digits that underscores may stand between. -/
def digitsOf (isDigit : Char → Bool) : Pattern :=
  .seq (.char isDigit) (opt (.seq (.star (.char fun c => isDigit c || c == '_')) (.char isDigit)))

/-- Decimal digits. -/
def digits : Pattern := digitsOf isDigit

/-- Hexadecimal digits. -/
def hexDigits : Pattern := digitsOf isHexDigit

/-- The mark of a long integer, which may be left out. -/
def longMark : Pattern := opt (anyOf "lL")

/-- The mark of a float or double, which may be left out. -/
def floatMark : Pattern := opt (anyOf "fFdD")

/-- A decimal exponent. -/
def exponent : Pattern := all [anyOf "eE", opt (anyOf "+-"), digits]

/-- An escape sequence in a character or string literal. -/
def escape : Pattern :=
  let backslash : Pattern := .seq (word "\\") (opt (word "u005c"))
  let octal : Pattern := .char (between '0' '7')
  let hex : Pattern := .char isHexDigit
  oneOf [
    .seq backslash (anyOf "btnfr\"'\\"),
    all [backslash, opt (.seq (opt (.char (between '0' '3'))) octal), octal],
    all [word "\\", plus (word "u"), hex, hex, hex, hex]]

/-- The body of a comment is a loop over all characters. -/
def comment : Loop := ⟨word "/*", [anything], "*/".toList⟩

/-- The body of a text block, behind its opening line, is a loop over characters and escape
sequences. -/
def textBlock : Loop where
  opening := all [word "\"\"\"", .star (anyOf " \t"), anyOf "\r\n"]
  turns := [anything, escape]
  stop := "\"\"\"".toList

/-- The rule for the tokens of a kind. -/
def rule (k : Kind) : TokenRule :=
  match k with
  | .endOfFile => .plain .never
  | .decimalLiteral =>
    .plain (.seq (.or (word "0") (.seq (.char (between '1' '9'))
      (.or (opt digits) (.seq (plus (word "_")) digits)))) longMark)
  | .hexLiteral => .plain (all [word "0", anyOf "xX", digitsOf isHexDigit, longMark])
  | .octLiteral =>
    .plain (all [word "0", .star (word "_"), digitsOf (between '0' '7'), longMark])
  | .binaryLiteral => .plain (all [word "0", anyOf "bB", digitsOf (between '0' '1'), longMark])
  | .floatLiteral =>
    .plain (.or
      (all [.or (all [digits, word ".", opt digits]) (.seq (word ".") digits), opt exponent,
        floatMark])
      (.seq digits (.or (.seq exponent floatMark) (anyOf "fFdD"))))
  | .hexFloatLiteral =>
    .plain (all [word "0", anyOf "xX",
      .or (.seq hexDigits (opt (word "."))) (all [opt hexDigits, word ".", hexDigits]),
      anyOf "pP", opt (anyOf "+-"), digits, floatMark])
  | .boolLiteral => .plain (.or (word "true") (word "false"))
  | .charLiteral => .plain (all [word "'", .or (noneOf "'\\\r\n") escape, word "'"])
  | .stringLiteral =>
    .plain (all [word "\"", .star (.or (noneOf "\"\\\r\n") escape), word "\""])
  | .textBlock => .loop textBlock
  | .whitespace => .plain (plus (anyOf " \t\r\n\x0c"))
  | .comment => .loop comment
  | .lineComment => .plain (.seq (word "//") (.star (noneOf "\r\n")))
  | .identifier =>
    .plain (.seq (.char isLetter) (.star (.char fun c => isLetter c || isDigit c)))
  | k => match k.spelling? with
    | some s => .plain (word s)
    | none => .plain .never

/-- The rules of all kinds before the first character, in order. -/
def rules : List (Kind × Reading) := Kind.all.map fun k => (k, (rule k).start)

end Lexical

end JavaOutline
