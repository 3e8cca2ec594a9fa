/-!
# Reading UTF-8

`Utf8.decode` reads bytes strictly: every character is written in the one shortest way, surrogates
and numbers above 10FFFF are no characters, and the first fault ends the reading. A fault covers the
byte that begins the character and those bytes after it that could still belong to it.
-/

namespace JavaOutline

namespace Utf8

/-- Why bytes are no text. -/
inductive Reason where
  /-- No character begins with this byte. -/
  | start
  /-- The character does not go on like this. -/
  | continuation
  /-- The bytes end inside a character. -/
  | truncated
  deriving DecidableEq, Repr, Inhabited

/-- A fault in bytes: how many bytes come before it, the bytes it covers, and the reason. -/
structure Fault where
  offset : Nat
  bytes : List UInt8
  reason : Reason
  deriving DecidableEq, Repr, Inhabited

/-- The number of further bytes of a character that begins with `b`, with the range that the first
of them must be in. -/
def lead? (b : UInt8) : Option (Nat × UInt8 × UInt8) :=
  if b < 0x80 then some (0, 0x80, 0xbf)
  else if b < 0xc2 then none
  else if b < 0xe0 then some (1, 0x80, 0xbf)
  else if b = 0xe0 then some (2, 0xa0, 0xbf)
  else if b = 0xed then some (2, 0x80, 0x9f)
  else if b < 0xf0 then some (2, 0x80, 0xbf)
  else if b = 0xf0 then some (3, 0x90, 0xbf)
  else if b < 0xf4 then some (3, 0x80, 0xbf)
  else if b = 0xf4 then some (3, 0x80, 0x8f)
  else none

/-- Reads `n` further bytes, the first of them in a range, and adds their bits to `value`. `taken`
are the bytes of the character so far. -/
def further : Nat → UInt8 → UInt8 → Nat → List UInt8 → List UInt8 →
    Except (List UInt8 × Reason) (Nat × List UInt8)
  | 0, _, _, value, _, bs => .ok (value, bs)
  | _ + 1, _, _, _, taken, [] => .error (taken, .truncated)
  | n + 1, lo, hi, value, taken, b :: bs =>
    if lo ≤ b ∧ b ≤ hi then
      further n 0x80 0xbf (value * 64 + b.toNat % 64) (taken ++ [b]) bs
    else .error (taken, .continuation)

/-- The bits of a character in its first byte, if `n` bytes follow. -/
def leadBits (b : UInt8) : Nat → Nat
  | 0 => b.toNat
  | 1 => b.toNat % 32
  | 2 => b.toNat % 16
  | _ => b.toNat % 8

/-- Reads the first character. -/
def decodeChar : UInt8 → List UInt8 → Except (List UInt8 × Reason) (Char × List UInt8)
  | b, bs =>
    match lead? b with
    | none => .error ([b], .start)
    | some (n, lo, hi) =>
      match further n lo hi (leadBits b n) [b] bs with
      | .ok (value, rest) => .ok (Char.ofNat value, rest)
      | .error e => .error e

/-- Reads bytes from an offset on. The first argument bounds the number of characters. -/
def decodeFrom : Nat → Nat → List UInt8 → Except Fault (List Char)
  | _, _, [] => .ok []
  | 0, _, _ :: _ => .ok []
  | n + 1, offset, b :: bs =>
    match decodeChar b bs with
    | .error (bytes, reason) => .error ⟨offset, bytes, reason⟩
    | .ok (c, rest) =>
      match decodeFrom n (offset + (bs.length + 1 - rest.length)) rest with
      | .ok cs => .ok (c :: cs)
      | .error e => .error e

/-- Reads bytes as text. -/
def decode (bs : List UInt8) : Except Fault (List Char) := decodeFrom bs.length 0 bs

/-- The reason of a fault in words. -/
def Reason.message : Reason → String
  | .start => "invalid start byte"
  | .continuation => "invalid continuation byte"
  | .truncated => "unexpected end of data"

/-- A byte as two hexadecimal digits. -/
def hex (b : UInt8) : String :=
  String.ofList [(b.toNat / 16).digitChar, (b.toNat % 16).digitChar]

/-- A fault in words. -/
def Fault.message (f : Fault) : String :=
  let place := match f.bytes with
    | [b] => "byte 0x" ++ hex b ++ " in position " ++ toString f.offset
    | bytes => "bytes in position " ++ toString f.offset ++ "-" ++
        toString (f.offset + bytes.length - 1)
  "'utf-8' codec can't decode " ++ place ++ ": " ++ f.reason.message

end Utf8

end JavaOutline
