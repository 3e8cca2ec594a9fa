import JavaOutline.Prediction.Forecast
import JavaOutline.Tree.Basic

/-!
# The state of a parse

The parser reads kinds of tokens by their positions. A position counts the tokens that the parser
can see; an index counts all tokens of the stream, blanks and comments included. `Progress` is all
that it remembers: the position of the next token, how far it has looked, the errors it has
reported, and what it needs to recover from an error without reporting its consequences again or
staying where it is forever.
-/

namespace JavaOutline

/-- Why the parser complains about a token. -/
inductive Cause where
  /-- The token is none of the expected kinds. -/
  | mismatched (expected : KindSet)
  /-- The token is one too many before one of the expected kinds. -/
  | extraneous (expected : KindSet)
  /-- A token of one of the expected kinds is missing before this one. -/
  | missing (expected : KindSet)
  /-- No alternative goes on with the token; `start` is where looking ahead began. -/
  | noAlternative (start : Nat)
  /-- The rule does not allow operators of this level here. -/
  | forbidden (r : Rule) (level : Nat)
  deriving DecidableEq, Repr, Inhabited

/-- A complaint about the token at a position. -/
structure Complaint where
  pos : Nat
  cause : Cause
  /-- How far the parser had looked when it complained. -/
  seen : Nat
  deriving DecidableEq, Repr, Inhabited

/-- What the parser remembers between two tokens. -/
structure Progress where
  /-- The position of the next token. -/
  pos : Nat
  /-- The last position that has been looked at. -/
  seen : Nat
  /-- Has there been an error since the last token that was right? -/
  recovering : Bool
  /-- The index of the token at which the last error was, if there has been one since the last token
  that was right. -/
  lastError : Option Nat
  /-- The places at which errors have been found since the last token that was right. -/
  failed : List Place
  /-- The complaints so far, the last one first. -/
  complaints : List Complaint
  /-- Has the work been cut short by a bound on its length? -/
  cutShort : Bool
  deriving Repr, Inhabited

namespace Progress

/-- The state before the first token. -/
def initial : Progress := ⟨0, 0, false, none, [], [], false⟩

/-- Notes that the token at a position has been looked at, if there is one. -/
def lookAt (kinds : Array Kind) (i : Nat) (s : Progress) : Progress :=
  { s with seen := max s.seen (min i kinds.size) }

/-- Complains about a token, unless it is only the consequence of an earlier error. -/
def complain (pos : Nat) (cause : Cause) (s : Progress) : Progress :=
  if s.recovering then s
  else { s with recovering := true, complaints := ⟨pos, cause, s.seen⟩ :: s.complaints }

/-- Notes that the next token is right. -/
def settle (s : Progress) : Progress :=
  { s with recovering := false, lastError := none, failed := [] }

/-- Goes on behind the next token; the end of the file is never passed. -/
def advance (kinds : Array Kind) (s : Progress) : Progress :=
  if s.pos < kinds.size then ({ s with pos := s.pos + 1 } : Progress).lookAt kinds (s.pos + 1)
  else s

/-- The next token as a leaf: skipped while recovering from an error. -/
def leaf (s : Progress) : Tree Nat := if s.recovering then .skipped s.pos else .token none s.pos

end Progress

end JavaOutline
