import JavaOutline.Token.Kind
import JavaOutline.Grammar.Rule

/-!
# Right-hand sides

A `Piece` is a regular expression over tokens and rules: what may stand on the right-hand side of a
rule. Two things go beyond regular expressions. A call of a rule carries a *level*, the least level
of the operators that the called rule may apply to its own result, and a `guard` lets a piece be
used only where operators of its level are allowed. Both matter for expressions alone, whose rule is
given by `Body.operators`: its atoms, and for every operator what may follow an operand.
-/

namespace JavaOutline

/-- The part that a child plays in its parent, where the grammar gives it a name. -/
inductive Role where
  | operator | prefixOperator | postfixOperator | constructorBody | blockLabel
  | statementExpression | identifierLabel | constantExpression | enumConstantName | varName
  | forUpdate
  deriving DecidableEq, Repr, Inhabited

/-- The name of a role in listings. -/
def Role.name : Role → String
  | .operator => "bop"
  | .prefixOperator => "prefix"
  | .postfixOperator => "postfix"
  | .constructorBody => "constructorBody"
  | .blockLabel => "blockLabel"
  | .statementExpression => "statementExpression"
  | .identifierLabel => "identifierLabel"
  | .constantExpression => "constantExpression"
  | .enumConstantName => "enumConstantName"
  | .varName => "varName"
  | .forUpdate => "forUpdate"

/-- A piece of a right-hand side. -/
inductive Piece where
  /-- Nothing at all. -/
  | nothing
  /-- One token of this kind. -/
  | token (k : Kind)
  /-- One token of any of these kinds. -/
  | oneOf (ks : List Kind)
  /-- What a rule derives, with operators of this level or higher. -/
  | call (r : Rule) (level : Nat)
  /-- Nothing, but only where operators of this level are allowed. -/
  | guard (level : Nat)
  /-- The same as `p`, which plays a named part in the node. -/
  | named (role : Role) (p : Piece)
  /-- First `p`, then `q`. -/
  | andThen (p q : Piece)
  /-- One of the alternatives. -/
  | choice (alts : List Piece)
  /-- One of the alternatives, or nothing. -/
  | optional (alts : List Piece)
  /-- Any number of alternatives, one after the other. -/
  | many (alts : List Piece)
  /-- One or more alternatives, one after the other. -/
  | many1 (alts : List Piece)
  deriving Inhabited

namespace Piece

/-- One token of this kind. -/
abbrev tok (k : Kind) : Piece := .token k

/-- A rule at its lowest level. -/
abbrev ref (r : Rule) : Piece := .call r 0

/-- A rule from this level on. -/
abbrev refAt (r : Rule) (level : Nat) : Piece := .call r level

/-- The pieces one after the other. -/
def seq : List Piece → Piece
  | [] => .nothing
  | [p] => p
  | p :: ps => .andThen p (seq ps)

end Piece

/-- An operator: its level, and what follows the operand to its left. -/
structure Suffix where
  level : Nat
  rest : Piece

/-- An operator as an alternative of its own, open only where its level is allowed. -/
def Suffix.piece (s : Suffix) : Piece := .andThen (.guard s.level) s.rest

/-- The right-hand side of a rule. -/
inductive Body where
  /-- The rule derives what the piece derives. -/
  | plain (p : Piece)
  /-- The rule derives an atom, or an operand that it derives followed by an operator's rest. -/
  | operators (atoms : List Piece) (suffixes : List Suffix)

end JavaOutline
