import JavaOutline.Token.KindSet
import JavaOutline.Grammar.Java

/-!
# The network of a grammar

To look ahead without committing to an alternative, the parser walks through the grammar as through
a network. A rule is laid out as a list of nodes, and a `Place` is a rule together with the number
of a node. `Piece.size` says how much room a piece takes and `Piece.wire` lays it out, so that the
place of every part of a right-hand side follows from the sizes of the parts before it: the parser
and the network agree on places without any table.

A piece laid out at `base` begins at `base`. Pieces that offer a decision begin with the node that
forks, and keep their other fixed nodes right behind it.

* `choice` and `optional`: the fork, then the node where the alternatives meet.
* `many`: the fork that enters or leaves, the fork of the alternatives, the node where they meet,
  the node that leads back, the node that leaves.
* `many1`: the fork of the alternatives, the node where they meet, the fork that repeats or leaves,
  the node that leaves.
-/

namespace JavaOutline

/-- A node of the network. Numbers stand for nodes of the same rule. -/
inductive Node where
  /-- One token of a set leads on. -/
  | take (ks : KindSet) (next : Nat)
  /-- The rule is entered with this least level, and left for `next`. -/
  | call (r : Rule) (level : Nat) (next : Nat)
  /-- Where operators of this level are allowed, nothing leads on. -/
  | guard (level : Nat) (next : Nat)
  /-- Nothing leads to any of these, the first one being preferred. -/
  | fork (nexts : List Nat)
  /-- The rule ends. -/
  | finish
  deriving DecidableEq, Repr, Inhabited

/-- A place in the grammar: a node of a rule. -/
structure Place where
  rule : Rule
  offset : Nat
  deriving DecidableEq, Repr, Inhabited

namespace Place

/-- Places are ordered by rule, then by offset. Rules have fewer than 1024 nodes. -/
def key (p : Place) : Nat := p.rule.index * 1024 + p.offset

/-- Another place of the same rule. -/
def move (p : Place) (offset : Nat) : Place := { p with offset }

/-- Where a rule begins. -/
def start (r : Rule) : Place := ⟨r, 1⟩

end Place

namespace Piece

mutual

/-- Can the piece be passed without calling a rule? -/
def skirtsCalls : Piece → Bool
  | .nothing | .token _ | .oneOf _ | .guard _ => true
  | .call _ _ => false
  | .named _ p => p.skirtsCalls
  | .andThen p q => p.skirtsCalls && q.skirtsCalls
  | .choice alts => anySkirtsCalls alts
  | .optional _ => true
  | .many _ => true
  | .many1 alts => anySkirtsCalls alts

/-- Can one of the alternatives be passed without calling a rule? -/
def anySkirtsCalls : List Piece → Bool
  | [] => false
  | p :: ps => p.skirtsCalls || anySkirtsCalls ps

end

/-- Does the piece end with a token or a call, and not with a decision? -/
def endsPlainly : Piece → Bool
  | .token _ | .oneOf _ | .call _ _ => true
  | .named _ p => p.endsPlainly
  | .andThen _ q => q.endsPlainly
  | _ => false

/-- The room for a node behind the last token or call of an alternative. An alternative needs that
node exactly when a call must come before its last token or call; otherwise the last one leads
straight to where the alternatives meet. -/
def tail : Piece → Nat
  | .andThen p q => if p.skirtsCalls then q.tail else if q.endsPlainly then 1 else 0
  | .named _ p => p.tail
  | _ => 0

mutual

/-- How many nodes a piece takes. -/
def size : Piece → Nat
  | .nothing | .token _ | .oneOf _ | .call _ _ | .guard _ => 1
  | .named _ p => p.size
  | .andThen p q => p.size + q.size
  | .choice alts => 2 + sizes alts
  | .optional alts => 2 + sizes alts
  | .many alts => 5 + sizes alts
  | .many1 alts => 4 + sizes alts

/-- How many nodes alternatives take, their tails included. -/
def sizes : List Piece → Nat
  | [] => 0
  | p :: ps => p.size + p.tail + sizes ps

end

/-- Where the alternatives begin that are laid out from `base` on. -/
def starts (base : Nat) : List Piece → List Nat
  | [] => []
  | p :: ps => base :: starts (base + p.size + p.tail) ps

mutual

/-- The nodes of a piece laid out at `base` that leads on to `next`. -/
def wire (base next : Nat) : Piece → List Node
  | .nothing => [.fork [next]]
  | .token k => [.take (.single k) next]
  | .oneOf ks => [.take (.ofList ks) next]
  | .call r level => [.call r level next]
  | .guard level => [.guard level next]
  | .named _ p => p.wire base next
  | .andThen p q => p.wire base (base + p.size) ++ q.wire (base + p.size) next
  | .choice alts =>
    [.fork (starts (base + 2) alts), .fork [next]] ++ wires (base + 2) (base + 1) alts
  | .optional alts =>
    [.fork (starts (base + 2) alts ++ [base + 1]), .fork [next]] ++
      wires (base + 2) (base + 1) alts
  | .many alts =>
    [.fork [base + 1, base + 4], .fork (starts (base + 5) alts), .fork [base + 3], .fork [base],
      .fork [next]] ++ wires (base + 5) (base + 2) alts
  | .many1 alts =>
    [.fork (starts (base + 4) alts), .fork [base + 2], .fork [base, base + 3], .fork [next]] ++
      wires (base + 4) (base + 1) alts

/-- The nodes of alternatives laid out from `base` on that meet at `meet`. -/
def wires (base meet : Nat) : List Piece → List Node
  | [] => []
  | p :: ps =>
    (if p.tail = 0 then p.wire base meet else p.wire base (base + p.size) ++ [.fork [meet]]) ++
      wires (base + p.size + p.tail) meet ps

end

end Piece

namespace Body

/-- A right-hand side as one piece: the atoms, then any number of operators. -/
def piece : Body → Piece
  | .plain p => p
  | .operators atoms suffixes => .andThen (.choice atoms) (.many (suffixes.map Suffix.piece))

/-- The offset of the fork that applies one more operator or leaves the rule. -/
def operatorLoop? : Body → Option Nat
  | .plain _ => none
  | .operators atoms _ => some (1 + (Piece.choice atoms).size)

/-- The nodes of a rule. The rule ends at node 0 and begins at node 1. -/
def layout (b : Body) : List Node :=
  let p := b.piece
  if p.endsPlainly then .finish :: p.wire 1 (1 + p.size) ++ [.fork [0]]
  else .finish :: p.wire 1 0

end Body

end JavaOutline
