import JavaOutline.Network.Basic

/-!
# Sets of return stacks

While it looks ahead, the parser follows many ways through the network at once. Ways that have come
to the same node differ only in the places to which the rules they are in will return. `Stacks` is a
set of such stacks of return places, kept as a trie: stacks with the same top share one branch, and
branches are ordered by their tops, so that equal sets are equal values.

The empty stack stands for the unknown callers of the rule in which looking ahead began, or, if all
callers are known, for the end of the parse. In the first case nothing is known about what it stands
for, so a set that has it is not told apart from the set of the empty stack alone; `merge` is told
which case it is in.
-/

namespace JavaOutline

/-- A set of stacks of return places. -/
inductive Stacks where
  /-- No stack. -/
  | none
  /-- The empty stack alone. -/
  | bottom
  /-- The stacks of `below` with `ret` pushed, and the stacks of `others`, whose tops come after
  `ret`. -/
  | branch (ret : Place) (below others : Stacks)
  deriving DecidableEq, Repr, Inhabited

namespace Stacks

/-- Does the set have the empty stack? -/
def hasBottom : Stacks → Bool
  | .none => false
  | .bottom => true
  | .branch _ _ others => others.hasBottom

/-- The tops of the stacks, each with the stacks below it. -/
def tops : Stacks → List (Place × Stacks)
  | .none | .bottom => []
  | .branch ret below others => (ret, below) :: others.tops

/-- All stacks of the set with one more return place on top. -/
def push (ret : Place) (s : Stacks) : Stacks := .branch ret s .none

/-- The set of one stack, given from its top. -/
def ofList : List Place → Stacks
  | [] => .bottom
  | ret :: rest => push ret (ofList rest)

/-- The set with the empty stack added. -/
def addBottom : Stacks → Stacks
  | .none | .bottom => .bottom
  | .branch ret below others => .branch ret below others.addBottom

/-- The set with the stacks of `below` with `ret` pushed added, where `join` adds `below` to the
stacks that are already below `ret`. -/
def addBranch (ret : Place) (below : Stacks) (join : Stacks → Stacks) : Stacks → Stacks
  | .none => .branch ret below .none
  | .bottom => .branch ret below .bottom
  | .branch ret' below' others =>
    if ret = ret' then .branch ret (join below') others
    else if ret.key < ret'.key then .branch ret below (.branch ret' below' others)
    else .branch ret' below' (addBranch ret below join others)

/-- The union of two sets. If `wild`, a set with the empty stack is the set of the empty stack
alone. -/
def merge (wild : Bool) : Stacks → Stacks → Stacks
  | .none, t => t
  | .bottom, t => if wild then .bottom else t.addBottom
  | .branch ret below others, t =>
    if wild && t.hasBottom then .bottom
    else addBranch ret below (merge wild below) (merge wild others t)

end Stacks

end JavaOutline
