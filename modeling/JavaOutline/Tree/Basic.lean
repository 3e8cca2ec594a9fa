import JavaOutline.Grammar.Piece

/-!
# Syntax trees

One type of tree serves all rules: a node knows its rule and its children in order. The leaves are
tokens, and what a leaf holds of its token is left open, so that the parser can build trees over
positions in the token stream and never sees a token's text. Two kinds of leaves come from error
recovery: tokens that were skipped, and tokens that were assumed although they are missing.
-/

namespace JavaOutline

/-- A syntax tree whose leaves hold an `α` for each token. -/
inductive Tree (α : Type) where
  /-- A token where the grammar wants one, with its part in the parent. -/
  | token (role : Option Role) (a : α)
  /-- A token that was skipped. -/
  | skipped (a : α)
  /-- A token that was assumed. -/
  | missing (k : Kind)
  /-- A part of the input that a rule derives, with its part in the parent. -/
  | node (role : Option Role) (r : Rule) (children : List (Tree α))
  deriving Repr, Inhabited

namespace Tree

variable {α β : Type}

mutual

/-- Trees can be compared. -/
def decEq [DecidableEq α] : (s t : Tree α) → Decidable (s = t)
  | .token role a, .token role' a' => decidable_of_iff (role = role' ∧ a = a') (by simp)
  | .skipped a, .skipped a' => decidable_of_iff (a = a') (by simp)
  | .missing k, .missing k' => decidable_of_iff (k = k') (by simp)
  | .node role r ts, .node role' r' ts' =>
    have := decEqAll ts ts'
    decidable_of_iff (role = role' ∧ r = r' ∧ ts = ts') (by simp)
  | .token .., .skipped .. | .token .., .missing .. | .token .., .node .. => isFalse nofun
  | .skipped .., .token .. | .skipped .., .missing .. | .skipped .., .node .. => isFalse nofun
  | .missing .., .token .. | .missing .., .skipped .. | .missing .., .node .. => isFalse nofun
  | .node .., .token .. | .node .., .skipped .. | .node .., .missing .. => isFalse nofun

/-- Lists of trees can be compared. -/
def decEqAll [DecidableEq α] : (ss ts : List (Tree α)) → Decidable (ss = ts)
  | [], [] => isTrue rfl
  | s :: ss, t :: ts =>
    have := decEq s t
    have := decEqAll ss ts
    decidable_of_iff (s = t ∧ ss = ts) (by simp)
  | [], _ :: _ | _ :: _, [] => isFalse nofun

end

instance [DecidableEq α] : DecidableEq (Tree α) := decEq

mutual

/-- The same tree with something else at the leaves. -/
def map (f : α → β) : Tree α → Tree β
  | .token role a => .token role (f a)
  | .skipped a => .skipped (f a)
  | .missing k => .missing k
  | .node role r children => .node role r (mapAll f children)

/-- The same trees with something else at the leaves. -/
def mapAll (f : α → β) : List (Tree α) → List (Tree β)
  | [] => []
  | t :: ts => t.map f :: mapAll f ts

end

mutual

/-- What the leaves hold that are tokens of the input, from left to right. -/
def leaves : Tree α → List α
  | .token _ a => [a]
  | .skipped a => [a]
  | .missing _ => []
  | .node _ _ children => leavesAll children

/-- What the leaves of several trees hold. -/
def leavesAll : List (Tree α) → List α
  | [] => []
  | t :: ts => t.leaves ++ leavesAll ts

end

/-- The same tree in a named part of its parent. -/
def withRole (role : Role) : Tree α → Tree α
  | .token _ a => .token (some role) a
  | .node _ r children => .node (some role) r children
  | t => t

/-- The same trees, the last one in a named part of its parent. -/
def lastWithRole (role : Role) : List (Tree α) → List (Tree α)
  | [] => []
  | [t] => [t.withRole role]
  | t :: ts => t :: lastWithRole role ts

end Tree

end JavaOutline
