import JavaOutline.Grammar.Accessor
import JavaOutline.Tree.Text

/-!
# Asking a tree

`Tree.select` finds the children of a node that belong to a token or rule. Leaves that come from
error recovery count as well: an assumed token is a child of its kind. `Tree.ask` follows a whole
path of accessors by name, and says why a step fails.
-/

namespace JavaOutline

namespace Tree

/-- Does the tree belong to the token or rule? -/
def isA (a : Accessor) : Tree Token → Bool
  | .token _ t => a = .token t.kind
  | .skipped t => a = .token t.kind
  | .missing k => a = .token k
  | .node _ r _ => a = .rule r

/-- Those of the children that belong to a token or rule, in order. -/
def select (a : Accessor) (children : List (Tree Token)) : List (Tree Token) :=
  children.filter (isA a)

/-- The first child that belongs to a rule. -/
def child? (r : Rule) (children : List (Tree Token)) : Option (Tree Token) :=
  (select (.rule r) children).head?

/-- The children of a tree; a leaf has none. -/
def children : Tree Token → List (Tree Token)
  | .node _ _ children => children
  | _ => []

/-- The child that plays a named part. -/
def withRole? (role : Role) (children : List (Tree Token)) : Option (Tree Token) :=
  children.find? fun
    | .token r _ => r = some role
    | .node r _ _ => r = some role
    | _ => false

end Tree

/-- What has been found by asking a tree. -/
inductive Finding where
  | nothing
  | one (t : Tree Token)
  | several (ts : List (Tree Token))

/-- Why a tree cannot be asked. -/
inductive Refusal where
  /-- There is no such accessor here. -/
  | unknown
  /-- The accessor gives one child, which has no number. -/
  | unnumbered
  deriving DecidableEq, Repr, Inhabited

/-- One child at most, as a finding. -/
def Finding.ofOption : Option (Tree Token) → Finding
  | none => .nothing
  | some t => .one t

/-- Asks what has been found so far for the children by an accessor's name, or for one of them by
number. -/
def Finding.ask (f : Finding) (name : String) (index : Option Int) : Except Refusal Finding :=
  match f with
  | .one (.node _ r children) =>
    match r.accessor? name with
    | none => .error .unknown
    | some a =>
      let found := Tree.select a children
      match index, r.givesList a with
      | none, true => .ok (.several found)
      | none, false => .ok (.ofOption found.head?)
      | some i, true => .ok (if i < 0 then .nothing else .ofOption found[i.toNat]?)
      | some _, false => .error .unnumbered
  | _ => .error .unknown

/-- Follows a path of accessors from a tree on. -/
def Tree.ask (t : Tree Token) (path : List (String × Option Int)) : Except Refusal Finding :=
  path.foldlM (fun f (name, index) => f.ask name index) (.one t)

end JavaOutline
