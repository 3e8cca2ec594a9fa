import JavaOutline.Network.Basic

/-!
# Looking one token ahead

`Look` says what can come next from a place: the kinds of tokens, and whether the end of the rule
can be reached without any token. Where it can, what follows depends on the callers of the rule. If
they are known, the parser asks their places in turn; if not, every call of the rule in the whole
grammar counts (`followers`).

A decision is *direct* if one token settles it: no kind begins two of its alternatives, whoever the
callers are, and no alternative depends on a guard. Direct decisions only ask for the kind of the
next token; all others look ahead as far as they need.
-/

namespace JavaOutline

/-- What can come next. -/
structure Look where
  /-- The kinds of the next token. -/
  kinds : KindSet
  /-- Can the end of the rule be reached without a token? -/
  passes : Bool
  /-- Does any of this depend on a guard? -/
  guarded : Bool
  deriving DecidableEq, Repr, Inhabited

namespace Look

/-- Nothing can come next. -/
def none : Look := ⟨∅, false, false⟩

/-- What can come next in one of two ways. -/
def or (l m : Look) : Look := ⟨l.kinds ∪ m.kinds, l.passes || m.passes, l.guarded || m.guarded⟩

/-- What can come next from a place. The first argument bounds the number of nodes on the way; no
way without a token goes through a node twice. -/
def ofPlace (node : Place → Node) : Nat → Place → Look
  | 0, _ => none
  | n + 1, p =>
    match node p with
    | .take ks _ => ⟨ks, false, false⟩
    | .call r _ next =>
      let l := ofPlace node n (.start r)
      if l.passes then
        let m := ofPlace node n (p.move next)
        { l.or m with passes := m.passes }
      else l
    | .guard _ next => { ofPlace node n (p.move next) with guarded := true }
    | .fork nexts => nexts.foldl (fun l next => l.or (ofPlace node n (p.move next))) none
    | .finish => ⟨∅, true, false⟩

end Look

/-- A way back from a rule: the level it was called with, and the place behind the call. -/
structure Return where
  level : Nat
  place : Place
  deriving DecidableEq, Repr, Inhabited

/-- All the ways back from the rule `r`, given the layout of every rule. -/
def returnsOf (layout : Rule → List Node) (r : Rule) : List Return :=
  Rule.all.flatMap fun caller =>
    (layout caller).filterMap fun
      | .call callee level next => if callee = r then some ⟨level, ⟨caller, next⟩⟩ else none
      | _ => none

/-- The rules that can end where one of the rules `rs` ends, found by going from a rule to the
callers that it lets pass. The first argument bounds the number of rounds. -/
def enders (look : Place → Look) (returns : Rule → List Return) : Nat → List Rule → List Rule
  | 0, rs => rs
  | n + 1, rs =>
    let callers := rs.flatMap fun r =>
      ((returns r).filter fun ret => (look ret.place).passes).map (·.place.rule)
    let new := callers.eraseDups.filter fun r => !rs.contains r
    if new.isEmpty then rs else enders look returns n (rs ++ new)

/-- What can come after the rule `r`, whoever called it. -/
def followers (look : Place → Look) (returns : Rule → List Return) (r : Rule) : Look :=
  (enders look returns Rule.count [r]).foldl
    (fun l r => (returns r).foldl (fun l ret => l.or (look ret.place)) l) .none

/-- Are the sets pairwise disjoint? -/
def pairwiseDisjoint : List KindSet → Bool
  | [] => true
  | s :: ss => ss.all s.disjoint && pairwiseDisjoint ss

/-- The sets of kinds that settle the decision at a place, one for each way on, if it is direct. -/
def directSets (node : Place → Node) (look : Place → Look) (follow : Rule → Look) (p : Place) :
    Option (List KindSet) :=
  match node p with
  | .fork nexts =>
    let looks := nexts.map fun next =>
      let l := look (p.move next)
      if l.passes then l.or (follow p.rule) else l
    if looks.any (·.guarded) then none
    else
      let sets := looks.map (·.kinds)
      if pairwiseDisjoint sets then some sets else none
  | _ => none

/-- The network of a grammar, with everything that the parser asks of it. -/
structure Network where
  /-- The node at a place. -/
  node : Place → Node
  /-- What can come next from a place. -/
  look : Place → Look
  /-- The ways back from a rule. -/
  returns : Rule → List Return
  /-- The sets that settle the decision at a place, if it is direct. -/
  direct : Place → Option (List KindSet)
  /-- The fork of a rule that applies one more operator or leaves. -/
  operatorLoop? : Rule → Option Nat

namespace Network

/-- The network of a grammar. -/
def ofGrammar (body : Rule → Body) : Network :=
  let layout r := (body r).layout
  let node p := (layout p.rule).getD p.offset .finish
  let look := Look.ofPlace node 400
  let returns := returnsOf layout
  { node, look, returns
    direct := directSets node look (followers look returns)
    operatorLoop? := fun r => (body r).operatorLoop? }

/-- The values of a function on all rules, in the order of the rules. -/
def tabulate {α : Type} (f : Rule → α) : Array α := (Rule.all.map f).toArray

/-- The same network with all its answers written down, so that each is worked out only once. -/
def cached (N : Network) (layout : Rule → List Node) : Network :=
  let nodes := tabulate fun r => (layout r).toArray
  let node (p : Place) := (nodes.getD p.rule.index #[]).getD p.offset .finish
  let table {α : Type} (f : Place → α) : Array (Array α) :=
    tabulate fun r => (Array.range (layout r).length).map fun i => f ⟨r, i⟩
  let looks := table (Look.ofPlace node 400)
  let look (p : Place) := (looks.getD p.rule.index #[]).getD p.offset .none
  let returnTable := tabulate (returnsOf layout)
  let returns (r : Rule) := returnTable.getD r.index []
  let followTable := tabulate (followers look returns)
  let directTable := table (directSets node look fun r => followTable.getD r.index .none)
  let loops := tabulate N.operatorLoop?
  { node, look, returns
    direct := fun p => (directTable.getD p.rule.index #[]).getD p.offset none
    operatorLoop? := fun r => loops.getD r.index none }

/-- The network of the Java grammar. -/
def java : Network := (ofGrammar Rule.body).cached fun r => r.body.layout

end Network

end JavaOutline
