import JavaOutline.Proofs.Network.Wiring

/-!
# The network without its tables

The parser reads what it asks of the network from tables. A term that is evaluated by need has no
use for them: it looks for an entry again each time. But what it has found out about a term is kept.
`Network.plain` works out every answer when it is asked for, and lists the calls of the grammar only
once. It settles first which rule or place it is asked about, so that the same question is the same
term and is answered once (`Rule.settled`, `Place.settled`). The two are the same network
(`java_eq_plain`), so a run of the parser on given tokens can be evaluated with either.
-/

namespace JavaOutline

attribute [ext] Network

/-- The value of a function at a number that is evaluated first. -/
def settled {α : Type} (f : Nat → α) : Nat → α
  | 0 => f 0
  | n + 1 => f (n + 1)

theorem settled_eq {α : Type} (f : Nat → α) (n : Nat) : settled f n = f n := by
  cases n <;> rfl

/-- The value of a function at a rule that is evaluated first. -/
def Rule.settled {α : Type} (f : Rule → α) (r : Rule) : α :=
  JavaOutline.settled (fun n => f (.ofNat n)) r.index

theorem Rule.settled_eq {α : Type} (f : Rule → α) (r : Rule) : settled f r = f r := by
  rw [settled, JavaOutline.settled_eq]
  exact congrArg f (by cases r <;> rfl)

/-- The value of a function at a place that is evaluated first. -/
def Place.settled {α : Type} (f : Place → α) (p : Place) : α :=
  Rule.settled (fun r => JavaOutline.settled (fun n => f ⟨r, n⟩) p.offset) p.rule

theorem Place.settled_eq {α : Type} (f : Place → α) (p : Place) : settled f p = f p := by
  rw [settled, Rule.settled_eq, JavaOutline.settled_eq]

namespace Network

/-- All calls of the grammar: the rule that is called, and the way back from it. -/
def calls : List (Rule × Return) :=
  Rule.all.flatMap fun caller => caller.body.layout.filterMap fun
    | .call callee level next => some (callee, ⟨level, ⟨caller, next⟩⟩)
    | _ => none

/-- The network of the Java grammar without tables. -/
def plain : Network :=
  let node := Place.settled fun p => p.rule.body.layout.getD p.offset .finish
  let look := Place.settled fun p =>
    if p.rule.body.layout[p.offset]?.isSome then Look.ofPlace node 400 p else .none
  let returns := Rule.settled fun r => calls.filterMap fun c => if c.1 = r then some c.2 else none
  { node, look, returns
    direct := Place.settled (directSets node look (Rule.settled (followers look returns)))
    operatorLoop? := Rule.settled fun r => r.body.operatorLoop? }

theorem plain_node (p : Place) : plain.node p = p.rule.body.layout.getD p.offset .finish :=
  Place.settled_eq (fun p => p.rule.body.layout.getD p.offset .finish) p

theorem plain_direct (p : Place) :
    plain.direct p = directSets plain.node plain.look (followers plain.look plain.returns) p := by
  have hfollow : Rule.settled (followers plain.look plain.returns) =
      followers plain.look plain.returns := funext (Rule.settled_eq _)
  rw [← hfollow]
  exact Place.settled_eq _ p

theorem node_eq_plain : java.node = plain.node := by
  funext p
  rw [java_wired.node p, plain_node]

theorem look_eq_plain : java.look = plain.look := by
  funext p
  have hlook : java.look p =
      if p.offset < p.rule.body.layout.length then Look.ofPlace java.node 400 p else .none := by
    simp only [java, cached]
    exact table_getD _ _ _ _
  rw [hlook, node_eq_plain]
  simp [plain, Place.settled_eq]

theorem returns_eq_plain : java.returns = plain.returns := by
  funext r
  have hreturns : java.returns r = returnsOf (fun r => r.body.layout) r := by
    simp only [java, cached]
    exact tabulate_getD _ _ _
  rw [hreturns, returnsOf]
  simp only [plain, Rule.settled_eq, calls, List.filterMap_flatMap, List.filterMap_filterMap]
  refine congrArg (Rule.all.flatMap ·) (funext fun caller => ?_)
  refine congrArg (caller.body.layout.filterMap ·) (funext fun n => ?_)
  cases n <;> rfl

theorem direct_eq_plain : java.direct = plain.direct := by
  funext p
  have hdirect : java.direct p = if p.offset < p.rule.body.layout.length then
      directSets java.node java.look (followers java.look java.returns) p else none := by
    have hfollow (r : Rule) := tabulate_getD (followers java.look java.returns) r .none
    simp only [java, cached] at hfollow
    simp only [java, cached]
    rw [table_getD]
    simp only [hfollow]
  have houtside : ¬p.offset < p.rule.body.layout.length → plain.node p = .finish := by
    intro h
    rw [plain_node, List.getD_eq_getElem?_getD, List.getElem?_eq_none (Nat.le_of_not_lt h)]
    rfl
  rw [hdirect, node_eq_plain, look_eq_plain, returns_eq_plain, plain_direct]
  split
  · rfl
  · rename_i h
    rw [directSets, houtside h]

theorem operatorLoop?_eq_plain : java.operatorLoop? = plain.operatorLoop? := by
  funext r
  simp only [java, cached, plain, Rule.settled_eq]
  exact tabulate_getD _ _ _

/-- The tables make no difference. -/
theorem java_eq_plain : java = plain :=
  Network.ext node_eq_plain look_eq_plain returns_eq_plain direct_eq_plain operatorLoop?_eq_plain

end Network

end JavaOutline
