import JavaOutline.Proofs.Network.Looking
import JavaOutline.Tree.Text

/-!
# Trees from the lines of a walk

The lines of a walk show the outline of a tree (`Tree.shape`): the rules of its nodes, the texts of its
leaves, and which leaves are faulty. Nothing of that is lost. Every line can be read back
(`Mark.ofLine?_line`), and a tree is rebuilt line by line: a node that has been entered waits for its
children until it is left (`Workbench.step`). A walk leaves the nodes that wait as they are and adds
the shape of the tree to what is finished (`Workbench.run_marks`).

A walk is balanced (`Balanced`), and has one pair of lines for each node and one line for each leaf.
-/

namespace JavaOutline

/-! ## Lines of events -/

/-- The rule whose name is written like this behind a verb. -/
def Rule.ofTitle? (s : List Char) : Option Rule := Rule.all.find? fun r => r.title == s

theorem Rule.ofTitle?_title (r : Rule) : Rule.ofTitle? r.title = some r := by
  have hall : ∀ r ∈ Rule.all, Rule.ofTitle? r.title = some r := by decide +kernel
  exact hall r r.mem_all

namespace Mark

/-- The event with this line. -/
def ofLine? : List Char → Option Mark
  | 'T' :: ' ' :: text => some (.leaf false text)
  | 'E' :: ' ' :: text => some (.leaf true text)
  | 'e' :: 'n' :: 't' :: 'e' :: 'r' :: title => (Rule.ofTitle? title).map .enter
  | 'e' :: 'x' :: 'i' :: 't' :: title => (Rule.ofTitle? title).map .leave
  | _ => none

/-- Every line can be read back. -/
theorem ofLine?_line (m : Mark) : ofLine? m.line = some m := by
  cases m with
  | enter r =>
    change (Rule.ofTitle? r.title).map enter = _
    rw [Rule.ofTitle?_title, Option.map_some]
  | leave r =>
    change (Rule.ofTitle? r.title).map leave = _
    rw [Rule.ofTitle?_title, Option.map_some]
  | leaf faulty text => cases faulty <;> rfl

/-- Is this a line of a node that is entered? -/
def enters (line : List Char) : Bool := "enter".toList.isPrefixOf line

/-- Is this a line of a node that is left? -/
def leaves (line : List Char) : Bool := "exit".toList.isPrefixOf line

/-- Is this a line of a leaf? -/
def isLeaf (line : List Char) : Bool := "T ".toList.isPrefixOf line || "E ".toList.isPrefixOf line

variable (r : Rule) (faulty : Bool) (text : List Char)

@[simp] theorem enters_enter : enters (enter r).line = true := rfl

@[simp] theorem enters_leave : enters (leave r).line = false := rfl

@[simp] theorem enters_leaf : enters (leaf faulty text).line = false := by cases faulty <;> rfl

@[simp] theorem leaves_enter : leaves (enter r).line = false := rfl

@[simp] theorem leaves_leave : leaves (leave r).line = true := rfl

@[simp] theorem leaves_leaf : leaves (leaf faulty text).line = false := by cases faulty <;> rfl

@[simp] theorem isLeaf_enter : isLeaf (enter r).line = false := rfl

@[simp] theorem isLeaf_leave : isLeaf (leave r).line = false := rfl

@[simp] theorem isLeaf_leaf : isLeaf (leaf faulty text).line = true := by cases faulty <;> rfl

end Mark

/-! ## Walks -/

/-- Every node that is entered is left again before the node around it is, and what is left is the node
that has been entered last. -/
inductive Balanced : List (List Char) → Prop where
  | nil : Balanced []
  | leaf (faulty : Bool) (text : List Char) {rest : List (List Char)} (next : Balanced rest) :
      Balanced ((Mark.leaf faulty text).line :: rest)
  | node (r : Rule) {inner rest : List (List Char)} (children : Balanced inner)
      (next : Balanced rest) :
      Balanced ((Mark.enter r).line :: (inner ++ (Mark.leave r).line :: rest))

theorem Balanced.append {ls ls' : List (List Char)} (h : Balanced ls) (h' : Balanced ls') :
    Balanced (ls ++ ls') := by
  induction h with
  | nil => exact h'
  | leaf faulty text _ ih => exact .leaf faulty text ih
  | node r children _ _ ih =>
    rw [List.cons_append, List.append_assoc, List.cons_append]
    exact .node r children ih

/-- What the lines of a walk show of a tree. -/
inductive Shape where
  | leaf (faulty : Bool) (text : List Char)
  | node (r : Rule) (children : List Shape)

namespace Tree

mutual

/-- The shape of a tree. -/
def shape : Tree Token → Shape
  | .token _ t => .leaf false t.text
  | .skipped t => .leaf true t.text
  | .missing k => .leaf true k.missingText
  | .node _ r children => .node r (shapeAll children)

/-- The shapes of several trees. -/
def shapeAll : List (Tree Token) → List Shape
  | [] => []
  | t :: ts => t.shape :: shapeAll ts

end

mutual

/-- All leaves of a tree, from left to right. -/
def fringe : Tree Token → List Mark
  | .token _ t => [.leaf false t.text]
  | .skipped t => [.leaf true t.text]
  | .missing k => [.leaf true k.missingText]
  | .node _ _ children => fringeAll children

/-- All leaves of several trees. -/
def fringeAll : List (Tree Token) → List Mark
  | [] => []
  | t :: ts => t.fringe ++ fringeAll ts

end

/-- The lines of a walk through several trees. -/
def linesAll (ts : List (Tree Token)) : List (List Char) :=
  (visitsAll ts).map fun v => v.event.mark.line

section
variable (role : Option Role) (a : Token) (k : Kind) (r : Rule) (t : Tree Token)
  (ts : List (Tree Token))

theorem lines_token : (token role a).lines = [(Mark.leaf false a.text).line] := rfl

theorem lines_skipped : (skipped a).lines = [(Mark.leaf true a.text).line] := rfl

theorem lines_missing : (missing k : Tree Token).lines = [(Mark.leaf true k.missingText).line] := rfl

theorem lines_node :
    (node role r ts).lines = (Mark.enter r).line :: (linesAll ts ++ [(Mark.leave r).line]) := by
  simp only [lines, events, visits, linesAll, List.cons_append, List.map_cons, List.map_append,
    List.map_map, List.map_nil]
  rfl

theorem linesAll_cons : linesAll (t :: ts) = t.lines ++ linesAll ts := by
  simp only [lines, events, visitsAll, linesAll, List.map_append, List.map_map]
  rfl

theorem filter_lines_node (p : List Char → Bool) :
    (node role r ts).lines.filter p = [(Mark.enter r).line].filter p ++
      ((linesAll ts).filter p ++ [(Mark.leave r).line].filter p) := by
  rw [lines_node, ← List.singleton_append, List.filter_append, List.filter_append]

end

mutual

/-- A walk is balanced. -/
theorem balanced_lines : ∀ t : Tree Token, Balanced t.lines
  | .token _ a => .leaf false a.text .nil
  | .skipped a => .leaf true a.text .nil
  | .missing k => .leaf true k.missingText .nil
  | .node role r children => by
    rw [lines_node]
    exact .node r (balanced_linesAll children) .nil

theorem balanced_linesAll : ∀ ts : List (Tree Token), Balanced (linesAll ts)
  | [] => .nil
  | t :: ts => by
    rw [linesAll_cons]
    exact (balanced_lines t).append (balanced_linesAll ts)

end

mutual

/-- The nodes are entered one after the other. -/
theorem lines_filter_enters : ∀ t : Tree Token,
    t.lines.filter Mark.enters = t.nodes.map fun n => (Mark.enter n.1).line
  | .token _ _ | .skipped _ | .missing _ => rfl
  | .node role r children => by
    simp [filter_lines_node, nodes, List.filter_singleton, linesAll_filter_enters children]

theorem linesAll_filter_enters : ∀ ts : List (Tree Token),
    (linesAll ts).filter Mark.enters = (nodesAll ts).map fun n => (Mark.enter n.1).line
  | [] => rfl
  | t :: ts => by
    rw [linesAll_cons, List.filter_append, lines_filter_enters t, linesAll_filter_enters ts,
      nodesAll, List.map_append]

end

mutual

/-- Every node is left once. -/
theorem lines_filter_leaves : ∀ t : Tree Token,
    (t.lines.filter Mark.leaves).Perm (t.nodes.map fun n => (Mark.leave n.1).line)
  | .token _ _ | .skipped _ | .missing _ => .nil
  | .node role r children => by
    simp only [filter_lines_node, nodes, List.filter_singleton, Mark.leaves_enter,
      Mark.leaves_leave, cond_true, cond_false, List.nil_append, List.map_cons]
    exact List.perm_append_comm.trans ((linesAll_filter_leaves children).cons _)

theorem linesAll_filter_leaves : ∀ ts : List (Tree Token),
    ((linesAll ts).filter Mark.leaves).Perm ((nodesAll ts).map fun n => (Mark.leave n.1).line)
  | [] => .nil
  | t :: ts => by
    rw [linesAll_cons, List.filter_append, nodesAll, List.map_append]
    exact (lines_filter_leaves t).append (linesAll_filter_leaves ts)

end

mutual

/-- The leaves are met from left to right. -/
theorem lines_filter_isLeaf : ∀ t : Tree Token,
    t.lines.filter Mark.isLeaf = t.fringe.map Mark.line
  | .token _ _ | .skipped _ | .missing _ => rfl
  | .node role r children => by
    simp [filter_lines_node, fringe, linesAll_filter_isLeaf children]

theorem linesAll_filter_isLeaf : ∀ ts : List (Tree Token),
    (linesAll ts).filter Mark.isLeaf = (fringeAll ts).map Mark.line
  | [] => rfl
  | t :: ts => by
    rw [linesAll_cons, List.filter_append, lines_filter_isLeaf t, linesAll_filter_isLeaf ts,
      fringeAll, List.map_append]

end

end Tree

/-! ## Rebuilding -/

/-- A tree that is being rebuilt. -/
structure Workbench where
  /-- The finished parts of the node that has been entered last. -/
  finished : List Shape
  /-- The nodes that have not been left yet, the last one first, with what comes before them. -/
  waiting : List (Rule × List Shape)

namespace Workbench

/-- What an event does to a tree that is being rebuilt. -/
def step (w : Workbench) : Mark → Option Workbench
  | .leaf faulty text => some { w with finished := w.finished ++ [.leaf faulty text] }
  | .enter r => some ⟨[], (r, w.finished) :: w.waiting⟩
  | .leave r =>
    match w.waiting with
    | [] => none
    | (r', before) :: waiting =>
      if r = r' then some ⟨before ++ [.node r w.finished], waiting⟩ else none

/-- What a line does to a tree that is being rebuilt. -/
def read (w : Workbench) (line : List Char) : Option Workbench := (Mark.ofLine? line).bind w.step

theorem read_line (w : Workbench) (m : Mark) : w.read m.line = w.step m := by
  rw [read, Mark.ofLine?_line, Option.bind_some]

mutual

/-- A walk leaves the nodes that wait as they are, and finishes the tree. -/
theorem read_lines : ∀ (t : Tree Token) (w : Workbench),
    t.lines.foldlM read w = some { w with finished := w.finished ++ [t.shape] }
  | .token _ a, w => by
    rw [Tree.lines_token, List.foldlM_cons, read_line]
    rfl
  | .skipped a, w => by
    rw [Tree.lines_skipped, List.foldlM_cons, read_line]
    rfl
  | .missing k, w => by
    rw [Tree.lines_missing, List.foldlM_cons, read_line]
    rfl
  | .node role r children, w => by
    simp only [Tree.lines_node, List.foldlM_cons, List.foldlM_append, read_line, step,
      Option.bind_eq_bind, Option.bind_some, read_linesAll children, List.nil_append, if_true,
      List.foldlM_nil, Tree.shape]
    rfl

theorem read_linesAll : ∀ (ts : List (Tree Token)) (w : Workbench),
    (Tree.linesAll ts).foldlM read w =
      some { w with finished := w.finished ++ Tree.shapeAll ts }
  | [], w => by
    rw [Tree.shapeAll, List.append_nil]
    rfl
  | t :: ts, w => by
    rw [Tree.linesAll_cons, List.foldlM_append, read_lines t w, Option.bind_eq_bind,
      Option.bind_some, read_linesAll ts, List.append_assoc, Tree.shapeAll, List.singleton_append]

end

end Workbench

/-- The shape of the tree whose walk has these lines. -/
def rebuild? (lines : List (List Char)) : Option Shape :=
  match lines.foldlM Workbench.read ⟨[], []⟩ with
  | some ⟨[s], []⟩ => some s
  | _ => none

theorem rebuild?_lines (t : Tree Token) : rebuild? t.lines = some t.shape := by
  rw [rebuild?, Workbench.read_lines]
  rfl

/-- **A walk determines the tree.** Its lines are balanced, with one pair of lines for each node; the
lines of leaves are those of the leaves of the tree, in order; and the shape of the tree can be rebuilt
from the lines. So trees whose walks have the same lines have the same shape. -/
theorem walk_determines_shape (t : Tree Token) :
    Balanced t.lines ∧
    t.lines.filter Mark.enters = (t.nodes.map fun n => (Mark.enter n.1).line) ∧
    (t.lines.filter Mark.leaves).Perm (t.nodes.map fun n => (Mark.leave n.1).line) ∧
    t.lines.filter Mark.isLeaf = t.fringe.map Mark.line ∧
    rebuild? t.lines = some t.shape ∧
    ∀ u : Tree Token, u.lines = t.lines → u.shape = t.shape := by
  refine ⟨t.balanced_lines, t.lines_filter_enters, t.lines_filter_leaves, t.lines_filter_isLeaf,
    rebuild?_lines t, fun u hu => ?_⟩
  have hsame : some u.shape = some t.shape := by
    rw [← rebuild?_lines u, ← rebuild?_lines t, hu]
  exact Option.some.inj hsame

end JavaOutline
