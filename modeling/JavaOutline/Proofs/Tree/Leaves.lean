import JavaOutline.Tree.Basic

/-!
# The leaves of a tree

`Tree.leaves` holds the tokens of the input that a tree covers. Some of them the grammar wants
(`Tree.terminals`), the others have been skipped. A tree that no error recovery has touched is
intact (`Tree.Intact`): it has neither skipped nor assumed tokens, so all its leaves are terminals.
-/

namespace JavaOutline

namespace Tree

variable {α β : Type}

mutual

/-- What the leaves hold that the grammar wants, from left to right. -/
def terminals : Tree α → List α
  | .token _ a => [a]
  | .skipped _ | .missing _ => []
  | .node _ _ children => terminalsAll children

/-- What the leaves of several trees hold that the grammar wants. -/
def terminalsAll : List (Tree α) → List α
  | [] => []
  | t :: ts => t.terminals ++ terminalsAll ts

end

mutual

/-- No token has been skipped or assumed in the tree. -/
def Intact : Tree α → Prop
  | .token _ _ => True
  | .skipped _ | .missing _ => False
  | .node _ _ children => IntactAll children

/-- No token has been skipped or assumed in the trees. -/
def IntactAll : List (Tree α) → Prop
  | [] => True
  | t :: ts => t.Intact ∧ IntactAll ts

end

@[simp] theorem leavesAll_nil : leavesAll ([] : List (Tree α)) = [] := rfl

@[simp] theorem leavesAll_cons (t : Tree α) (ts : List (Tree α)) :
    leavesAll (t :: ts) = t.leaves ++ leavesAll ts := rfl

@[simp] theorem leavesAll_append (ts us : List (Tree α)) :
    leavesAll (ts ++ us) = leavesAll ts ++ leavesAll us := by
  induction ts with
  | nil => rfl
  | cons t ts ih => simp [ih]

@[simp] theorem terminalsAll_nil : terminalsAll ([] : List (Tree α)) = [] := rfl

@[simp] theorem terminalsAll_cons (t : Tree α) (ts : List (Tree α)) :
    terminalsAll (t :: ts) = t.terminals ++ terminalsAll ts := rfl

@[simp] theorem terminalsAll_append (ts us : List (Tree α)) :
    terminalsAll (ts ++ us) = terminalsAll ts ++ terminalsAll us := by
  induction ts with
  | nil => rfl
  | cons t ts ih => simp [ih]

/-- `IntactAll` in the natural per-element form. -/
theorem intactAll_iff (ts : List (Tree α)) : IntactAll ts ↔ ∀ t ∈ ts, t.Intact := by
  induction ts with
  | nil => simp [IntactAll]
  | cons t ts ih => simp [IntactAll, ih]

@[simp] theorem leaves_withRole (role : Role) (t : Tree α) :
    (t.withRole role).leaves = t.leaves := by
  cases t <;> rfl

@[simp] theorem terminals_withRole (role : Role) (t : Tree α) :
    (t.withRole role).terminals = t.terminals := by
  cases t <;> rfl

@[simp] theorem intact_withRole (role : Role) (t : Tree α) :
    (t.withRole role).Intact ↔ t.Intact := by
  cases t <;> rfl

/-- A name for the last tree does not change the leaves. -/
@[simp] theorem leavesAll_lastWithRole (role : Role) (ts : List (Tree α)) :
    leavesAll (lastWithRole role ts) = leavesAll ts := by
  fun_induction lastWithRole role ts <;> simp_all

/-- A name for the last tree does not change the terminals. -/
@[simp] theorem terminalsAll_lastWithRole (role : Role) (ts : List (Tree α)) :
    terminalsAll (lastWithRole role ts) = terminalsAll ts := by
  fun_induction lastWithRole role ts <;> simp_all

/-- A name for the last tree leaves the trees intact. -/
@[simp] theorem intactAll_lastWithRole (role : Role) (ts : List (Tree α)) :
    IntactAll (lastWithRole role ts) ↔ IntactAll ts := by
  fun_induction lastWithRole role ts <;> simp_all [IntactAll]

mutual

/-- The leaves of a tree follow what is done to them. -/
theorem leaves_map (f : α → β) : ∀ t : Tree α, (t.map f).leaves = t.leaves.map f
  | .token _ _ | .skipped _ | .missing _ => rfl
  | .node _ _ children => leavesAll_mapAll f children

/-- The leaves of several trees follow what is done to them. -/
theorem leavesAll_mapAll (f : α → β) :
    ∀ ts : List (Tree α), leavesAll (mapAll f ts) = (leavesAll ts).map f
  | [] => rfl
  | t :: ts => by
    rw [mapAll, leavesAll_cons, leavesAll_cons, List.map_append, leaves_map f t,
      leavesAll_mapAll f ts]

end

mutual

/-- The terminals of a tree follow what is done to the leaves. -/
theorem terminals_map (f : α → β) : ∀ t : Tree α, (t.map f).terminals = t.terminals.map f
  | .token _ _ | .skipped _ | .missing _ => rfl
  | .node _ _ children => terminalsAll_mapAll f children

/-- The terminals of several trees follow what is done to the leaves. -/
theorem terminalsAll_mapAll (f : α → β) :
    ∀ ts : List (Tree α), terminalsAll (mapAll f ts) = (terminalsAll ts).map f
  | [] => rfl
  | t :: ts => by
    rw [mapAll, terminalsAll_cons, terminalsAll_cons, List.map_append, terminals_map f t,
      terminalsAll_mapAll f ts]

end

/-- `mapAll` is `map` on each tree. -/
theorem mapAll_eq_map (f : α → β) (ts : List (Tree α)) : mapAll f ts = ts.map (map f) := by
  induction ts with
  | nil => rfl
  | cons t ts ih => rw [mapAll, ih, List.map_cons]

mutual

/-- All leaves of an intact tree are terminals. -/
theorem Intact.leaves : ∀ {t : Tree α}, t.Intact → t.leaves = t.terminals
  | .token _ _, _ => rfl
  | .skipped _, h | .missing _, h => h.elim
  | .node _ _ _, h => IntactAll.leavesAll h

/-- All leaves of intact trees are terminals. -/
theorem IntactAll.leavesAll : ∀ {ts : List (Tree α)}, IntactAll ts → leavesAll ts = terminalsAll ts
  | [], _ => rfl
  | _ :: _, h => by
    rw [leavesAll_cons, terminalsAll_cons, Intact.leaves h.1, IntactAll.leavesAll h.2]

end

end Tree

end JavaOutline
