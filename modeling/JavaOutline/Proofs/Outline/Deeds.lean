import JavaOutline.Outline.File
import JavaOutline.Proofs.Grammar.Children

/-!
# What a walk does to an outline

Each step of a walk reads something from a node and does something to the outline. The two are mixed
in `Outline.step`, because a member of an ignored class is not even read. This file separates them:
`Deed.read` reads a node without knowing the outline, and `Outline.perform` does what has been read.
A class with its members is one deed if it is ignored (`Deed.passIgnored`), since all that remains of
it is that the level is lower behind it than before.

`Tree.deeds` lists the deeds of a tree in the order of the walk. If all nodes can be read and no
ignored class has a class inside, the walk does just these (`Outline.run_visits`).
-/

namespace JavaOutline

/-- The lists that members are kept in. -/
inductive Shelf where
  | staticFields | fields | staticMethods | methods
  deriving DecidableEq, Repr, Inhabited

/-- A member as it is listed, with the list that it belongs to. -/
structure Member where
  shelf : Shelf
  entry : List Char
  deriving DecidableEq, Repr, Inhabited

/-- What one part of a tree does to an outline. -/
inductive Deed where
  /-- A package is announced, unless it has been announced before. -/
  | announce (name : List Char)
  /-- A class begins. -/
  | openClass (name extended implemented : List Char)
  /-- Members are collected. -/
  | add (members : List Member)
  /-- A class ends. -/
  | closeClass
  /-- A class is ignored from its beginning to its end. -/
  | passIgnored
  deriving DecidableEq, Repr, Inhabited

namespace Deed

/-- Reads a class: its first line, unless it is to be ignored. -/
def readClass (children : List (Tree Token)) : Except Question Deed := do
  let name ← childText .identifier children
  let implemented :=
    if (Tree.select (.token .kwImplements) children).isEmpty then []
    else " implements ".toList ++
      commaSeparated ((Tree.select (.rule .typeList) children).map Tree.text)
  if (Tree.select (.token .kwExtends) children).isEmpty then
    return .openClass name [] implemented
  else
    let extended ← childText .typeType children
    if Outline.isErrorName extended then return .passIgnored
    else return .openClass name (" extends ".toList ++ extended) implemented

/-- The fields with these names, those left out that are not listed. -/
def fieldMembers (shelf : Shelf) (type : List Char) (names : List (List Char)) : List Member :=
  (names.filter fun name => !Outline.hiddenFields.contains name).map fun name =>
    ⟨shelf, type ++ ' ' :: name⟩

theorem fieldMembers_cons (shelf : Shelf) (type name : List Char) (names : List (List Char)) :
    fieldMembers shelf type (name :: names) =
      fieldMembers shelf type [name] ++ fieldMembers shelf type names := by
  simp only [fieldMembers, List.filter_cons, List.filter_nil]
  split <;> rfl

/-- Reads the fields of a declaration. -/
def readFields (children : List (Tree Token)) : Except Question (List Member) := do
  let type ← childText .typeType children
  let isStatic := occursIn "static".toList (Tree.textAll children)
  match Tree.child? .variableDeclarators children with
  | none => throw .declarators
  | some list =>
    let names ← (Tree.select (.rule .variableDeclarator) list.children).mapM fun d =>
      childText .variableDeclaratorId d.children
    return fieldMembers (if isStatic then .staticFields else .fields) type names

/-- Reads a method, which is a member if its text says that it is public. -/
def readMethod (children : List (Tree Token)) : Except Question (List Member) := do
  let name ← childText .identifier children
  if Outline.hiddenMethods.contains name then return []
  let result ← childText .typeTypeOrVoid children
  let entry := signature (result ++ ' ' :: name) (← parameters children)
  let text := Tree.textAll children
  if !occursIn "public".toList text then return []
  else return [⟨if occursIn "static".toList text then .staticMethods else .methods, entry⟩]

/-- Reads a constructor. -/
def readConstructor (children : List (Tree Token)) : Except Question (List Member) := do
  let name ← childText .identifier children
  return [⟨.methods, signature name (← parameters children)⟩]

/-- Reads a node, if the outline takes part in entering it. -/
def read (r : Rule) (children : List (Tree Token)) : Except Question (Option Deed) :=
  match r with
  | .packageDeclaration => (childText .qualifiedName children).map (some ∘ announce)
  | .classDeclaration => (readClass children).map some
  | .fieldDeclaration => (readFields children).map (some ∘ add)
  | .methodDeclaration => (readMethod children).map (some ∘ add)
  | .constructorDeclaration => (readConstructor children).map (some ∘ add)
  | _ => .ok none

/-- The node can be read, and if it is an ignored class then there is no class and no package
inside. -/
def Orderly (n : Rule × List (Tree Token)) : Prop :=
  ∃ d, read n.1 n.2 = .ok d ∧ (d = some .passIgnored →
    ∀ m ∈ Tree.nodesAll n.2, m.1 ≠ .classDeclaration ∧ m.1 ≠ .packageDeclaration)

end Deed

namespace Outline

/-- Announces a package by its name. -/
def announce (o : Outline) (name : List Char) : Outline :=
  if o.packages.contains name then o
  else { o.write ("# Package ".toList ++ name ++ ['\n']) with packages := o.packages ++ [name] }

/-- Collects a member. -/
def addMember (o : Outline) (m : Member) : Outline :=
  match m.shelf with
  | .staticFields => { o with staticFields := o.staticFields ++ [m.entry] }
  | .fields => { o with fields := o.fields ++ [m.entry] }
  | .staticMethods => { o with staticMethods := o.staticMethods ++ [m.entry] }
  | .methods => { o with methods := o.methods ++ [m.entry] }

/-- Does what has been read. -/
def perform (methodsOnly : Bool) (o : Outline) : Deed → Outline
  | .announce name => o.announce name
  | .openClass name extended implemented =>
    (o.setIgnored false).writeClass name extended implemented
  | .add members => if o.ignores then o else members.foldl addMember o
  | .closeClass => o.leaveClass methodsOnly
  | .passIgnored => { (o.setIgnored false).setIgnored true with level := o.level - 1 }

/-- Begins to do what has been read: of an ignored class only the beginning is met. -/
def begin (methodsOnly : Bool) (o : Outline) : Option Deed → Outline
  | none => o
  | some .passIgnored => (o.setIgnored false).setIgnored true
  | some d => o.perform methodsOnly d

/-- Does all that has been read, from left to right. -/
def performAll (methodsOnly : Bool) (o : Outline) (ds : List Deed) : Outline :=
  ds.foldl (perform methodsOnly) o

end Outline

namespace Tree

mutual

/-- The deeds of a tree, in the order of a walk. What is inside an ignored class is left out. -/
def deeds : Tree Token → List Deed
  | .node _ r children =>
    match Deed.read r children with
    | .ok (some .passIgnored) => [.passIgnored]
    | .ok (some (.openClass name extended implemented)) =>
      .openClass name extended implemented :: deedsAll children ++ [.closeClass]
    | .ok (some d) => d :: deedsAll children
    | _ => deedsAll children
  | _ => []

/-- The deeds of several trees. -/
def deedsAll : List (Tree Token) → List Deed
  | [] => []
  | t :: ts => t.deeds ++ deedsAll ts

end

end Tree

/-! ## Steps of a walk -/

section
variable {ε α β : Type} {x : Except ε α} {f : α → Except ε β} {a : α} {b : β}

/-- What is computed from a first result has that result. -/
theorem exists_of_bind_ok (h : (x >>= f) = .ok b) : ∃ a, x = .ok a ∧ f a = .ok b := by
  cases x with
  | error e => cases h
  | ok a => exact ⟨a, rfl, h⟩

theorem exists_of_map_ok {g : α → β} (h : x.map g = .ok b) : ∃ a, x = .ok a ∧ g a = b := by
  cases x with
  | error e => cases h
  | ok a => exact ⟨a, rfl, by injection h⟩

theorem bind_of_ok (h : x = .ok a) : (x >>= f) = f a := by
  rw [h]
  rfl

end

namespace Outline

variable {o : Outline} {children : List (Tree Token)} {methodsOnly : Bool}

/-- A class that has been read is ignored or begins. -/
theorem enterClass_of_read {d : Deed} (h : Deed.readClass children = .ok d) :
    d = .passIgnored ∧ o.enterClass children = .ok ((o.setIgnored false).setIgnored true) ∨
      ∃ name extended implemented, d = .openClass name extended implemented ∧
        o.enterClass children = .ok ((o.setIgnored false).writeClass name extended implemented) := by
  obtain ⟨name, hname, h⟩ := exists_of_bind_ok h
  unfold enterClass
  rw [bind_of_ok hname]
  dsimp only at h ⊢
  split at h
  · rename_i hextends
    cases h
    exact .inr ⟨_, _, _, rfl, if_pos hextends⟩
  · rename_i hextends
    obtain ⟨extended, htype, h⟩ := exists_of_bind_ok h
    rw [if_neg hextends, bind_of_ok htype]
    split at h
    · rename_i herror
      cases h
      exact .inl ⟨rfl, if_pos herror⟩
    · rename_i herror
      cases h
      exact .inr ⟨_, _, _, rfl, if_neg herror⟩

/-- A declarator adds its field, unless that is not listed. -/
theorem addField_of_name {type name : List Char} {isStatic : Bool} {d : Tree Token}
    (h : childText .variableDeclaratorId d.children = .ok name) :
    o.addField type isStatic d =
      .ok ((Deed.fieldMembers (if isStatic then .staticFields else .fields) type [name]).foldl
        addMember o) := by
  unfold addField
  rw [bind_of_ok h]
  simp only [pure, Except.pure, Deed.fieldMembers, List.filter_cons, List.filter_nil]
  cases hiddenFields.contains name with
  | true => rfl
  | false => cases isStatic <;> rfl

/-- The fields of a declaration are collected one after the other. -/
theorem foldlM_addField {type : List Char} {isStatic : Bool} {declarators : List (Tree Token)}
    {names : List (List Char)} (h : (declarators.mapM fun d : Tree Token =>
      childText .variableDeclaratorId d.children) = .ok names) :
    declarators.foldlM (addField type isStatic) o =
      .ok ((Deed.fieldMembers (if isStatic then .staticFields else .fields) type names).foldl
        addMember o) := by
  induction declarators generalizing o names with
  | nil =>
    cases h
    rfl
  | cons d ds ih =>
    rw [List.mapM_cons] at h
    obtain ⟨name, hname, h⟩ := exists_of_bind_ok h
    obtain ⟨rest, hrest, h⟩ := exists_of_bind_ok h
    obtain rfl : name :: rest = names := by injection h
    rw [List.foldlM_cons, bind_of_ok (addField_of_name hname), Deed.fieldMembers_cons _ _ name rest,
      List.foldl_append]
    exact ih hrest

/-- Fields that have been read are collected. -/
theorem enterField_of_read {members : List Member} (ho : o.ignores = false)
    (h : Deed.readFields children = .ok members) :
    o.enterField children = .ok (members.foldl addMember o) := by
  obtain ⟨type, htype, h⟩ := exists_of_bind_ok h
  unfold enterField
  rw [if_neg (by simp [ho]), bind_of_ok htype]
  cases hlist : Tree.child? .variableDeclarators children with
  | none =>
    rw [hlist] at h
    cases h
  | some list =>
    rw [hlist] at h
    obtain ⟨names, hnames, h⟩ := exists_of_bind_ok h
    cases h
    exact foldlM_addField hnames

/-- A method that has been read is collected. -/
theorem enterMethod_of_read {members : List Member} (ho : o.ignores = false)
    (h : Deed.readMethod children = .ok members) :
    o.enterMethod children = .ok (members.foldl addMember o) := by
  obtain ⟨name, hname, h⟩ := exists_of_bind_ok h
  unfold enterMethod
  rw [if_neg (by simp [ho]), bind_of_ok hname]
  split at h
  · rename_i hhidden
    cases h
    exact if_pos hhidden
  · rename_i hhidden
    obtain ⟨result, hresult, h⟩ := exists_of_bind_ok h
    obtain ⟨ps, hps, h⟩ := exists_of_bind_ok h
    rw [if_neg hhidden, bind_of_ok hresult, bind_of_ok hps]
    dsimp only at h ⊢
    split at h
    · rename_i hpublic
      cases h
      exact if_pos hpublic
    · rename_i hpublic
      cases h
      rw [if_neg hpublic]
      cases occursIn "static".toList (Tree.textAll children) <;> rfl

/-- A constructor that has been read is collected. -/
theorem enterConstructor_of_read {members : List Member} (ho : o.ignores = false)
    (h : Deed.readConstructor children = .ok members) :
    o.enterConstructor children = .ok (members.foldl addMember o) := by
  obtain ⟨name, hname, h⟩ := exists_of_bind_ok h
  obtain ⟨ps, hps, h⟩ := exists_of_bind_ok h
  cases h
  unfold enterConstructor
  rw [if_neg (by simp [ho]), bind_of_ok hname, bind_of_ok hps]
  rfl

theorem enterPackage_of_read {name : List Char} (h : childText .qualifiedName children = .ok name) :
    o.enterPackage children = .ok (o.announce name) := by
  unfold enterPackage announce
  rw [bind_of_ok h]
  split <;> rfl

/-- Members are collected unless classes are ignored. -/
theorem eq_unless_ignores {members : List Member} {entered : Except Question Outline}
    (hignores : o.ignores = true → entered = .ok o)
    (hcollects : o.ignores = false → entered = .ok (members.foldl addMember o)) :
    entered = .ok (if o.ignores then o else members.foldl addMember o) := by
  cases ho : o.ignores with
  | true => exact hignores ho
  | false => exact hcollects ho

/-- Entering a node that has been read begins what has been read. -/
theorem step_of_read {r : Rule} {d : Option Deed} (h : Deed.read r children = .ok d) :
    o.step methodsOnly (.enter r children) = .ok (o.begin methodsOnly d) := by
  unfold Deed.read at h
  split at h
  · obtain ⟨name, hname, rfl⟩ := exists_of_map_ok h
    exact enterPackage_of_read hname
  · obtain ⟨d, hd, rfl⟩ := exists_of_map_ok h
    rcases enterClass_of_read hd with ⟨rfl, henter⟩ | ⟨name, extended, implemented, rfl, henter⟩
    · exact henter
    · exact henter
  · obtain ⟨members, hmembers, rfl⟩ := exists_of_map_ok h
    exact eq_unless_ignores (fun ho => if_pos ho) fun ho => enterField_of_read ho hmembers
  · obtain ⟨members, hmembers, rfl⟩ := exists_of_map_ok h
    exact eq_unless_ignores (fun ho => if_pos ho) fun ho => enterMethod_of_read ho hmembers
  · obtain ⟨members, hmembers, rfl⟩ := exists_of_map_ok h
    exact eq_unless_ignores (fun ho => if_pos ho) fun ho => enterConstructor_of_read ho hmembers
  · cases h
    unfold step
    split <;> simp_all [begin]

/-- Only the end of a class matters. -/
theorem step_leave {r : Rule} (hr : r ≠ .classDeclaration) :
    o.step methodsOnly (.leave r) = .ok o := by
  unfold step
  split <;> simp_all

/-- Where classes are ignored, entering a node changes nothing until a class or package comes. -/
theorem step_enter_of_ignores {r : Rule} (ho : o.ignores = true) (hclass : r ≠ .classDeclaration)
    (hpackage : r ≠ .packageDeclaration) : o.step methodsOnly (.enter r children) = .ok o := by
  unfold step
  split <;> simp_all [enterField, enterMethod, enterConstructor, pure, Except.pure]

theorem mem_insertLevel {m n : Int} {ms : List Int} :
    m ∈ insertLevel n ms ↔ m = n ∨ m ∈ ms := by
  fun_induction insertLevel n ms <;> grind

theorem ignores_setIgnored : (o.setIgnored true).ignores = true := by
  simp [ignores, setIgnored, mem_insertLevel]

end Outline

/-! ## Deeds by rule -/

namespace Deed

/-- A class that has been read is ignored or begins. -/
theorem read_class {children : List (Tree Token)} {d : Option Deed}
    (h : read .classDeclaration children = .ok d) :
    d = some .passIgnored ∨
      ∃ name extended implemented, d = some (.openClass name extended implemented) := by
  obtain ⟨d, hd, rfl⟩ := exists_of_map_ok h
  rcases Outline.enterClass_of_read (o := .empty []) hd with
    ⟨rfl, -⟩ | ⟨name, extended, implemented, rfl, -⟩
  · exact .inl rfl
  · exact .inr ⟨name, extended, implemented, rfl⟩

/-- Where no class begins, a package is announced or members are collected, or nothing is read. -/
theorem read_other {r : Rule} {children : List (Tree Token)} {d : Option Deed}
    (hr : r ≠ .classDeclaration) (h : read r children = .ok d) :
    d = none ∨ (∃ name, d = some (.announce name)) ∨ ∃ members, d = some (.add members) := by
  unfold read at h
  split at h
  · obtain ⟨name, -, rfl⟩ := exists_of_map_ok h
    exact .inr (.inl ⟨name, rfl⟩)
  · exact absurd rfl hr
  · obtain ⟨members, -, rfl⟩ := exists_of_map_ok h
    exact .inr (.inr ⟨members, rfl⟩)
  · obtain ⟨members, -, rfl⟩ := exists_of_map_ok h
    exact .inr (.inr ⟨members, rfl⟩)
  · obtain ⟨members, -, rfl⟩ := exists_of_map_ok h
    exact .inr (.inr ⟨members, rfl⟩)
  · cases h
    exact .inl rfl

end Deed

namespace Tree

section
variable {role : Option Role} {r : Rule} {children : List (Tree Token)}

theorem deeds_ignored (h : Deed.read r children = .ok (some .passIgnored)) :
    (node role r children).deeds = [.passIgnored] := by
  rw [deeds, h]

theorem deeds_class {name extended implemented : List Char}
    (h : Deed.read r children = .ok (some (.openClass name extended implemented))) :
    (node role r children).deeds =
      .openClass name extended implemented :: deedsAll children ++ [.closeClass] := by
  rw [deeds, h]

/-- Where no class begins there is at most one deed before those of the children. -/
theorem deeds_other {d : Option Deed} (hr : r ≠ .classDeclaration)
    (h : Deed.read r children = .ok d) :
    (node role r children).deeds = d.toList ++ deedsAll children := by
  rcases Deed.read_other hr h with rfl | ⟨name, rfl⟩ | ⟨members, rfl⟩ <;> rw [deeds, h] <;> rfl

end

end Tree

namespace Outline

/-! ## Whole walks -/

variable {o : Outline} {children : List (Tree Token)} {methodsOnly : Bool}

theorem run_cons {o' : Outline} {v : Visit Token} {vs : List (Visit Token)}
    (h : o.step methodsOnly v = .ok o') : o.run methodsOnly (v :: vs) = o'.run methodsOnly vs := by
  rw [run, h]

/-- A walk goes on where its first part has come to an end. -/
theorem run_append {o' : Outline} {vs ws : List (Visit Token)}
    (h : o.run methodsOnly vs = (o', none)) :
    o.run methodsOnly (vs ++ ws) = o'.run methodsOnly ws := by
  induction vs generalizing o with
  | nil =>
    obtain rfl : o = o' := congrArg Prod.fst h
    rfl
  | cons v vs ih =>
    rw [run] at h
    cases hstep : o.step methodsOnly v with
    | error q =>
      rw [hstep] at h
      cases h
    | ok o₁ =>
      rw [hstep] at h
      rw [List.cons_append, run_cons hstep]
      exact ih h

/-- A walk through a node enters it, goes through what is inside and leaves it. -/
theorem run_node {r : Rule} {inside : List (Visit Token)} {o₁ o₂ o₃ : Outline}
    (henter : o.step methodsOnly (.enter r children) = .ok o₁)
    (hinside : o₁.run methodsOnly inside = (o₂, none))
    (hleave : o₂.step methodsOnly (.leave r) = .ok o₃) :
    o.run methodsOnly (.enter r children :: inside ++ [.leave r]) = (o₃, none) := by
  rw [List.cons_append, run_cons henter, run_append hinside, run_cons hleave]
  rfl

mutual

/-- Where classes are ignored, a walk through a tree without classes and packages changes
nothing. -/
theorem run_visits_of_ignores (ho : o.ignores = true) : ∀ t : Tree Token,
    (∀ n ∈ t.nodes, n.1 ≠ .classDeclaration ∧ n.1 ≠ .packageDeclaration) →
      o.run methodsOnly t.visits = (o, none)
  | .token _ _, _ | .skipped _, _ | .missing _, _ => rfl
  | .node _ r children, h => by
    obtain ⟨hclass, hpackage⟩ := h (r, children) List.mem_cons_self
    have hchildren := run_visitsAll_of_ignores ho children fun n hn =>
      h n (List.mem_cons_of_mem _ hn)
    exact run_node (step_enter_of_ignores ho hclass hpackage) hchildren (step_leave hclass)

/-- `run_visits_of_ignores` for several trees. -/
theorem run_visitsAll_of_ignores (ho : o.ignores = true) : ∀ ts : List (Tree Token),
    (∀ n ∈ Tree.nodesAll ts, n.1 ≠ .classDeclaration ∧ n.1 ≠ .packageDeclaration) →
      o.run methodsOnly (Tree.visitsAll ts) = (o, none)
  | [], _ => rfl
  | t :: ts, h => by
    have ht : o.run methodsOnly t.visits = (o, none) :=
      run_visits_of_ignores ho t fun n hn => h n (List.mem_append_left _ hn)
    rw [Tree.visitsAll, run_append ht]
    exact run_visitsAll_of_ignores ho ts fun n hn => h n (List.mem_append_right _ hn)

end

theorem performAll_cons (d : Deed) (ds : List Deed) :
    o.performAll methodsOnly (d :: ds) = (o.perform methodsOnly d).performAll methodsOnly ds := rfl

theorem performAll_append (ds es : List Deed) :
    o.performAll methodsOnly (ds ++ es) =
      (o.performAll methodsOnly ds).performAll methodsOnly es :=
  List.foldl_append

mutual

/-- A walk through a tree that can be read does the deeds of the tree. -/
theorem run_visits : ∀ (t : Tree Token) (o : Outline), (∀ n ∈ t.nodes, Deed.Orderly n) →
    o.run methodsOnly t.visits = (o.performAll methodsOnly t.deeds, none)
  | .token _ _, _, _ | .skipped _, _, _ | .missing _, _, _ => rfl
  | .node _ r children, o, h => by
    obtain ⟨d, hd, hflat⟩ := h (r, children) List.mem_cons_self
    have hchildren (o : Outline) : o.run methodsOnly (Tree.visitsAll children) =
        (o.performAll methodsOnly (Tree.deedsAll children), none) :=
      run_visitsAll children o fun n hn => h n (List.mem_cons_of_mem _ hn)
    by_cases hr : r = .classDeclaration
    · subst hr
      rcases Deed.read_class hd with rfl | ⟨name, extended, implemented, rfl⟩
      · have hignores : ((o.setIgnored false).setIgnored true).ignores = true := ignores_setIgnored
        rw [Tree.deeds_ignored hd]
        refine run_node (step_of_read hd) (run_visitsAll_of_ignores hignores children (hflat rfl)) ?_
        simp only [step, leaveClass, hignores]
        rfl
      · rw [Tree.deeds_class hd, List.cons_append, performAll_cons, performAll_append]
        exact run_node (step_of_read hd) (hchildren _) rfl
    · rw [Tree.deeds_other hr hd]
      rcases Deed.read_other hr hd with rfl | ⟨name, rfl⟩ | ⟨members, rfl⟩ <;>
        exact run_node (step_of_read hd) (hchildren _) (step_leave hr)

/-- `run_visits` for several trees. -/
theorem run_visitsAll : ∀ (ts : List (Tree Token)) (o : Outline),
    (∀ n ∈ Tree.nodesAll ts, Deed.Orderly n) →
      o.run methodsOnly (Tree.visitsAll ts) = (o.performAll methodsOnly (Tree.deedsAll ts), none)
  | [], _, _ => rfl
  | t :: ts, o, h => by
    have ht := run_visits t o fun n hn => h n (List.mem_append_left _ hn)
    rw [Tree.visitsAll, Tree.deedsAll, run_append ht, performAll_append]
    exact run_visitsAll ts _ fun n hn => h n (List.mem_append_right _ hn)

end

end Outline

end JavaOutline
