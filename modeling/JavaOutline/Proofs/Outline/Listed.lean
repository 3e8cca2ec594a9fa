import JavaOutline.Proofs.Outline.Complete

/-!
# What is listed of a node

A walk reads the nodes of a tree step by step, and stops at a node in which something is missing
(`Deed.read`). This file says what is read where nothing is missing, as plain functions of the
children of the node: the members that a declaration lists (`Tree.listed`) and the first line of a
class (`Tree.heading`). If a node can be read, then this is what is read (`Deed.members_of_read`,
`Deed.heading_of_read`). In a file without complaints every node that the walk enters can be read
(`exists_step_of_no_complaints`).
-/

namespace JavaOutline

theorem commaSeparated_singleton (s : List Char) : commaSeparated [s] = s := by
  simp [commaSeparated]

theorem commaSeparated_concat {xs : List (List Char)} (h : xs ≠ []) (y : List Char) :
    commaSeparated (xs ++ [y]) = commaSeparated xs ++ (", ".toList ++ y) := by
  unfold commaSeparated
  generalize ", ".toList = comma
  induction xs with
  | nil => exact absurd rfl h
  | cons x xs ih =>
    cases xs with
    | nil => simp [List.intercalate]
    | cons z zs =>
      have hrest := ih (List.cons_ne_nil z zs)
      simp only [List.cons_append, List.intercalate_cons_cons] at hrest ⊢
      rw [hrest]
      simp

namespace Tree

variable {children : List (Tree Token)}

/-- The text of the first child that belongs to a rule; nothing if there is no such child. -/
def textOf (r : Rule) (children : List (Tree Token)) : List Char :=
  ((child? r children).map text).getD []

/-- A parameter as it is listed, with its type and its name. -/
def parameterItem (p : Tree Token) : List Char :=
  textOf .typeType p.children ++ ' ' :: textOf .variableDeclaratorId p.children

/-- The parameters of a method or constructor that are listed. -/
def listedParameters (children : List (Tree Token)) : List (Tree Token) :=
  match (child? .formalParameters children).bind fun ps =>
    child? .formalParameterList ps.children with
  | none => []
  | some list => select (.rule .formalParameter) list.children

/-- The names of the fields of a declaration. -/
def fieldNames (children : List (Tree Token)) : List (List Char) :=
  match child? .variableDeclarators children with
  | none => []
  | some list => (select (.rule .variableDeclarator) list.children).map fun d =>
      textOf .variableDeclaratorId d.children

/-- What stands before the parameters of a method or constructor that is listed. -/
def signatureHead (r : Rule) (children : List (Tree Token)) : List Char :=
  if r = .methodDeclaration then textOf .typeTypeOrVoid children ++ ' ' :: textOf .identifier children
  else textOf .identifier children

/-- A method or constructor as it is listed. -/
def signatureOf (r : Rule) (children : List (Tree Token)) : List Char :=
  signature (signatureHead r children) ((listedParameters children).map parameterItem)

/-- The members that a declaration lists. A method is listed if its text says that it is public, and
its text or that of the fields says whether they are static. -/
def listed (r : Rule) (children : List (Tree Token)) : List Member :=
  let isStatic := occursIn "static".toList (textAll children)
  match r with
  | .fieldDeclaration =>
    Deed.fieldMembers (if isStatic then .staticFields else .fields) (textOf .typeType children)
      (fieldNames children)
  | .methodDeclaration =>
    if Outline.hiddenMethods.contains (textOf .identifier children) then []
    else if !occursIn "public".toList (textAll children) then []
    else [⟨if isStatic then .staticMethods else .methods, signatureOf r children⟩]
  | .constructorDeclaration => [⟨.methods, signatureOf r children⟩]
  | _ => []

/-- The members that are listed of a tree, in the order in which their declarations begin. -/
def members (t : Tree Token) : List Member := t.nodes.flatMap fun n => listed n.1 n.2

/-- The members that are listed of several trees. -/
def membersAll (ts : List (Tree Token)) : List Member :=
  (nodesAll ts).flatMap fun n => listed n.1 n.2

theorem membersAll_cons (t : Tree Token) (ts : List (Tree Token)) :
    membersAll (t :: ts) = t.members ++ membersAll ts :=
  List.flatMap_append

theorem members_node (role : Option Role) (r : Rule) (children : List (Tree Token)) :
    (node role r children).members = listed r children ++ membersAll children :=
  List.flatMap_cons

/-- What a class extends, if it extends anything. -/
def extended? (children : List (Tree Token)) : Option (List Char) :=
  if (select (.token .kwExtends) children).isEmpty then none
  else (child? .typeType children).map text

/-- The first line of a class. -/
def heading (children : List (Tree Token)) : List Char :=
  let extended := match extended? children with
    | none => []
    | some type => " extends ".toList ++ type
  let implemented :=
    if (select (.token .kwImplements) children).isEmpty then []
    else " implements ".toList ++
      commaSeparated ((select (.rule .typeList) children).map text)
  "Class ".toList ++ textOf .identifier children ++ extended ++ implemented ++ [':']

/-! ## Reading -/

theorem map_text_of_childText {r : Rule} {s : List Char} (h : childText r children = .ok s) :
    (child? r children).map text = some s := by
  unfold childText at h
  split at h
  · rename_i t hchild
    rw [hchild, ← Except.ok.inj h]
    rfl
  · cases h

theorem textOf_of_childText {r : Rule} {s : List Char} (h : childText r children = .ok s) :
    textOf r children = s := by
  rw [textOf, map_text_of_childText h]
  rfl

/-- What has been computed of every element. -/
theorem eq_map_of_mapM {α β ε : Type} {f : α → Except ε β} {g : α → β} {l : List α} {bs : List β}
    (hf : ∀ a b, f a = .ok b → g a = b) (h : l.mapM f = .ok bs) : bs = l.map g := by
  induction l generalizing bs with
  | nil =>
    cases h
    rfl
  | cons a l ih =>
    rw [List.mapM_cons] at h
    obtain ⟨b, hb, h⟩ := exists_of_bind_ok h
    obtain ⟨rest, hrest, h⟩ := exists_of_bind_ok h
    obtain rfl : b :: rest = bs := Except.ok.inj h
    rw [List.map_cons, hf a b hb, ih hrest]

/-- The parameters that have been read are those that are listed. -/
theorem eq_of_parameters {ps : List (List Char)} (h : parameters children = .ok ps) :
    ps = (listedParameters children).map parameterItem := by
  unfold parameters at h
  rw [listedParameters]
  cases hps : child? .formalParameters children with
  | none =>
    rw [hps] at h
    cases h
  | some p =>
    rw [hps] at h
    rw [Option.bind_some]
    dsimp only at h
    cases hlist : child? .formalParameterList p.children with
    | none =>
      rw [hlist] at h
      cases h
      rfl
    | some list =>
      rw [hlist] at h
      refine eq_map_of_mapM (fun q item hitem => ?_) h
      obtain ⟨type, htype, hitem⟩ := exists_of_bind_ok hitem
      obtain ⟨name, hname, hitem⟩ := exists_of_bind_ok hitem
      rw [parameterItem, textOf_of_childText htype, textOf_of_childText hname]
      exact Except.ok.inj hitem

end Tree

namespace Deed

open Tree

variable {r : Rule} {children : List (Tree Token)} {members : List Member}

theorem eq_of_readFields (h : readFields children = .ok members) :
    members = listed .fieldDeclaration children := by
  obtain ⟨type, htype, h⟩ := exists_of_bind_ok h
  cases hlist : child? .variableDeclarators children with
  | none =>
    rw [hlist] at h
    cases h
  | some list =>
    rw [hlist] at h
    obtain ⟨names, hnames, h⟩ := exists_of_bind_ok h
    have hnames : names = fieldNames children := by
      rw [fieldNames, hlist]
      exact eq_map_of_mapM (fun _ _ hname => textOf_of_childText hname) hnames
    rw [listed, textOf_of_childText htype, ← hnames]
    exact (Except.ok.inj h).symm

theorem eq_of_readMethod (h : readMethod children = .ok members) :
    members = listed .methodDeclaration children := by
  obtain ⟨name, hname, h⟩ := exists_of_bind_ok h
  rw [listed, textOf_of_childText hname]
  split at h
  · rename_i hhidden
    rw [if_pos hhidden]
    exact (Except.ok.inj h).symm
  · rename_i hhidden
    obtain ⟨result, hresult, h⟩ := exists_of_bind_ok h
    obtain ⟨ps, hps, h⟩ := exists_of_bind_ok h
    rw [if_neg hhidden, signatureOf, signatureHead, if_pos rfl, textOf_of_childText hresult,
      textOf_of_childText hname, ← eq_of_parameters hps]
    dsimp only at h
    split at h
    · rename_i hpublic
      rw [if_pos hpublic]
      exact (Except.ok.inj h).symm
    · rename_i hpublic
      rw [if_neg hpublic]
      exact (Except.ok.inj h).symm

theorem eq_of_readConstructor (h : readConstructor children = .ok members) :
    members = listed .constructorDeclaration children := by
  obtain ⟨name, hname, h⟩ := exists_of_bind_ok h
  obtain ⟨ps, hps, h⟩ := exists_of_bind_ok h
  rw [listed, signatureOf, signatureHead, if_neg nofun, textOf_of_childText hname,
    ← eq_of_parameters hps]
  exact (Except.ok.inj h).symm

/-- The members that have been read are those that are listed. -/
theorem members_of_read (h : read r children = .ok (some (.add members))) :
    members = listed r children := by
  unfold read at h
  split at h
  · obtain ⟨name, -, hadd⟩ := exists_of_map_ok h
    cases hadd
  · obtain ⟨d, hd, hadd⟩ := exists_of_map_ok h
    obtain rfl : d = .add members := Option.some.inj hadd
    rcases Outline.enterClass_of_read (o := .empty []) hd with ⟨hd, -⟩ | ⟨_, _, _, hd, -⟩ <;> cases hd
  · obtain ⟨ms, hms, hadd⟩ := exists_of_map_ok h
    obtain rfl : ms = members := by simpa using hadd
    exact eq_of_readFields hms
  · obtain ⟨ms, hms, hadd⟩ := exists_of_map_ok h
    obtain rfl : ms = members := by simpa using hadd
    exact eq_of_readMethod hms
  · obtain ⟨ms, hms, hadd⟩ := exists_of_map_ok h
    obtain rfl : ms = members := by simpa using hadd
    exact eq_of_readConstructor hms
  · cases h

/-- Where no members are read none are listed. -/
theorem listed_eq_nil_of_read {d : Option Deed} (h : read r children = .ok d)
    (hd : ∀ members, d ≠ some (.add members)) : listed r children = [] := by
  unfold read at h
  unfold listed
  split at h
  · rfl
  · rfl
  · obtain ⟨ms, -, rfl⟩ := exists_of_map_ok h
    exact absurd rfl (hd ms)
  · obtain ⟨ms, -, rfl⟩ := exists_of_map_ok h
    exact absurd rfl (hd ms)
  · obtain ⟨ms, -, rfl⟩ := exists_of_map_ok h
    exact absurd rfl (hd ms)
  · dsimp only
    split <;> simp_all

/-- What the outline collects from a member. -/
theorem exists_members (h : Legible (r, children))
    (hr : r ∈ [.fieldDeclaration, .methodDeclaration, .constructorDeclaration]) :
    ∃ members, read r children = .ok (some (.add members)) := by
  obtain ⟨d, hread, -⟩ := h
  simp only [List.mem_cons, List.not_mem_nil, or_false] at hr
  rcases hr with rfl | rfl | rfl
  all_goals
    obtain ⟨members, -, rfl⟩ := exists_of_map_ok hread
    exact ⟨members, hread⟩

/-- A class that has been read is ignored for what it extends, or it begins with its first line. -/
theorem heading_of_read {d : Deed} (h : readClass children = .ok d) :
    d = .passIgnored ∧ (∃ type, extended? children = some type ∧ Outline.isErrorName type = true) ∨
      ∃ name extended implemented, d = .openClass name extended implemented ∧
        (∀ type, extended? children = some type → Outline.isErrorName type = false) ∧
        "Class ".toList ++ name ++ extended ++ implemented ++ [':'] = heading children := by
  obtain ⟨name, hname, h⟩ := exists_of_bind_ok h
  dsimp only at h
  unfold heading
  rw [textOf_of_childText hname]
  split at h
  · rename_i hextends
    have hextended : extended? children = none := if_pos hextends
    cases h
    rw [hextended]
    exact .inr ⟨_, _, _, rfl, nofun, rfl⟩
  · rename_i hextends
    obtain ⟨type, htype, h⟩ := exists_of_bind_ok h
    have hextended : extended? children = some type := by
      rw [extended?, if_neg hextends, map_text_of_childText htype]
    rw [hextended]
    split at h
    · rename_i herror
      exact .inl ⟨(Except.ok.inj h).symm, type, rfl, herror⟩
    · rename_i herror
      cases h
      refine .inr ⟨_, _, _, rfl, ?_, rfl⟩
      rintro _ ⟨⟩
      exact Bool.eq_false_iff.2 herror

end Deed

theorem Outline.begin_add {o : Outline} {methodsOnly : Bool} (members : List Member) :
    o.begin methodsOnly (some (.add members)) =
      if o.ignores then o else members.foldl addMember o := rfl

/-! ## Files without complaints -/

section
variable {source : List Char} {before after : List (Visit Token)} {r : Rule}
  {children : List (Tree Token)}

/-- Where a walk through a file without complaints enters a node, the node is a derivation. -/
theorem derives_of_walk
    (h : ((TokenStream.ofSource source).parse .compilationUnit 0).complaints = [])
    (hwalk : (analyse .compilationUnit 0 source).tree.visits =
      before ++ .enter r children :: after) :
    children.map (Tree.symbol Token.kind) ∈ r.language ∧
      Tree.DerivesAll Token.kind children := by
  have hvisit : .enter r children ∈ (analyse .compilationUnit 0 source).tree.visits := by
    rw [hwalk]
    simp
  exact (analyse_derives h).1.of_mem_nodes _ (Tree.mem_nodes_of_mem_visits _ hvisit)

/-- A walk through a file without complaints comes to each of its nodes, reads it and does what it
has read. -/
theorem exists_step_of_no_complaints (methodsOnly : Bool) (packages : List (List Char))
    (h : ((TokenStream.ofSource source).parse .compilationUnit 0).complaints = [])
    (hwalk : (analyse .compilationUnit 0 source).tree.visits =
      before ++ .enter r children :: after) :
    ∃ o d, (Outline.empty packages).run methodsOnly before = (o, none) ∧
      Deed.read r children = .ok d ∧
      (d = some .passIgnored ↔ Tree.isIgnoredClass r children = true) ∧
      o.step methodsOnly (.enter r children) = .ok (o.begin methodsOnly d) := by
  have hlegible := Tree.legible_visits (legible_of_no_complaints h)
  rw [hwalk] at hlegible
  have hbefore : ((Outline.empty packages).run methodsOnly before).2 = none :=
    Outline.run_of_legible fun v hv => hlegible v (List.mem_append_left _ hv)
  obtain ⟨d, hread, hignored⟩ := hlegible (.enter r children) (by simp) r children rfl
  exact ⟨_, d, Prod.ext rfl hbefore, hread, hignored, Outline.step_of_read hread⟩

/-- A walk through a file without complaints comes to each declaration of members and lists them,
unless it passes over the members of an ignored class. -/
theorem exists_listed_of_no_complaints (methodsOnly : Bool) (packages : List (List Char))
    (h : ((TokenStream.ofSource source).parse .compilationUnit 0).complaints = [])
    (hr : r ∈ [.fieldDeclaration, .methodDeclaration, .constructorDeclaration])
    (hwalk : (analyse .compilationUnit 0 source).tree.visits =
      before ++ .enter r children :: after) :
    ∃ o, (Outline.empty packages).run methodsOnly before = (o, none) ∧
      o.step methodsOnly (.enter r children) =
        .ok (if o.ignores then o else (Tree.listed r children).foldl Outline.addMember o) := by
  obtain ⟨o, d, hrun, hread, hignored, hstep⟩ :=
    exists_step_of_no_complaints methodsOnly packages h hwalk
  obtain ⟨members, hmembers⟩ := Deed.exists_members ⟨d, hread, hignored⟩ hr
  obtain rfl : d = some (.add members) := Except.ok.inj (hread.symm.trans hmembers)
  rw [Outline.begin_add, Deed.members_of_read hmembers] at hstep
  exact ⟨o, hrun, hstep⟩

end

/-- Is the visit with this number one that enters a node of which `P` holds? -/
def Visit.entersAt {α : Type} (P : Rule → List (Tree α) → Bool) (vs : List (Visit α)) (i : Nat) :
    Bool :=
  match vs[i]? with
  | some (.enter r children) => P r children
  | _ => false

/-- A walk is split where it enters a node. -/
theorem Visit.exists_entersAt {α : Type} {P : Rule → List (Tree α) → Bool} {vs : List (Visit α)}
    {i : Nat} (h : entersAt P vs i = true) :
    ∃ r children, P r children = true ∧
      vs = vs.take i ++ .enter r children :: vs.drop (i + 1) := by
  unfold entersAt at h
  split at h
  · rename_i r children hi
    obtain ⟨hlt, hget⟩ := List.getElem?_eq_some_iff.1 hi
    refine ⟨r, children, h, ?_⟩
    rw [← hget, ← List.drop_eq_getElem_cons hlt, List.take_append_drop]
  · cases h

end JavaOutline
