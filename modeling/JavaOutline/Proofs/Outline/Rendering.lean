import JavaOutline.Proofs.Outline.Inherited
import JavaOutline.Proofs.Outline.Listed
import JavaOutline.Proofs.Outline.Packages

/-!
# Outlines without a state

An outline is made step by step on a walk, with a level, ignored classes and four lists of members
that change on the way. This file gives the same text as a function of the tree: `Tree.render` needs
to know only how many classes are around a tree and which members are declared before it. Each class
is its first line, what is inside it, and the members that are declared up to its end.

`Outline.Stands` is the invariant between the two: the level is the number of classes around the
present place, no class is ignored, and the lists hold the members declared before that place. A walk
through a tree writes its rendering and keeps the invariant (`Outline.Stands.deeds`). All this is
true of every tree whose walk comes to its end, whether it is a derivation or not, as long as no
class is ignored (`text_eq_render`).
-/

namespace JavaOutline

/-- Those of the members that belong to a list, as they are listed. -/
def Member.entriesOn (s : Shelf) (ms : List Member) : List (List Char) :=
  (ms.filter fun m => m.shelf = s).map Member.entry

@[simp] theorem Member.entriesOn_append (s : Shelf) (ms ns : List Member) :
    entriesOn s (ms ++ ns) = entriesOn s ms ++ entriesOn s ns := by
  simp [entriesOn]

namespace Tree

/-- A line of text behind `n` blanks. -/
def line (n : Nat) (s : List Char) : List Char := List.replicate n ' ' ++ s ++ ['\n']

/-- Entries below a title, behind `n` blanks; nothing if there are no entries. -/
def renderSection (n : Nat) (title : String) (entries : List (List Char)) : List Char :=
  if entries.isEmpty then [] else line n title.toList ++ entries.flatMap (line (n + 2))

/-- The sections of the members, behind `n` blanks. -/
def renderMembers (methodsOnly : Bool) (n : Nat) (ms : List Member) : List Char :=
  (Outline.sections methodsOnly).flatMap fun s => renderSection n s.1 (Member.entriesOn s.2 ms)

mutual

/-- The outline of a tree that is inside `depth` classes and behind the declarations of the members
`before`. -/
def render (methodsOnly : Bool) (depth : Nat) (before : List Member) : Tree Token → List Char
  | .node _ r children =>
    if r = .classDeclaration then
      line (2 * depth) (heading children) ++
        renderAll methodsOnly (depth + 1) before children ++
        renderMembers methodsOnly (2 * (depth + 1)) (before ++ membersAll children)
    else renderAll methodsOnly depth (before ++ listed r children) children
  | _ => []

/-- The outline of several trees, one after the other. -/
def renderAll (methodsOnly : Bool) (depth : Nat) (before : List Member) :
    List (Tree Token) → List Char
  | [] => []
  | t :: ts =>
    t.render methodsOnly depth before ++ renderAll methodsOnly depth (before ++ t.members) ts

end

theorem membersAll_append (ts us : List (Tree Token)) :
    membersAll (ts ++ us) = membersAll ts ++ membersAll us := by
  simp [membersAll, nodesAll_eq_flatMap]

theorem renderAll_append {methodsOnly : Bool} {depth : Nat} {before : List Member}
    (ts us : List (Tree Token)) : renderAll methodsOnly depth before (ts ++ us) =
      renderAll methodsOnly depth before ts ++
        renderAll methodsOnly depth (before ++ membersAll ts) us := by
  induction ts generalizing before with
  | nil => simp [renderAll, membersAll, nodesAll]
  | cons t ts ih =>
    rw [List.cons_append, renderAll, renderAll, ih, membersAll_cons, List.append_assoc,
      List.append_assoc]

end Tree

/-! ## The state at a place of the tree -/

namespace Outline

variable {methodsOnly : Bool} {o : Outline} {depth : Nat} {before : List Member}

/-- The state of an outline inside `depth` classes and behind the declarations of the members
`before`. -/
structure Stands (o : Outline) (depth : Nat) (before : List Member) : Prop where
  level : o.level = depth
  ignored : o.ignored = []
  shelf : ∀ s, o.shelf s = Member.entriesOn s before

theorem stands_empty (packages : List (List Char)) : (empty packages).Stands 0 [] :=
  ⟨rfl, rfl, fun s => by cases s <;> rfl⟩

theorem indentedLine_depth (depth : Nat) (s : List Char) :
    indentedLine depth s = Tree.line (2 * depth) s := by
  rw [indentedLine, Tree.line]
  congr 3

theorem sectionText_depth (depth : Nat) (title : String) (entries : List (List Char)) :
    sectionText depth title entries = Tree.renderSection (2 * depth) title entries := by
  have hentry (m : List Char) :
      indentedLine depth (' ' :: ' ' :: m) = Tree.line (2 * depth + 2) m := by
    rw [indentedLine_depth, Tree.line, Tree.line, List.replicate_add]
    simp
  rw [sectionText, Tree.renderSection, indentedLine_depth]
  simp only [hentry]

namespace Stands

/-- The end of a class writes the members that have been declared. -/
theorem written_closeClass (h : o.Stands depth before) :
    o.written methodsOnly .closeClass = Tree.renderMembers methodsOnly (2 * depth) before := by
  rw [written, ignores_of_ignored h.ignored, if_neg Bool.false_ne_true, closing,
    Tree.renderMembers, h.level]
  refine List.flatMap_congr fun s _ => ?_
  rw [sectionText_depth, h.shelf]

theorem openClass (h : o.Stands depth before) (name extended implemented : List Char) :
    (o.perform methodsOnly (.openClass name extended implemented)).Stands (depth + 1) before where
  level := by simp [perform_level, h.level, Deed.weight]
  ignored := perform_ignored h.ignored nofun
  shelf s := by simp [perform_shelf, h.shelf, Deed.entries, Deed.members]

theorem closeClass (h : o.Stands (depth + 1) before) :
    (o.perform methodsOnly .closeClass).Stands depth before where
  level := by simp [perform_level, h.level, Deed.weight]
  ignored := perform_ignored h.ignored nofun
  shelf s := by simp [perform_shelf, h.shelf, Deed.entries, Deed.members]

theorem add (h : o.Stands depth before) (ms : List Member) :
    (o.perform methodsOnly (.add ms)).Stands depth (before ++ ms) where
  level := by simp [perform_level, h.level, Deed.weight]
  ignored := perform_ignored h.ignored nofun
  shelf s := by
    rw [perform_shelf, ignores_of_ignored h.ignored, h.shelf, Member.entriesOn_append]
    simp [Deed.entries, Deed.members, Member.entriesOn]

theorem announce (h : o.Stands depth before) (name : List Char) :
    (o.perform methodsOnly (.announce name)).Stands depth before where
  level := by simp [perform_level, h.level, Deed.weight]
  ignored := perform_ignored h.ignored nofun
  shelf s := by simp [perform_shelf, h.shelf, Deed.entries, Deed.members]

end Stands

end Outline

/-- The node can be read, and it is neither an ignored class nor a package. -/
def Deed.ReadsPlain (n : Rule × List (Tree Token)) : Prop :=
  ∃ d, Deed.read n.1 n.2 = .ok d ∧ ∀ e ∈ d, e.IsPlain

namespace Outline.Stands

variable {methodsOnly : Bool}

open Tree

/-- A deed that begins no class, and the members that are listed for it. -/
theorem other (methodsOnly : Bool) {o : Outline} {depth : Nat} {before : List Member} {r : Rule}
    {children : List (Tree Token)} {d : Option Deed} (h : o.Stands depth before)
    (hr : r ≠ .classDeclaration) (hread : Deed.read r children = .ok d) (hd : ∀ e ∈ d, e.IsPlain) :
    o.output methodsOnly d.toList = [] ∧
      (o.performAll methodsOnly d.toList).Stands depth (before ++ listed r children) := by
  rcases Deed.read_other hr hread with rfl | ⟨name, rfl⟩ | ⟨members, rfl⟩
  · rw [Deed.listed_eq_nil_of_read hread nofun, List.append_nil]
    exact ⟨rfl, h⟩
  · exact absurd rfl ((hd _ rfl).2 name)
  · rw [← Deed.members_of_read hread]
    have hadded : (o.perform methodsOnly (.add members)).Stands depth (before ++ members) :=
      h.add members
    exact ⟨rfl, hadded⟩

mutual

/-- **The deeds of a tree write its rendering**, and the members of the tree are in the lists
afterwards. -/
theorem deeds : ∀ {t : Tree Token} {o : Outline} {depth : Nat} {before : List Member},
    (∀ n ∈ t.nodes, Deed.ReadsPlain n) → o.Stands depth before →
      o.output methodsOnly t.deeds = t.render methodsOnly depth before ∧
        (o.performAll methodsOnly t.deeds).Stands depth (before ++ t.members)
  | .token _ _, _, _, before, _, h | .skipped _, _, _, before, _, h
  | .missing _, _, _, before, _, h => by
    rw [← List.append_nil before] at h
    exact ⟨rfl, h⟩
  | .node _ r children, o, depth, before, hnodes, h => by
    obtain ⟨d, hread, hplain⟩ := hnodes (r, children) List.mem_cons_self
    have hchildren := fun n hn => hnodes n (List.mem_cons_of_mem _ hn)
    rw [members_node, render]
    by_cases hr : r = .classDeclaration
    · subst hr
      have hlisted : listed .classDeclaration children = [] := rfl
      rw [if_pos rfl, hlisted, List.nil_append]
      obtain ⟨e, he, rfl⟩ := exists_of_map_ok hread
      rcases Deed.heading_of_read he with ⟨rfl, -⟩ | ⟨name, extended, implemented, rfl, -, hheading⟩
      · exact absurd rfl (hplain _ rfl).1
      · have hopen : (o.perform methodsOnly (.openClass name extended implemented)).Stands
            (depth + 1) before := h.openClass name extended implemented
        obtain ⟨hinside, hlast⟩ := deedsAll children hchildren hopen
        have hline : o.written methodsOnly (.openClass name extended implemented) =
            line (2 * depth) (heading children) := by
          rw [written, hheading, h.level, indentedLine_depth]
        rw [deeds_class hread, List.cons_append, output, output_append, hline, hinside,
          performAll_cons, performAll_append, output, hlast.written_closeClass, ← List.append_assoc]
        exact ⟨congrArg _ (List.append_nil _), hlast.closeClass⟩
    · obtain ⟨hnone, hlisted⟩ := h.other methodsOnly hr hread hplain
      obtain ⟨hinside, hlast⟩ := deedsAll children hchildren hlisted
      rw [if_neg hr, deeds_other hr hread, output_append, hnone, hinside, performAll_append,
        ← List.append_assoc]
      exact ⟨rfl, hlast⟩

/-- `Stands.deeds` for several trees. -/
theorem deedsAll : ∀ (ts : List (Tree Token)) {o : Outline} {depth : Nat} {before : List Member},
    (∀ n ∈ nodesAll ts, Deed.ReadsPlain n) → o.Stands depth before →
      o.output methodsOnly (deedsAll ts) = renderAll methodsOnly depth before ts ∧
        (o.performAll methodsOnly (Tree.deedsAll ts)).Stands depth (before ++ membersAll ts)
  | [], _, _, before, _, h => by
    rw [← List.append_nil before] at h
    exact ⟨rfl, h⟩
  | t :: ts, o, depth, before, hnodes, h => by
    obtain ⟨hfirst, hnext⟩ := deeds (fun n hn => hnodes n (List.mem_append_left _ hn)) h
    obtain ⟨hrest, hlast⟩ := deedsAll ts (fun n hn => hnodes n (List.mem_append_right _ hn)) hnext
    rw [Tree.deedsAll, renderAll, membersAll_cons, output_append, performAll_append, hfirst, hrest,
      ← List.append_assoc]
    exact ⟨rfl, hlast⟩

end

end Outline.Stands

/-! ## Walks that come to their end -/

namespace Outline

variable {methodsOnly : Bool} {o o' : Outline} {children : List (Tree Token)}

/-- Where all fields of a declaration have been added, their names could be read. -/
theorem exists_names_of_foldlM {type : List Char} {isStatic : Bool}
    {declarators : List (Tree Token)}
    (h : declarators.foldlM (addField type isStatic) o = .ok o') :
    ∃ names, (declarators.mapM fun d : Tree Token =>
      childText .variableDeclaratorId d.children) = .ok names := by
  induction declarators generalizing o with
  | nil => exact ⟨[], rfl⟩
  | cons d ds ih =>
    rw [List.foldlM_cons] at h
    obtain ⟨o₁, hadd, h⟩ := exists_of_bind_ok h
    obtain ⟨name, hname, -⟩ := exists_of_bind_ok hadd
    obtain ⟨names, hnames⟩ := ih h
    refine ⟨name :: names, ?_⟩
    rw [List.mapM_cons, bind_of_ok hname, bind_of_ok hnames]
    rfl

theorem exists_readFields_of_enterField (ho : o.ignores = false)
    (h : o.enterField children = .ok o') : ∃ members, Deed.readFields children = .ok members := by
  unfold enterField at h
  rw [if_neg (by simp [ho])] at h
  obtain ⟨type, htype, h⟩ := exists_of_bind_ok h
  unfold Deed.readFields
  rw [bind_of_ok htype]
  dsimp only at h ⊢
  cases hlist : Tree.child? .variableDeclarators children with
  | none =>
    rw [hlist] at h
    cases h
  | some list =>
    rw [hlist] at h
    obtain ⟨names, hnames⟩ := exists_names_of_foldlM h
    exact ⟨_, bind_of_ok hnames⟩

theorem exists_readMethod_of_enterMethod (ho : o.ignores = false)
    (h : o.enterMethod children = .ok o') : ∃ members, Deed.readMethod children = .ok members := by
  unfold enterMethod at h
  rw [if_neg (by simp [ho])] at h
  obtain ⟨name, hname, h⟩ := exists_of_bind_ok h
  unfold Deed.readMethod
  rw [bind_of_ok hname]
  dsimp only at h ⊢
  split
  · exact ⟨_, rfl⟩
  · rename_i hhidden
    rw [if_neg hhidden] at h
    obtain ⟨result, hresult, h⟩ := exists_of_bind_ok h
    obtain ⟨ps, hps, -⟩ := exists_of_bind_ok h
    rw [bind_of_ok hresult, bind_of_ok hps]
    split
    · exact ⟨_, rfl⟩
    · exact ⟨_, rfl⟩

theorem exists_readConstructor_of_enterConstructor (ho : o.ignores = false)
    (h : o.enterConstructor children = .ok o') :
    ∃ members, Deed.readConstructor children = .ok members := by
  unfold enterConstructor at h
  rw [if_neg (by simp [ho])] at h
  obtain ⟨name, hname, h⟩ := exists_of_bind_ok h
  obtain ⟨ps, hps, -⟩ := exists_of_bind_ok h
  unfold Deed.readConstructor
  rw [bind_of_ok hname, bind_of_ok hps]
  exact ⟨_, rfl⟩

theorem exists_readClass_of_enterClass (h : o.enterClass children = .ok o') :
    ∃ d, Deed.readClass children = .ok d := by
  unfold enterClass at h
  obtain ⟨name, hname, h⟩ := exists_of_bind_ok h
  unfold Deed.readClass
  rw [bind_of_ok hname]
  dsimp only at h ⊢
  split
  · exact ⟨_, rfl⟩
  · rename_i hextends
    rw [if_neg hextends] at h
    obtain ⟨type, htype, -⟩ := exists_of_bind_ok h
    rw [bind_of_ok htype]
    split
    · exact ⟨_, rfl⟩
    · exact ⟨_, rfl⟩

/-- Where no class is ignored, a node that has been entered can be read. -/
theorem exists_read_of_step {r : Rule} (ho : o.ignores = false)
    (h : o.step methodsOnly (.enter r children) = .ok o') : ∃ d, Deed.read r children = .ok d := by
  unfold Deed.read
  split
  · obtain ⟨name, hname, -⟩ := exists_of_bind_ok h
    exact ⟨_, by rw [hname]; rfl⟩
  · obtain ⟨d, hd⟩ := exists_readClass_of_enterClass h
    exact ⟨_, by rw [hd]; rfl⟩
  · obtain ⟨members, hmembers⟩ := exists_readFields_of_enterField ho h
    exact ⟨_, by rw [hmembers]; rfl⟩
  · obtain ⟨members, hmembers⟩ := exists_readMethod_of_enterMethod ho h
    exact ⟨_, by rw [hmembers]; rfl⟩
  · obtain ⟨members, hmembers⟩ := exists_readConstructor_of_enterConstructor ho h
    exact ⟨_, by rw [hmembers]; rfl⟩
  · exact ⟨none, rfl⟩

end Outline

/-- The node is no class that extends something named like an exception or an error. -/
def Tree.Kept (n : Rule × List (Tree Token)) : Prop :=
  n.1 = .classDeclaration → ∀ type ∈ extended? n.2, Outline.isErrorName type = false

instance (n : Rule × List (Tree Token)) : Decidable (Tree.Kept n) :=
  inferInstanceAs (Decidable (_ → _))

/-- Only a class that extends something named like an exception or an error is passed over. -/
theorem Tree.Kept.ne_passIgnored {r : Rule} {children : List (Tree Token)} {d : Option Deed}
    (h : Tree.Kept (r, children)) (hread : Deed.read r children = .ok d) :
    d ≠ some .passIgnored := by
  rintro rfl
  by_cases hr : r = .classDeclaration
  · subst hr
    obtain ⟨e, he, hpass⟩ := exists_of_map_ok hread
    obtain rfl : e = .passIgnored := Option.some.inj hpass
    rcases Deed.heading_of_read he with ⟨-, type, htype, herror⟩ | ⟨_, _, _, hopen, -⟩
    · rw [h rfl type htype] at herror
      cases herror
    · cases hopen
  · rcases Deed.read_other hr hread with hd | ⟨name, hd⟩ | ⟨members, hd⟩ <;> cases hd

namespace Outline

variable {methodsOnly : Bool} {o o' : Outline}

/-- Without ignored classes no visit makes the outline ignore anything. -/
theorem ignored_of_step {v : Visit Token} (ho : o.ignored = [])
    (hkept : ∀ r children, v = .enter r children → Tree.Kept (r, children))
    (h : o.step methodsOnly v = .ok o') : o'.ignored = [] := by
  cases v with
  | enter r children =>
    obtain ⟨d, hread⟩ := exists_read_of_step (ignores_of_ignored ho) h
    have hd := (hkept r children rfl).ne_passIgnored hread
    rw [step_of_read hread] at h
    rw [← Except.ok.inj h]
    cases d with
    | none => exact ho
    | some d =>
      have hpass : d ≠ .passIgnored := fun heq => hd (congrArg some heq)
      cases d with
      | passIgnored => exact absurd rfl hpass
      | announce | openClass | add | closeClass => exact perform_ignored ho hpass
  | leave r =>
    by_cases hr : r = .classDeclaration
    · subst hr
      rw [← Except.ok.inj h, leaveClass_eq]
      exact ho
    · rw [step_leave hr] at h
      rw [← Except.ok.inj h]
      exact ho
  | token | skipped | missing =>
    rw [← Except.ok.inj h]
    exact ho

/-- Without ignored classes a walk never makes the outline ignore anything. -/
theorem ignored_of_run {vs : List (Visit Token)} (ho : o.ignored = [])
    (hkept : ∀ r children, .enter r children ∈ vs → Tree.Kept (r, children))
    (h : o.run methodsOnly vs = (o', none)) : o'.ignored = [] := by
  induction vs generalizing o with
  | nil =>
    obtain rfl : o = o' := congrArg Prod.fst h
    exact ho
  | cons v vs ih =>
    cases hstep : o.step methodsOnly v with
    | error q =>
      rw [run, hstep] at h
      cases h
    | ok o₁ =>
      rw [run_cons hstep] at h
      have ho₁ : o₁.ignored = [] := ignored_of_step ho
        (fun r children hv => hkept r children (hv ▸ List.mem_cons_self)) hstep
      exact ih ho₁ (fun r children hv => hkept r children (List.mem_cons_of_mem _ hv)) h

/-- **A walk that comes to its end has read every node** that it has entered, if none of them is an
ignored class. -/
theorem exists_read_of_run {vs : List (Visit Token)} (ho : o.ignored = [])
    (hkept : ∀ r children, .enter r children ∈ vs → Tree.Kept (r, children))
    (h : (o.run methodsOnly vs).2 = none) :
    ∀ r children, .enter r children ∈ vs → ∃ d, Deed.read r children = .ok d := by
  induction vs generalizing o with
  | nil => nofun
  | cons v vs ih =>
    intro r children hmem
    rw [run] at h
    cases hstep : o.step methodsOnly v with
    | error q =>
      rw [hstep] at h
      cases h
    | ok o₁ =>
      rw [hstep] at h
      rcases List.mem_cons.1 hmem with rfl | hmem
      · exact exists_read_of_step (ignores_of_ignored ho) hstep
      · have ho₁ : o₁.ignored = [] := ignored_of_step ho
          (fun r children hv => hkept r children (hv ▸ List.mem_cons_self)) hstep
        exact ih ho₁ (fun r children hv => hkept r children (List.mem_cons_of_mem _ hv)) h r
          children hmem

end Outline

namespace Tree

mutual

/-- Every node of a tree is entered on a walk. -/
theorem mem_visits_of_mem_nodes {α : Type} : ∀ {t : Tree α} {n : Rule × List (Tree α)},
    n ∈ t.nodes → .enter n.1 n.2 ∈ t.visits
  | .token _ _, _, h | .skipped _, _, h | .missing _, _, h => by simp [nodes] at h
  | .node _ r children, n, h => by
    rw [visits, List.cons_append]
    rcases List.mem_cons.1 h with rfl | h
    · exact List.mem_cons_self
    · exact List.mem_cons_of_mem _ (List.mem_append_left _ (mem_visitsAll_of_mem_nodesAll h))

/-- `mem_visits_of_mem_nodes` for several trees. -/
theorem mem_visitsAll_of_mem_nodesAll {α : Type} : ∀ {ts : List (Tree α)}
    {n : Rule × List (Tree α)}, n ∈ nodesAll ts → .enter n.1 n.2 ∈ visitsAll ts
  | [], _, h => by simp [nodesAll] at h
  | _ :: _, _, h => by
    rcases List.mem_append.1 h with h | h
    · exact List.mem_append_left _ (mem_visits_of_mem_nodes h)
    · exact List.mem_append_right _ (mem_visitsAll_of_mem_nodesAll h)

end

/-- There is no node of a package where none is entered. -/
theorem NoPackage.ne_packageDeclaration {ts : List (Tree Token)} (h : NoPackage ts) :
    ∀ n ∈ nodesAll ts, n.1 ≠ .packageDeclaration := by
  intro n hn hpackage
  exact h _ (mem_visitsAll_of_mem_nodesAll hn) (congrArg some hpackage)

/-- Leaves have no nodes. -/
theorem OnlyLeaves.nodesAll_eq_nil {ts : List (Tree Token)} (h : OnlyLeaves ts) :
    nodesAll ts = [] := by
  refine List.eq_nil_iff_forall_not_mem.2 fun n hn => ?_
  cases h _ (mem_visitsAll_of_mem_nodesAll hn)

variable {methodsOnly : Bool} {ts : List (Tree Token)}

theorem OnlyLeaves.deedsAll_eq_nil (h : OnlyLeaves ts) : deedsAll ts = [] := by
  refine List.eq_nil_iff_forall_not_mem.2 fun d hd => ?_
  obtain ⟨n, hn, -⟩ := exists_node_of_mem_deedsAll ts hd
  rw [h.nodesAll_eq_nil] at hn
  cases hn

theorem OnlyLeaves.renderAll_eq_nil (h : OnlyLeaves ts) :
    renderAll methodsOnly 0 [] ts = [] := by
  have hnone : ∀ n ∈ nodesAll ts, Deed.ReadsPlain n := by
    rw [h.nodesAll_eq_nil]
    nofun
  rw [← ((Outline.stands_empty []).deedsAll ts hnone).1, h.deedsAll_eq_nil]
  rfl

theorem deedsAll_append (ts us : List (Tree Token)) :
    deedsAll (ts ++ us) = deedsAll ts ++ deedsAll us := by
  simp [deedsAll_eq_flatMap]

theorem readsPlain_of_noPackage (hts : NoPackage ts)
    (h : ∀ n ∈ nodesAll ts, Kept n ∧ ∃ d, Deed.read n.1 n.2 = .ok d) :
    ∀ n ∈ nodesAll ts, Deed.ReadsPlain n := by
  intro n hn
  obtain ⟨hkept, d, hread⟩ := h n hn
  refine ⟨d, hread, ?_⟩
  rintro e rfl
  refine ⟨fun he => hkept.ne_passIgnored hread (congrArg some he), ?_⟩
  rintro name rfl
  exact hts.ne_packageDeclaration n hn (Deed.rule_of_read_announce hread)

/-- The parts of a file in which every node can be read write the line of the package and their
renderings. -/
theorem PackageFirst.output (hfirst : PackageFirst ts) (packages : List (List Char))
    (h : ∀ n ∈ nodesAll ts, Kept n ∧ ∃ d, Deed.read n.1 n.2 = .ok d) :
    (Outline.empty packages).output methodsOnly (deedsAll ts) =
      Package.heading packages (node none .compilationUnit ts).package? ++
        renderAll methodsOnly 0 [] ts := by
  obtain ⟨before, package, after, rfl, hbefore, hpackage, hafter⟩ := hfirst
  have hstands := Outline.stands_empty packages
  have hchild : (node none .compilationUnit (before ++ package ++ after)).package? =
      (node none .compilationUnit package).package? := by
    simp only [package?, children, child?_package hbefore hafter]
  rw [hchild]
  rcases hpackage with rfl | ⟨inside, rfl, hinside⟩
  · rw [List.append_nil] at h ⊢
    have hplain := readsPlain_of_noPackage (hbefore.noPackage.append hafter) h
    exact (hstands.deedsAll _ hplain).1
  · -- Only leaves come before the package, so that its line is the first one.
    obtain ⟨-, d, hread⟩ := h (.packageDeclaration, inside) (by simp [nodesAll_eq_flatMap, nodes])
    obtain ⟨name, hname, rfl⟩ := exists_of_map_ok hread
    have hplain : ∀ n ∈ nodesAll (inside ++ after), Deed.ReadsPlain n := by
      refine readsPlain_of_noPackage (hinside.append hafter) fun n hn => h n ?_
      simp only [nodesAll_eq_flatMap, List.flatMap_append, List.flatMap_cons, List.flatMap_nil,
        nodes, List.append_nil, List.mem_append, List.mem_cons] at hn ⊢
      exact hn.elim (fun hn => .inl (.inr (.inr hn))) .inr
    have hannounced : ((Outline.empty packages).perform methodsOnly (.announce name)).Stands 0 [] :=
      hstands.announce name
    have hdeeds : deedsAll [node none .packageDeclaration inside] =
        .announce name :: deedsAll inside := by
      rw [deedsAll, deeds_other (r := .packageDeclaration) nofun hread, deedsAll, List.append_nil]
      rfl
    have hleaves : membersAll before = [] := by
      rw [membersAll, hbefore.nodesAll_eq_nil]
      rfl
    have hrender : renderAll methodsOnly 0 [] (before ++ [node none .packageDeclaration inside]) =
        renderAll methodsOnly 0 [] inside := by
      rw [renderAll_append, hbefore.renderAll_eq_nil, hleaves, renderAll, renderAll, render,
        if_neg nofun, List.append_nil]
      rfl
    have hmembers : membersAll (before ++ [node none .packageDeclaration inside]) =
        membersAll inside := by
      rw [membersAll_append, hleaves, membersAll_cons, members_node]
      exact List.append_nil _
    have hheading : Package.heading packages (node none .compilationUnit
        [node none .packageDeclaration inside]).package? =
        (Outline.empty packages).written methodsOnly (.announce name) := by
      have hpackage : (node none .compilationUnit
          [node none .packageDeclaration inside]).package? = some name :=
        map_text_of_childText hname
      rw [hpackage, Package.heading, Outline.written, Outline.announcement]
      simp only [Outline.empty, List.contains_iff_mem]
      rfl
    rw [deedsAll_append, deedsAll_append, hbefore.deedsAll_eq_nil, hdeeds, hheading,
      List.nil_append, List.cons_append, Outline.output, ← deedsAll_append,
      (hannounced.deedsAll _ hplain).1, renderAll_append, renderAll_append _ after, hrender, hmembers]

end Tree

/-- **The text of an outline is the rendering of the tree**, behind the line of the package. This is
so for every file, whatever errors there are in it, if the walk comes to its end and no class extends
something named like an exception or an error. -/
theorem text_eq_render (methodsOnly : Bool) (packages : List (List Char)) (source : List Char)
    (hkept : ∀ n ∈ (analyse .compilationUnit 0 source).tree.nodes, Tree.Kept n)
    (hend : (outlineSource methodsOnly packages source).2 = none) :
    (outlineSource methodsOnly packages source).1.text =
      Package.heading packages (analyse .compilationUnit 0 source).tree.package? ++
        (analyse .compilationUnit 0 source).tree.render methodsOnly 0 [] := by
  obtain ⟨parts, htree, hfirst⟩ := (TokenStream.ofSource source).parse_packageFirst 0
  have htree' : (analyse .compilationUnit 0 source).tree = .node none .compilationUnit
      (Tree.mapAll (TokenStream.ofSource source).get parts) := by
    rw [analyse_tree, htree]
    rfl
  replace hfirst : Tree.PackageFirst (Tree.mapAll (TokenStream.ofSource source).get parts) :=
    hfirst.mapAll
  generalize Tree.mapAll (TokenStream.ofSource source).get parts = ts at *
  unfold outlineSource at hend ⊢
  rw [htree'] at hkept hend ⊢
  have hread : ∀ n ∈ (Tree.node none .compilationUnit ts).nodes,
      ∃ d, Deed.read n.1 n.2 = .ok d := fun n hn =>
    Outline.exists_read_of_run (Outline.stands_empty packages).ignored
      (fun r children hv => hkept _ (Tree.mem_nodes_of_mem_visits _ hv)) hend n.1 n.2
      (Tree.mem_visits_of_mem_nodes hn)
  have horderly : ∀ n ∈ (Tree.node none .compilationUnit ts).nodes, Deed.Orderly n := by
    intro n hn
    obtain ⟨d, hd⟩ := hread n hn
    exact ⟨d, hd, fun hpass => absurd hpass ((hkept n hn).ne_passIgnored hd)⟩
  have hdeeds : (Tree.node none .compilationUnit ts).deeds = Tree.deedsAll ts :=
    Tree.deeds_other (r := .compilationUnit) (d := none) nofun rfl
  have hrender : (Tree.node none .compilationUnit ts).render methodsOnly 0 [] =
      Tree.renderAll methodsOnly 0 [] ts := by
    rw [Tree.render, if_neg nofun]
    rfl
  rw [Outline.run_visits _ _ horderly, Outline.performAll_text, hdeeds, hrender]
  exact hfirst.output packages fun n hn =>
    ⟨hkept n (List.mem_cons_of_mem _ hn), hread n (List.mem_cons_of_mem _ hn)⟩

/-- A file that breaks off inside a class, with a class and a constructor in it. -/
theorem text_of_unclosed_class :
    let source := "class A\x7bclass B\x7b\x7dA()\x7b\x7d".toList
    ((TokenStream.ofSource source).parse .compilationUnit 0).complaints ≠ [] ∧
      (outlineSource false [] source).1.text =
        "Class A:\n  Class B:\n  Methods:\n    A()\n".toList := by
  intro source
  have hfile : ((TokenStream.ofSource source).parse .compilationUnit 0).complaints ≠ [] ∧
      (∀ n ∈ (analyse .compilationUnit 0 source).tree.nodes, Tree.Kept n) ∧
      (outlineSource false [] source).2 = none ∧
      Package.heading [] (analyse .compilationUnit 0 source).tree.package? ++
        (analyse .compilationUnit 0 source).tree.render false 0 [] =
          "Class A:\n  Class B:\n  Methods:\n    A()\n".toList := by
    rw [outlineSource, TokenStream.parse_eq_plain, analyse_tree_eq_plain]
    decide +kernel
  obtain ⟨hloud, hkept, hend, hrender⟩ := hfile
  exact ⟨hloud, (text_eq_render false [] source hkept hend).trans hrender⟩

end JavaOutline
