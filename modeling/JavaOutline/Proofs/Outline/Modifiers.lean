import JavaOutline.Proofs.Outline.Rendering

/-!
# Modifiers

The modifiers of a member stand beside it in the body of its class. Whether a method is listed, and
on which shelf a member is put, is read off the text of the member, to which the modifiers do not
belong. `Tree.chosen` says what would be listed by the modifiers. In a file without complaints, what
is listed is the same exactly if the words that are looked for in the text are there if and only if
they are among the modifiers (`members_listed_by_text`).
-/

namespace JavaOutline

namespace Tree

variable {cs children : List (Tree Token)}

/-- The modifiers of a declaration in the body of a class. -/
def modifiers (cs : List (Tree Token)) : List (List Char) :=
  (select (.rule .modifier) cs).map text

/-- The member that a declaration in the body of a class declares. A method can have type parameters
before it. -/
def member? (cs : List (Tree Token)) : Option (Tree Token) :=
  (child? .memberDeclaration cs).bind fun m =>
    match m.children with
    | [.node _ .genericMethodDeclaration generic] => child? .methodDeclaration generic
    | ts => ts.head?

/-- The members of a declaration by its modifiers. -/
def chosen (modifiers : List (List Char)) (r : Rule) (children : List (Tree Token)) : List Member :=
  let isStatic := modifiers.contains "static".toList
  match r with
  | .fieldDeclaration =>
    Deed.fieldMembers (if isStatic then .staticFields else .fields) (textOf .typeType children)
      (fieldNames children)
  | .methodDeclaration =>
    if Outline.hiddenMethods.contains (textOf .identifier children) then []
    else if !modifiers.contains "public".toList then []
    else [⟨if isStatic then .staticMethods else .methods, signatureOf r children⟩]
  | _ => []

/-- Does the text of a member say what its modifiers say, as far as it is asked? Methods that are
hidden and fields none of which is listed are asked for nothing. -/
def TextAgrees (modifiers : List (List Char)) (r : Rule) (children : List (Tree Token)) : Prop :=
  let hasWord (word : String) := occursIn word.toList (textAll children) = true
  match r with
  | .fieldDeclaration => fieldNames children ⊆ Outline.hiddenFields ∨
      ("static".toList ∈ modifiers ↔ hasWord "static")
  | .methodDeclaration => textOf .identifier children ∈ Outline.hiddenMethods ∨
      ("public".toList ∈ modifiers ↔ hasWord "public") ∧
        ("public".toList ∈ modifiers → ("static".toList ∈ modifiers ↔ hasWord "static"))
  | _ => True

theorem fieldMembers_eq_iff {s s' : Shelf} {type : List Char} {names : List (List Char)} :
    Deed.fieldMembers s type names = Deed.fieldMembers s' type names ↔
      names ⊆ Outline.hiddenFields ∨ s = s' := by
  rw [Deed.fieldMembers, Deed.fieldMembers, List.map_inj_left]
  constructor
  · intro h
    by_cases hhidden : names ⊆ Outline.hiddenFields
    · exact .inl hhidden
    · obtain ⟨name, hname, hlisted⟩ : ∃ name ∈ names, name ∉ Outline.hiddenFields := by
        simpa [List.subset_def] using hhidden
      have hmember := h name (List.mem_filter.2 ⟨hname, by simpa using hlisted⟩)
      exact .inr (congrArg Member.shelf hmember)
  · rintro (hhidden | rfl) name hname
    · obtain ⟨hname, hlisted⟩ := List.mem_filter.1 hname
      simp [hhidden hname] at hlisted
    · rfl

/-- What is listed of a method or of fields is what the modifiers say exactly if the text says the
same. -/
theorem listed_eq_chosen_iff {modifiers : List (List Char)} {r : Rule}
    (hr : r ∈ [.fieldDeclaration, .methodDeclaration]) :
    listed r children = chosen modifiers r children ↔ TextAgrees modifiers r children := by
  simp only [List.mem_cons, List.not_mem_nil, or_false] at hr
  rcases hr with rfl | rfl
  · refine fieldMembers_eq_iff.trans (or_congr_right ?_)
    dsimp only
    rw [← List.contains_iff_mem]
    generalize modifiers.contains "static".toList = said
    cases said <;> cases occursIn "static".toList (textAll children) <;> decide
  · unfold listed chosen TextAgrees
    dsimp only
    rw [← List.contains_iff_mem, ← List.contains_iff_mem, ← List.contains_iff_mem]
    generalize Outline.hiddenMethods.contains (textOf .identifier children) = hidden,
      modifiers.contains "public".toList = isPublic, modifiers.contains "static".toList = isStatic,
      occursIn "public".toList (textAll children) = hasPublic,
      occursIn "static".toList (textAll children) = hasStatic
    cases hidden <;> cases isPublic <;> cases isStatic <;> cases hasPublic <;> cases hasStatic <;>
      simp

theorem nodes_subset_of_mem {t : Tree Token} {ts : List (Tree Token)} (h : t ∈ ts) :
    t.nodes ⊆ nodesAll ts := by
  intro n hn
  rw [nodesAll_eq_flatMap]
  exact List.mem_flatMap.2 ⟨t, h, hn⟩

theorem nodesAll_children_subset : ∀ t : Tree Token, nodesAll t.children ⊆ t.nodes
  | .node _ _ _ => List.subset_cons_self _ _
  | .token _ _ | .skipped _ | .missing _ => List.Subset.refl _

/-- What a declaration in the body of a class declares stands below it. -/
theorem mem_nodesAll_of_member? {role : Option Role} {r : Rule}
    (h : member? cs = some (.node role r children)) : (r, children) ∈ nodesAll cs := by
  obtain ⟨m, hm, h⟩ := Option.bind_eq_some_iff.1 h
  have hm : m ∈ cs := (List.mem_filter.1 (List.mem_of_mem_head? hm)).1
  have hbelow : (r, children) ∈ nodesAll m.children := by
    split at h
    · rename_i _ generic hgeneric
      rw [hgeneric]
      have hmethod := (List.mem_filter.1 (List.mem_of_mem_head? h)).1
      exact nodes_subset_of_mem List.mem_cons_self
        (List.mem_cons_of_mem _ (nodes_subset_of_mem hmethod List.mem_cons_self))
    · exact nodes_subset_of_mem (List.mem_of_mem_head? h) List.mem_cons_self
  exact nodes_subset_of_mem hm (nodesAll_children_subset m hbelow)

mutual

/-- Behind the beginning of a node a walk visits its children and leaves it. -/
theorem exists_of_visits_eq {α : Type} {r : Rule} {children : List (Tree α)} :
    ∀ {t : Tree α} {before after : List (Visit α)},
      t.visits = before ++ .enter r children :: after →
      ∃ rest, after = visitsAll children ++ .leave r :: rest
  | .token _ _, before, _, h | .skipped _, before, _, h | .missing _, before, _, h => by
    rcases List.cons_eq_append_iff.1 h with ⟨-, h⟩ | ⟨_, -, h⟩
    · cases h
    · simp at h
  | .node _ _ _, before, after, h => by
    rcases List.cons_eq_append_iff.1 h with ⟨-, hroot⟩ | ⟨inner, rfl, hbelow⟩
    · cases hroot
      exact ⟨[], rfl⟩
    · rcases List.append_eq_append_iff.1 hbelow with ⟨inner', -, hlast⟩ | ⟨inner', hinner, hafter⟩
      · rcases List.cons_eq_append_iff.1 hlast with ⟨-, h⟩ | ⟨_, -, h⟩
        · cases h
        · simp at h
      · cases inner' with
        | nil => cases hafter
        | cons v inner' =>
          cases hafter
          obtain ⟨rest, rfl⟩ := exists_of_visitsAll_eq hinner
          exact ⟨_, List.append_assoc _ _ _⟩

/-- `exists_of_visits_eq` for several trees. -/
theorem exists_of_visitsAll_eq {α : Type} {r : Rule} {children : List (Tree α)} :
    ∀ {ts : List (Tree α)} {before after : List (Visit α)},
      visitsAll ts = before ++ .enter r children :: after →
      ∃ rest, after = visitsAll children ++ .leave r :: rest
  | [], _, _, h => by simp [visitsAll] at h
  | t :: ts, before, after, h => by
    rcases List.append_eq_append_iff.1 h with ⟨inner, -, hlater⟩ | ⟨inner, hfirst, hafter⟩
    · exact exists_of_visitsAll_eq hlater
    · cases inner with
      | nil => exact exists_of_visitsAll_eq (hafter.symm.trans (List.nil_append _).symm)
      | cons v inner =>
        cases hafter
        obtain ⟨rest, rfl⟩ := exists_of_visits_eq hfirst
        exact ⟨_, List.append_assoc _ _ _⟩

end

end Tree

/-- **Members are chosen by their text.** A walk through a file without complaints and without
ignored classes comes to a declaration in the body of a class, and from there to the method or the
fields that it declares. It lists them by their text. This is what the modifiers say exactly if the
text agrees with them. -/
theorem members_listed_by_text (methodsOnly : Bool) (packages : List (List Char))
    (source : List Char)
    (h : ((TokenStream.ofSource source).parse .compilationUnit 0).complaints = [])
    (hkept : ∀ n ∈ (analyse .compilationUnit 0 source).tree.nodes, Tree.Kept n)
    {before after : List (Visit Token)} {cs children : List (Tree Token)} {role : Option Role}
    {r : Rule} (hr : r ∈ [Rule.fieldDeclaration, .methodDeclaration])
    (hwalk : (analyse .compilationUnit 0 source).tree.visits =
      before ++ .enter .classBodyDeclaration cs :: after)
    (hmember : Tree.member? cs = some (.node role r children)) :
    ∃ inside rest o, Tree.visitsAll cs = inside ++ .enter r children :: rest ∧
      (Outline.empty packages).run methodsOnly (before ++ .enter .classBodyDeclaration cs :: inside) =
        (o, none) ∧
      o.step methodsOnly (.enter r children) =
        .ok ((Tree.listed r children).foldl Outline.addMember o) ∧
      (Tree.listed r children = Tree.chosen (Tree.modifiers cs) r children ↔
        Tree.TextAgrees (Tree.modifiers cs) r children) := by
  obtain ⟨inside, rest, hinside⟩ := List.append_of_mem
    (Tree.mem_visitsAll_of_mem_nodesAll (Tree.mem_nodesAll_of_member? hmember))
  obtain ⟨behind, rfl⟩ := Tree.exists_of_visits_eq hwalk
  have hwalk' : (analyse .compilationUnit 0 source).tree.visits =
      (before ++ .enter .classBodyDeclaration cs :: inside) ++ .enter r children ::
        (rest ++ .leave .classBodyDeclaration :: behind) := by
    rw [hwalk, hinside]
    simp
  obtain ⟨o, hrun, hstep⟩ := exists_listed_of_no_complaints methodsOnly packages h
    (List.mem_append_left [.constructorDeclaration] hr) hwalk'
  have hignored : o.ignored = [] := Outline.ignored_of_run rfl (fun r' children' hv => by
    refine hkept (r', children') (Tree.mem_nodes_of_mem_visits _ ?_)
    rw [hwalk']
    exact List.mem_append_left _ hv) hrun
  rw [Outline.ignores_of_ignored hignored] at hstep
  exact ⟨inside, rest, o, hinside, hrun, hstep, Tree.listed_eq_chosen_iff hr⟩

/-- Do the children of a declaration have a method that is listed by its modifiers but not by its
text? -/
def Tree.hasUnlistedMethod (entry : Member) (cs : List (Tree Token)) : Bool :=
  match Tree.member? cs with
  | some (.node _ r children) => r = .methodDeclaration &&
      Tree.chosen (Tree.modifiers cs) r children = [entry] && Tree.listed r children = []
  | _ => false

/-- A public method is not listed if its text does not say that it is public. -/
theorem public_method_not_listed :
    let source := "class A\x7bpublic void m()\x7b\x7d\x7d".toList
    ((TokenStream.ofSource source).parse .compilationUnit 0).complaints = [] ∧
      ∃ before after cs role children, (analyse .compilationUnit 0 source).tree.visits =
          before ++ .enter .classBodyDeclaration cs :: after ∧
        Tree.member? cs = some (.node role .methodDeclaration children) ∧
        Tree.chosen (Tree.modifiers cs) .methodDeclaration children =
          [⟨.methods, "void m()".toList⟩] ∧
        ∃ inside o, (Outline.empty []).run false
            (before ++ .enter .classBodyDeclaration cs :: inside) = (o, none) ∧
          o.step false (.enter .methodDeclaration children) = .ok o := by
  intro source
  have hfile : ((TokenStream.ofSource source).parse .compilationUnit 0).complaints = [] ∧
      (∀ n ∈ (analyse .compilationUnit 0 source).tree.nodes, Tree.Kept n) ∧
      Visit.entersAt (fun r cs => r = .classBodyDeclaration &&
          Tree.hasUnlistedMethod ⟨.methods, "void m()".toList⟩ cs)
        (analyse .compilationUnit 0 source).tree.visits 9 = true := by
    rw [TokenStream.parse_eq_plain, analyse_tree_eq_plain]
    decide +kernel
  obtain ⟨hquiet, hkept, hbody⟩ := hfile
  clear_value source
  obtain ⟨r, cs, hbody, hwalk⟩ := Visit.exists_entersAt hbody
  rw [Bool.and_eq_true, decide_eq_true_eq] at hbody
  obtain ⟨rfl, hbody⟩ := hbody
  unfold Tree.hasUnlistedMethod at hbody
  split at hbody
  · rename_i role r' children hmember
    rw [Bool.and_eq_true, Bool.and_eq_true, decide_eq_true_eq, decide_eq_true_eq,
      decide_eq_true_eq] at hbody
    obtain ⟨⟨rfl, hchosen⟩, hlisted⟩ := hbody
    obtain ⟨inside, rest, o, -, hrun, hstep, -⟩ :=
      members_listed_by_text false [] source hquiet hkept (by simp) hwalk hmember
    rw [hlisted] at hstep
    exact ⟨hquiet, _, _, cs, role, children, hwalk, hmember, hchosen, inside, o, hrun, hstep⟩
  · cases hbody

end JavaOutline
