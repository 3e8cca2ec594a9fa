import JavaOutline.Proofs.Outline.Lag
import JavaOutline.Proofs.Outline.SameTokens
import JavaOutline.Proofs.Parser.Conservation
import JavaOutline.Proofs.Parser.PackageFirst

/-!
# Packages matter for their own line only

A walk reads the packages that it knows in one place: where it enters a package. Elsewhere other
packages, or another text in front of its own, change nothing that it does (`Outline.step_recast`,
`Outline.run_behind`). In a tree of the parser the package comes first, so the whole walk is the walk
without a package behind the line that announces it (`run_packageFirst`), and so is the outline of a
file (`outlineFile_behind`).
-/

namespace JavaOutline

namespace Outline

/-- The outline with a text in front of its own, and with its packages changed in some way. -/
def recast (heading : List Char) (known : List (List Char) → List (List Char)) (o : Outline) :
    Outline :=
  { o with packages := known o.packages, text := heading ++ o.text }

/-- The outline with other packages and with a text in front of its own. -/
def behind (heading : List Char) (packages : List (List Char)) (o : Outline) : Outline :=
  { o with packages := packages, text := heading ++ o.text }

variable {heading : List Char} {known : List (List Char) → List (List Char)}
  {packages : List (List Char)} {o : Outline} {children : List (Tree Token)} {methodsOnly : Bool}

theorem behind_eq : behind heading packages = recast heading fun _ => packages := rfl

theorem ignores_recast : (o.recast heading known).ignores = o.ignores := rfl

theorem setIgnored_recast (ignore : Bool) :
    (o.recast heading known).setIgnored ignore = (o.setIgnored ignore).recast heading known := rfl

theorem write_recast (s : List Char) :
    (o.recast heading known).write s = (o.write s).recast heading known := by
  simp [recast, write]

theorem writeClass_recast (name extended implemented : List Char) :
    (o.recast heading known).writeClass name extended implemented =
      (o.writeClass name extended implemented).recast heading known := by
  simp only [writeClass, write_recast]
  rfl

theorem enterClass_recast : (o.recast heading known).enterClass children =
    (o.enterClass children).map (recast heading known) := by
  simp only [enterClass, bind, Except.bind, pure, Except.pure]
  cases childText .identifier children with
  | error q => rfl
  | ok name =>
    dsimp only
    split
    · rw [setIgnored_recast, writeClass_recast]
      rfl
    · cases childText .typeType children with
      | error q => rfl
      | ok extended =>
        dsimp only
        split
        · rfl
        · rw [setIgnored_recast, writeClass_recast]
          rfl

theorem leaveClass_recast : (o.recast heading known).leaveClass methodsOnly =
    (o.leaveClass methodsOnly).recast heading known := by
  simp only [leaveClass, ignores_recast, write_recast]
  cases o.ignores <;> rfl

theorem addField_recast (type : List Char) (isStatic : Bool) (declarator : Tree Token) :
    addField type isStatic (o.recast heading known) declarator =
      (addField type isStatic o declarator).map (recast heading known) := by
  simp only [addField, bind, Except.bind, pure, Except.pure]
  cases childText .variableDeclaratorId declarator.children with
  | error q => rfl
  | ok name =>
    dsimp only
    split
    · rfl
    · split <;> rfl

theorem foldlM_addField_recast (type : List Char) (isStatic : Bool)
    (declarators : List (Tree Token)) :
    declarators.foldlM (addField type isStatic) (o.recast heading known) =
      (declarators.foldlM (addField type isStatic) o).map (recast heading known) := by
  induction declarators generalizing o with
  | nil => rfl
  | cons d ds ih =>
    simp only [List.foldlM_cons, bind, Except.bind, addField_recast]
    cases addField type isStatic o d with
    | error q => rfl
    | ok o' => exact ih

theorem enterField_recast : (o.recast heading known).enterField children =
    (o.enterField children).map (recast heading known) := by
  cases ho : o.ignores with
  | true =>
    simp only [enterField, ignores_recast, ho, if_true]
    rfl
  | false =>
    simp only [enterField, ignores_recast, ho, Bool.false_eq_true, if_false, bind, Except.bind, pure,
      Except.pure]
    cases childText .typeType children with
    | error q => rfl
    | ok type =>
      dsimp only
      split
      · rfl
      · exact foldlM_addField_recast ..

theorem enterMethod_recast : (o.recast heading known).enterMethod children =
    (o.enterMethod children).map (recast heading known) := by
  cases ho : o.ignores with
  | true =>
    simp only [enterMethod, ignores_recast, ho, if_true]
    rfl
  | false =>
    simp only [enterMethod, ignores_recast, ho, Bool.false_eq_true, if_false, bind, Except.bind, pure,
      Except.pure]
    cases childText .identifier children with
    | error q => rfl
    | ok name =>
      dsimp only
      split
      · rfl
      · cases childText .typeTypeOrVoid children with
        | error q => rfl
        | ok result =>
          dsimp only
          cases parameters children with
          | error q => rfl
          | ok ps =>
            dsimp only
            split
            · rfl
            · split <;> rfl

theorem enterConstructor_recast : (o.recast heading known).enterConstructor children =
    (o.enterConstructor children).map (recast heading known) := by
  cases ho : o.ignores with
  | true =>
    simp only [enterConstructor, ignores_recast, ho, if_true]
    rfl
  | false =>
    simp only [enterConstructor, ignores_recast, ho, Bool.false_eq_true, if_false, bind, Except.bind,
      pure, Except.pure]
    cases childText .identifier children with
    | error q => rfl
    | ok name =>
      dsimp only
      cases parameters children <;> rfl

/-- A visit that enters no package does the same whatever has been written and whatever packages are
known. -/
theorem step_recast {v : Visit Token} (hv : ∀ cs, v ≠ .enter .packageDeclaration cs) :
    (o.recast heading known).step methodsOnly v =
      (o.step methodsOnly v).map (recast heading known) := by
  unfold step
  split
  · exact absurd rfl (hv _)
  · exact enterClass_recast
  · exact enterField_recast
  · exact enterMethod_recast
  · exact enterConstructor_recast
  · rw [leaveClass_recast]
    rfl
  · rfl

/-- `step_recast` for other packages. -/
theorem step_behind {v : Visit Token} (hv : ∀ cs, v ≠ .enter .packageDeclaration cs) :
    (o.behind heading packages).step methodsOnly v =
      (o.step methodsOnly v).map (behind heading packages) := by
  rw [behind_eq]
  exact step_recast hv

/-- A walk that enters no package comes to the same end whatever packages are known. -/
theorem run_behind {vs : List (Visit Token)}
    (hvs : ∀ v ∈ vs, ∀ cs, v ≠ .enter .packageDeclaration cs) :
    (o.behind heading packages).run methodsOnly vs =
      ((o.run methodsOnly vs).1.behind heading packages, (o.run methodsOnly vs).2) := by
  induction vs generalizing o with
  | nil => rfl
  | cons v vs ih =>
    obtain ⟨hv, hvs⟩ := List.forall_mem_cons.1 hvs
    rw [run, run, step_behind hv]
    cases o.step methodsOnly v with
    | error q => rfl
    | ok o' => exact ih hvs

/-- Leaves are passed by. -/
theorem run_leaves {vs : List (Visit Token)} (hvs : ∀ v ∈ vs, v.rule? = none)
    (ws : List (Visit Token)) : o.run methodsOnly (vs ++ ws) = o.run methodsOnly ws := by
  induction vs with
  | nil => rfl
  | cons v vs ih =>
    obtain ⟨hv, hvs⟩ := List.forall_mem_cons.1 hvs
    have hstep : o.step methodsOnly v = .ok o := by
      cases v with
      | enter | leave => cases hv
      | token | skipped | missing => rfl
    rw [List.cons_append, run, hstep]
    exact ih hvs

end Outline

/-! ## The package of a file -/

namespace Package

/-- The line that announces a package. -/
def line (p : List Char) : List Char := "# Package ".toList ++ p ++ ['\n']

/-- What announces the package of a file, if it has one and the package is new. -/
def heading (packages : List (List Char)) : Option (List Char) → List Char
  | none => []
  | some p => if p ∈ packages then [] else line p

/-- The packages that have been announced behind a file with this package. -/
def after (packages : List (List Char)) : Option (List Char) → List (List Char)
  | none => packages
  | some p => if p ∈ packages then packages else packages ++ [p]

end Package

namespace Tree

/-- The name of the package that a file with this tree declares, if there is one. -/
def package? (t : Tree Token) : Option (List Char) :=
  (child? .packageDeclaration t.children).bind fun declaration =>
    (child? .qualifiedName declaration.children).map text

theorem mapAll_append {α β : Type} (f : α → β) (ts us : List (Tree α)) :
    mapAll f (ts ++ us) = mapAll f ts ++ mapAll f us := by
  simp [mapAll_eq_map]

theorem OnlyLeaves.noPackage {α : Type} {ts : List (Tree α)} (h : OnlyLeaves ts) : NoPackage ts := by
  intro v hv
  rw [h v hv]
  nofun

section
variable {α β : Type} {f : α → β} {ts : List (Tree α)}

/-- A walk enters and leaves nodes of the same rules, whatever the leaves hold. -/
theorem exists_of_mem_visitsAll_mapAll {v : Visit β} (hv : v ∈ visitsAll (mapAll f ts)) :
    ∃ u ∈ visitsAll ts, u.rule? = v.rule? := by
  rw [visitsAll_mapAll, List.mem_map] at hv
  obtain ⟨u, hu, rfl⟩ := hv
  exact ⟨u, hu, by cases u <;> rfl⟩

theorem OnlyLeaves.mapAll (h : OnlyLeaves ts) : OnlyLeaves (mapAll f ts) := by
  intro v hv
  obtain ⟨u, hu, hrule⟩ := exists_of_mem_visitsAll_mapAll hv
  rw [← hrule, h u hu]

theorem NoPackage.mapAll (h : NoPackage ts) : NoPackage (mapAll f ts) := by
  intro v hv
  obtain ⟨u, hu, hrule⟩ := exists_of_mem_visitsAll_mapAll hv
  rw [← hrule]
  exact h u hu

theorem PackageFirst.mapAll (h : PackageFirst ts) : PackageFirst (mapAll f ts) := by
  obtain ⟨before, package, after, rfl, hbefore, hpackage, hafter⟩ := h
  refine ⟨_, _, _, by rw [mapAll_append, mapAll_append], hbefore.mapAll, ?_, hafter.mapAll⟩
  rcases hpackage with rfl | ⟨children, rfl, hchildren⟩
  · exact .inl rfl
  · exact .inr ⟨_, rfl, hchildren.mapAll⟩

end

/-- Where there is no package declaration none is found. -/
theorem NoPackage.select_eq_nil {ts : List (Tree Token)} (h : NoPackage ts) :
    select (.rule .packageDeclaration) ts = [] := by
  refine List.filter_eq_nil_iff.2 fun t ht hisA => ?_
  cases t with
  | token | skipped | missing => simp [isA] at hisA
  | node role r children =>
    obtain rfl : .packageDeclaration = r := by simpa [isA] using hisA
    refine h (.enter .packageDeclaration children) ?_ rfl
    obtain ⟨us, vs, rfl⟩ := List.append_of_mem ht
    simp [visits]

/-- The package declaration of a file is found wherever it stands. -/
theorem child?_package {before package after : List (Tree Token)} (hbefore : OnlyLeaves before)
    (hafter : NoPackage after) : child? .packageDeclaration (before ++ package ++ after) =
      child? .packageDeclaration package := by
  have hselect : select (.rule .packageDeclaration) (before ++ package ++ after) =
      select (.rule .packageDeclaration) before ++ select (.rule .packageDeclaration) package ++
        select (.rule .packageDeclaration) after := by
    simp [select]
  rw [child?, hselect, hbefore.noPackage.select_eq_nil, hafter.select_eq_nil, List.nil_append,
    List.append_nil]
  rfl

end Tree

namespace Outline

variable {methodsOnly : Bool}

/-- A walk that enters no package announces none. -/
theorem run_empty {packages : List (List Char)} {vs : List (Visit Token)}
    (hvs : ∀ v ∈ vs, ∀ cs, v ≠ .enter .packageDeclaration cs) :
    (empty packages).run methodsOnly vs = (((empty []).run methodsOnly vs).1.behind [] packages,
      ((empty []).run methodsOnly vs).2) := by
  have hempty : empty packages = (empty []).behind [] packages := rfl
  rw [hempty, run_behind hvs]

/-- Entering a package writes its line, if it is new. -/
theorem enterPackage_empty {packages : List (List Char)} {children : List (Tree Token)}
    {name : List Char} (h : childText .qualifiedName children = .ok name) :
    (empty packages).enterPackage children = .ok ((empty []).behind
      (Package.heading packages (some name)) (Package.after packages (some name))) := by
  have hline : (empty packages).announcement name =
      if packages.contains name then [] else Package.line name := rfl
  rw [enterPackage_of_read h, announce_eq, hline]
  simp only [behind, empty, Package.heading, Package.after, List.contains_iff_mem, List.nil_append,
    List.append_nil]

/-- A package without a name ends the walk. -/
theorem enterPackage_error {packages : List (List Char)} {children : List (Tree Token)}
    {q : Question} (h : childText .qualifiedName children = .error q) :
    (empty packages).enterPackage children = .error q := by
  simp only [enterPackage, h, bind, Except.bind]

/-- A walk that begins with a package declaration and enters no other one. -/
theorem run_package {packages : List (List Char)} {children : List (Tree Token)} {name : List Char}
    (hname : childText .qualifiedName children = .ok name) {vs : List (Visit Token)}
    (hvs : ∀ v ∈ vs, ∀ cs, v ≠ .enter .packageDeclaration cs) :
    (empty packages).run methodsOnly (.enter .packageDeclaration children :: vs) =
      (((empty []).run methodsOnly vs).1.behind (Package.heading packages (some name))
        (Package.after packages (some name)), ((empty []).run methodsOnly vs).2) := by
  rw [run]
  simp only [step, enterPackage_empty hname]
  exact run_behind hvs

/-- A walk through a file begins with its package, if it has one. -/
theorem run_file {packages : List (List Char)} {before package after : List (Tree Token)}
    (hbefore : Tree.OnlyLeaves before) :
    (empty packages).run methodsOnly
        (Tree.node none .compilationUnit (before ++ package ++ after)).visits =
      (empty packages).run methodsOnly
        (Tree.visitsAll (package ++ after) ++ [.leave .compilationUnit]) := by
  rw [Tree.visits, List.cons_append, run]
  simp only [step, Tree.visitsAll_append, List.append_assoc]
  exact run_leaves hbefore _

end Outline

theorem Tree.NoPackage.ne_enter {ts : List (Tree Token)} (h : Tree.NoPackage ts) :
    ∀ v ∈ Tree.visitsAll ts, ∀ cs, v ≠ .enter .packageDeclaration cs := by
  rintro v hv cs rfl
  exact h _ hv rfl

namespace Outline

/-- A walk through a file whose package is declared first. -/
theorem run_packageFirst (methodsOnly : Bool) {ts : List (Tree Token)} (h : Tree.PackageFirst ts) :
    ∃ (o : Outline) (q : Option Question), ∀ packages,
      (empty packages).run methodsOnly (Tree.node none .compilationUnit ts).visits =
        (o.behind (Package.heading packages (Tree.node none .compilationUnit ts).package?)
          (Package.after packages (Tree.node none .compilationUnit ts).package?), q) := by
  obtain ⟨before, package, after, rfl, hbefore, hpackage, hafter⟩ := h
  have hpackage? : (Tree.node none .compilationUnit (before ++ package ++ after)).package? =
      (Tree.node none .compilationUnit package).package? := by
    simp only [Tree.package?, Tree.children, Tree.child?_package hbefore hafter]
  simp only [run_file hbefore, hpackage?]
  rcases hpackage with rfl | ⟨children, rfl, hchildren⟩
  · -- Without a package nothing is announced.
    have hquiet : ∀ v ∈ Tree.visitsAll ([] ++ after) ++ [Visit.leave .compilationUnit],
        ∀ cs, v ≠ .enter .packageDeclaration cs := by
      simpa [or_imp, forall_and] using hafter.ne_enter
    exact ⟨_, _, fun packages => run_empty hquiet⟩
  · have hvisits : Tree.visitsAll ([.node none .packageDeclaration children] ++ after) ++
        [.leave .compilationUnit] = .enter .packageDeclaration children :: (Tree.visitsAll children ++
          .leave .packageDeclaration :: (Tree.visitsAll after ++ [.leave .compilationUnit])) := by
      simp [Tree.visits]
    have hquiet : ∀ v ∈ Tree.visitsAll children ++ Visit.leave .packageDeclaration ::
        (Tree.visitsAll after ++ [.leave .compilationUnit]),
        ∀ cs, v ≠ .enter .packageDeclaration cs := by
      have h₁ := hchildren.ne_enter
      have h₂ := hafter.ne_enter
      simp only [List.mem_append, List.mem_cons]
      rintro v (hv | rfl | hv | rfl | hv)
      · exact h₁ v hv
      · rintro _ ⟨⟩
      · exact h₂ v hv
      · rintro _ ⟨⟩
      · cases hv
    have hpackage? : (Tree.node none .compilationUnit
        [.node none .packageDeclaration children]).package? =
        (Tree.child? .qualifiedName children).map Tree.text := rfl
    simp only [hvisits, hpackage?]
    cases hname : Tree.child? .qualifiedName children with
    | none =>
      have herror : childText .qualifiedName children = .error .text := by simp [childText, hname]
      refine ⟨empty [], some .text, fun packages => ?_⟩
      rw [run, step, enterPackage_error herror]
      rfl
    | some name =>
      have hok : childText .qualifiedName children = .ok name.text := by simp [childText, hname]
      exact ⟨_, _, fun packages => run_package hok hquiet⟩

end Outline

/-! ## Outlines of files -/

/-- The name of the package that a file declares, if it can be read and declares one. -/
def declaredPackage? (contents : Option (List UInt8)) : Option (List Char) :=
  contents.bind fun bytes =>
    match Utf8.decode bytes with
    | .error _ => none
    | .ok source => (analyse .compilationUnit 0 source).tree.package?

/-- Known packages make no difference for the outline of a text but in its heading. -/
theorem outlineSource_behind (methodsOnly : Bool) (source : List Char) :
    ∃ (o : Outline) (q : Option Question), ∀ packages,
      outlineSource methodsOnly packages source =
        (o.behind (Package.heading packages (analyse .compilationUnit 0 source).tree.package?)
          (Package.after packages (analyse .compilationUnit 0 source).tree.package?), q) := by
  obtain ⟨children, htree, hfirst⟩ := (TokenStream.ofSource source).parse_packageFirst 0
  have htree' : (analyse .compilationUnit 0 source).tree = .node none .compilationUnit
      (Tree.mapAll (TokenStream.ofSource source).get children) := by
    rw [analyse_tree, htree]
    rfl
  simp only [outlineSource, htree']
  exact Outline.run_packageFirst methodsOnly hfirst.mapAll

/-- Known packages make no difference for the outline of a file but in its heading. -/
theorem outlineFile_behind (methodsOnly : Bool) (name : List Char)
    (contents : Option (List UInt8)) : ∃ outline : Except FileFault (List Char), ∀ packages,
      outlineFile methodsOnly packages name contents =
        ⟨outline.map (Package.heading packages (declaredPackage? contents) ++ ·),
          Package.after packages (declaredPackage? contents)⟩ := by
  cases contents with
  | none => exact ⟨.error (.absent name), fun packages => rfl⟩
  | some bytes =>
    cases hdecode : Utf8.decode bytes with
    | error fault =>
      refine ⟨.error (.notText fault), fun packages => ?_⟩
      simp [outlineFile, declaredPackage?, hdecode, Except.map, Package.after]
    | ok source =>
      obtain ⟨o, q, h⟩ := outlineSource_behind methodsOnly source
      cases q with
      | none =>
        refine ⟨.ok o.text, fun packages => ?_⟩
        simp [outlineFile, declaredPackage?, hdecode, h, Outline.behind, Except.map]
      | some question =>
        refine ⟨.error (.missingChild question), fun packages => ?_⟩
        simp [outlineFile, declaredPackage?, hdecode, h, Outline.behind, Except.map]

end JavaOutline
