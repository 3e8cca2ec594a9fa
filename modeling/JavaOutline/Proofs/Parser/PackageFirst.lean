import JavaOutline.Parser.Analysis
import JavaOutline.Proofs.Parser.Trail
import JavaOutline.Tree.Walk

/-!
# A package is declared first and once

Whatever errors there are in a file, its tree has at most one package declaration. It is a child of
the root, and before it there are only leaves (`TokenStream.parse_packageFirst`): only a compilation unit asks
for a package declaration, at its beginning, and recovery adds nothing but leaves. The rules that
are read on a trail can be seen on the walk through its trees (`Trail.rule_of_mem_visits`), so it is
enough to say which rules each part of the parse reads.
-/

namespace JavaOutline

/-- The rule of the node that is entered or left. -/
def Visit.rule? {α : Type} : Visit α → Option Rule
  | .enter r _ | .leave r => some r
  | .token _ | .skipped _ | .missing _ => none

namespace Tree

variable {α : Type}

@[simp] theorem visitsAll_nil : visitsAll ([] : List (Tree α)) = [] := rfl

@[simp] theorem visitsAll_cons (t : Tree α) (ts : List (Tree α)) :
    visitsAll (t :: ts) = t.visits ++ visitsAll ts := rfl

@[simp] theorem visitsAll_append (ts us : List (Tree α)) :
    visitsAll (ts ++ us) = visitsAll ts ++ visitsAll us := by
  induction ts with
  | nil => rfl
  | cons t ts ih => simp [ih]

/-- A walk does not see the parts that children play. -/
@[simp] theorem visits_withRole (role : Role) (t : Tree α) : (t.withRole role).visits = t.visits := by
  cases t <;> rfl

@[simp] theorem visitsAll_lastWithRole (role : Role) (ts : List (Tree α)) :
    visitsAll (lastWithRole role ts) = visitsAll ts := by
  induction ts with
  | nil => rfl
  | cons t ts ih =>
    cases ts with
    | nil => simp [lastWithRole]
    | cons u us => simpa [lastWithRole] using ih

/-- There are no nodes among the trees. -/
def OnlyLeaves (ts : List (Tree α)) : Prop := ∀ v ∈ visitsAll ts, v.rule? = none

/-- There is no package declaration in the trees. -/
def NoPackage (ts : List (Tree α)) : Prop :=
  ∀ v ∈ visitsAll ts, v.rule? ≠ some .packageDeclaration

/-- Leaves, then a package declaration, if there is one, and then no other one. -/
def PackageFirst (ts : List (Tree α)) : Prop :=
  ∃ before package after, ts = before ++ package ++ after ∧ OnlyLeaves before ∧
    (package = [] ∨ ∃ children, package = [.node none .packageDeclaration children] ∧
      NoPackage children) ∧ NoPackage after

variable {ts us : List (Tree α)}

theorem NoPackage.append (ht : NoPackage ts) (hu : NoPackage us) : NoPackage (ts ++ us) := by
  intro v hv
  rw [visitsAll_append, List.mem_append] at hv
  exact hv.elim (ht v) (hu v)

theorem NoPackage.packageFirst (h : NoPackage ts) : PackageFirst ts :=
  ⟨[], [], ts, rfl, by simp [OnlyLeaves], .inl rfl, h⟩

theorem packageFirst_nil : PackageFirst ([] : List (Tree α)) :=
  NoPackage.packageFirst (by simp [NoPackage])

/-- More leaves in front make no difference. -/
theorem PackageFirst.leaves (hu : PackageFirst us) (ht : OnlyLeaves ts) :
    PackageFirst (ts ++ us) := by
  obtain ⟨before, package, after, rfl, hbefore, hpackage, hafter⟩ := hu
  refine ⟨ts ++ before, package, after, by simp, ?_, hpackage, hafter⟩
  intro v hv
  rw [visitsAll_append, List.mem_append] at hv
  exact hv.elim (ht v) (hbefore v)

/-- No package declaration may follow. -/
theorem PackageFirst.append (ht : PackageFirst ts) (hu : NoPackage us) : PackageFirst (ts ++ us) := by
  obtain ⟨before, package, after, rfl, hbefore, hpackage, hafter⟩ := ht
  exact ⟨before, package, after ++ us, by simp, hbefore, hpackage, hafter.append hu⟩

end Tree

namespace Trail

variable {S : Setting} {K : Kind → Bool} {R : Rule → Bool} {s s' : Progress}
  {ts : List (Tree Nat)}

/-- On a walk through the trees of a trail there are only nodes of the rules `R`. -/
theorem rule_of_mem_visits (h : Trail S K R s ts s') :
    ∀ v ∈ Tree.visitsAll ts, ∀ r, v.rule? = some r → R r = true := by
  induction h with
  | refl | look | cut | complain | fail => simp
  | trans _ _ ih ih' =>
    intro v hv
    rw [Tree.visitsAll_append, List.mem_append] at hv
    exact hv.elim (ih v) (ih' v)
  | accept | skip | drop | assume => simp [Tree.visits, Visit.rule?]
  | node r hr _ ih =>
    intro v hv r' hr'
    simp only [Tree.visitsAll_cons, Tree.visits, Tree.visitsAll_nil, List.append_nil,
      List.cons_append, List.mem_cons, List.mem_append, List.not_mem_nil, or_false] at hv
    rcases hv with rfl | hv | rfl
    · cases hr'
      exact hr
    · exact ih v hv r' hr'
    · cases hr'
      exact hr
  | named role _ ih => rwa [Tree.visitsAll_lastWithRole]

/-- A trail on which no rule is read gives leaves. -/
theorem onlyLeaves (h : Trail S K (fun _ => false) s ts s') : Tree.OnlyLeaves ts := by
  intro v hv
  cases hr : v.rule? with
  | none => rfl
  | some r => cases h.rule_of_mem_visits v hv r hr

theorem noPackage (h : Trail S K R s ts s') (hR : R .packageDeclaration = false) :
    Tree.NoPackage ts := by
  intro v hv hr
  rw [h.rule_of_mem_visits v hv _ hr] at hR
  cases hR

end Trail

/-- Any rule but those for a whole file and for a package. -/
def Rule.isPart (r : Rule) : Bool := r != .compilationUnit && r != .packageDeclaration

/-- Only a compilation unit wants a package declaration. -/
theorem Rule.within_part (r : Rule) (h : r.isPart = true) :
    r.body.within (fun _ => true) Rule.isPart = true := by
  revert h
  cases r <;> decide

namespace Setting

/-- The alternatives of a compilation unit: a package, if there is one, and declarations, or a
module and the end of the file. -/
theorem compilationUnit_parts : ∃ declarations modules,
    declarations.within (fun _ => true) Rule.isPart = true ∧
      modules.within (fun _ => true) Rule.isPart = true ∧
      Rule.compilationUnit.body = .plain (.choice
        [.andThen (.optional [.call .packageDeclaration 0]) declarations, modules]) :=
  ⟨_, _, by decide, by decide, rfl⟩

section
variable {S : Setting} {F : Frame} {p : Place} {s : Progress}

/-- A step that gives leaves only may come first. -/
theorem andThen_leaves {a : Step} {f : Progress → Step}
    (ha : Trail S (fun _ => true) (fun _ => false) s a.trees a.state)
    (hf : ∀ t, Tree.PackageFirst (f t).trees) : Tree.PackageFirst (a.andThen f).trees := by
  unfold Step.andThen
  split
  · exact (ha.noPackage rfl).packageFirst
  · exact (hf _).leaves ha.onlyLeaves

/-- A step without a package declaration may come last. -/
theorem andThen_noPackage {a : Step} {f : Progress → Step} (ha : Tree.PackageFirst a.trees)
    (hf : ∀ t, Tree.NoPackage (f t).trees) : Tree.PackageFirst (a.andThen f).trees := by
  unfold Step.andThen
  split
  · exact ha
  · exact ha.append (hf _)

/-- Of several alternatives one is taken, behind leaves, or none. -/
theorem parseBlock_packageFirst (n : Nat) (base : Nat) (alts : List Piece) (otherwise : Option Nat)
    (halts : ∀ piece ∈ alts, ∀ (n : Nat) (q : Place) (t : Progress),
      Tree.PackageFirst (S.parsePiece n F q piece t).trees) :
    Tree.PackageFirst (S.parseBlock n F p base alts otherwise s).trees := by
  cases n with
  | zero => exact Tree.packageFirst_nil
  | succ n =>
    rw [parseBlock_succ]
    refine andThen_leaves (resync_trail false) fun t => ?_
    unfold parseChosen
    split
    · exact Tree.packageFirst_nil
    · split
      · rename_i q piece hq
        exact halts piece (mem_of_alternative? hq) n q _
      · exact Tree.packageFirst_nil

variable (hS : S.body = Rule.body)
include hS

/-- Inside a compilation unit no package is declared, unless it is asked for. -/
theorem trailAt_part (n : Nat) : TrailAt S (fun _ => true) Rule.isPart n :=
  trailAt (hS ▸ Rule.within_part) n

theorem parsePiece_noPackage {piece : Piece} (h : piece.within (fun _ => true) Rule.isPart = true)
    (n : Nat) : Tree.NoPackage (S.parsePiece n F p piece s).trees :=
  ((trailAt_part hS n).piece F p piece s h).noPackage rfl

/-- A package declaration has no other one below it. -/
theorem parseRule_package (n : Nat) (callers : List Place) (level : Nat) :
    ∃ children, (S.parseRule n callers .packageDeclaration level s).1 =
      .node none .packageDeclaration children ∧ Tree.NoPackage children := by
  cases n with
  | zero => exact ⟨[], rfl, by simp [Tree.NoPackage]⟩
  | succ n =>
    obtain ⟨piece, hbody, hpiece⟩ : ∃ piece, Rule.packageDeclaration.body = .plain piece ∧
        piece.within (fun _ => true) Rule.isPart = true := ⟨_, rfl, by decide⟩
    have hchildren : Tree.NoPackage (S.parseBody n ⟨callers, level⟩ .packageDeclaration s).trees := by
      rw [parseBody_plain (hS ▸ hbody)]
      exact parsePiece_noPackage hS hpiece n
    rw [parseRule_succ]
    split
    · exact ⟨_, rfl, hchildren⟩
    · rename_i f _
      have hgiveUp := giveUp_trail (S := S) (K := fun _ => true) (R := fun _ => false)
        (F := ⟨callers, level⟩) (s := (S.parseBody n ⟨callers, level⟩ .packageDeclaration s).state) f
      exact ⟨_, rfl, hchildren.append (hgiveUp.noPackage rfl)⟩

/-- The call for a package declaration gives one, or nothing. -/
theorem parsePiece_package (n : Nat) :
    Tree.PackageFirst (S.parsePiece n F p (.call .packageDeclaration 0) s).trees := by
  cases n with
  | zero => exact Tree.packageFirst_nil
  | succ n =>
    obtain ⟨children, heq, hchildren⟩ := parseRule_package (s := s) hS n (S.behind p :: F.callers) 0
    refine ⟨[], [.node none .packageDeclaration children], [], ?_, by simp [Tree.OnlyLeaves],
      .inr ⟨children, rfl, hchildren⟩, by simp [Tree.NoPackage]⟩
    simp [parsePiece, Step.ok, heq]

/-- Where a package may be declared there is one declaration at most. -/
theorem parsePiece_optional (n : Nat) :
    Tree.PackageFirst (S.parsePiece n F p (.optional [.call .packageDeclaration 0]) s).trees := by
  cases n with
  | zero => exact Tree.packageFirst_nil
  | succ n =>
    refine parseBlock_packageFirst n _ _ _ fun piece hpiece m q t => ?_
    obtain rfl := List.mem_singleton.1 hpiece
    exact parsePiece_package hS m

/-- The declarations of a file may begin with that of a package. -/
theorem parsePiece_declarations {declarations : Piece}
    (h : declarations.within (fun _ => true) Rule.isPart = true) (n : Nat) :
    Tree.PackageFirst (S.parsePiece n F p
      (.andThen (.optional [.call .packageDeclaration 0]) declarations) s).trees := by
  cases n with
  | zero => exact Tree.packageFirst_nil
  | succ n =>
    exact andThen_noPackage (parsePiece_optional hS n) fun t => parsePiece_noPackage hS h n

/-- The right-hand side of a compilation unit begins with leaves and the package declaration. -/
theorem parseBody_packageFirst (n : Nat) :
    Tree.PackageFirst (S.parseBody n F .compilationUnit s).trees := by
  obtain ⟨declarations, modules, hdeclarations, hmodules, hbody⟩ := compilationUnit_parts
  rw [parseBody_plain (hS ▸ hbody)]
  cases n with
  | zero => exact Tree.packageFirst_nil
  | succ n =>
    refine parseBlock_packageFirst n _ _ _ fun piece hpiece m q t => ?_
    rcases List.mem_cons.1 hpiece with rfl | hlast
    · exact parsePiece_declarations hS hdeclarations m
    · obtain rfl := List.mem_singleton.1 hlast
      exact (parsePiece_noPackage hS hmodules m).packageFirst

/-- Giving up a compilation unit adds only leaves. -/
theorem parseRule_packageFirst (n : Nat) (callers : List Place) (level : Nat) :
    ∃ children, (S.parseRule n callers .compilationUnit level s).1 =
      .node none .compilationUnit children ∧ Tree.PackageFirst children := by
  cases n with
  | zero => exact ⟨[], rfl, Tree.packageFirst_nil⟩
  | succ n =>
    have hbody := parseBody_packageFirst (F := ⟨callers, level⟩) (s := s) hS n
    rw [parseRule_succ]
    split
    · exact ⟨_, rfl, hbody⟩
    · rename_i f _
      have hgiveUp := giveUp_trail (S := S) (K := fun _ => true) (R := fun _ => false)
        (F := ⟨callers, level⟩) (s := (S.parseBody n ⟨callers, level⟩ .compilationUnit s).state) f
      exact ⟨_, rfl, hbody.append (hgiveUp.noPackage rfl)⟩

end

end Setting

/-- **A package is declared first and once**, whatever errors a file has. -/
theorem TokenStream.parse_packageFirst (T : TokenStream) (level : Nat) :
    ∃ children, (T.parse .compilationUnit level).tree = .node none .compilationUnit children ∧
      Tree.PackageFirst children :=
  Setting.parseRule_packageFirst (S := .java T.kinds T.index) rfl _ [] level

end JavaOutline
