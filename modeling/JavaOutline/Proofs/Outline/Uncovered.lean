import JavaOutline.Proofs.Outline.Listed

/-!
# Members of ignored classes

Whether members are passed over is remembered by the level, and an ignored class does not raise the
level. So a class that begins inside an ignored class takes over the level of that class. All levels
on which classes are ignored are at or above the present one (`Outline.Covered`), and the end of a
class lowers the level: behind the end of a class nothing is ignored until the next class begins
(`Outline.ignores_leaveClass`). So the members of an ignored class are passed over up to the first
class inside it, and collected from there on (`member_of_ignored_class`).
-/

namespace JavaOutline

namespace Visit

variable {α : Type}

/-- Does the visit enter a class? -/
def entersClass : Visit α → Bool
  | .enter .classDeclaration _ => true
  | _ => false

/-- Does the visit leave a class? -/
def leavesClass : Visit α → Bool
  | .leave .classDeclaration => true
  | _ => false

/-- The number of classes that are open behind the visits if `n` are before them. There is none if a
class is left that is not open. -/
def openClasses : Nat → List (Visit α) → Option Nat
  | n, [] => some n
  | n, v :: vs =>
    if v.entersClass then openClasses (n + 1) vs
    else if v.leavesClass then
      if n = 0 then none else openClasses (n - 1) vs
    else openClasses n vs

theorem exists_of_entersClass {v : Visit α} (h : v.entersClass = true) :
    ∃ children, v = .enter .classDeclaration children := by
  unfold entersClass at h
  split at h
  · exact ⟨_, rfl⟩
  · cases h

theorem eq_of_leavesClass {v : Visit α} (h : v.leavesClass = true) :
    v = .leave .classDeclaration := by
  unfold leavesClass at h
  split at h
  · rfl
  · cases h

end Visit

namespace Outline

variable {methodsOnly : Bool} {o o' : Outline} {v : Visit Token} {children : List (Tree Token)}

/-- Classes are ignored only on the present level and above it. -/
def Covered (o : Outline) : Prop := ∀ n ∈ o.ignored, o.level ≤ n

theorem covered_empty (packages : List (List Char)) : (empty packages).Covered := by
  intro n hn
  cases hn

/-! ## One visit -/

/-- An ignored class is noted on the present level. Any other class moves on to the next level and
takes back what was noted on the present one. -/
theorem step_enterClass (h : Deed.Legible (.classDeclaration, children))
    (hstep : o.step methodsOnly (.enter .classDeclaration children) = .ok o') :
    (Tree.isIgnoredClass .classDeclaration children = true ∧
      o' = (o.setIgnored false).setIgnored true) ∨
    (Tree.isIgnoredClass .classDeclaration children = false ∧
      o'.level = o.level + 1 ∧ o'.ignored = o.ignored.filter (· ≠ o.level)) := by
  obtain ⟨d, hread, hignored⟩ := h
  rw [step_of_read hread] at hstep
  rcases Deed.read_class hread with rfl | ⟨name, extended, implemented, rfl⟩
  · exact .inl ⟨hignored.1 rfl, (Except.ok.inj hstep).symm⟩
  · refine .inr ⟨?_, ?_, ?_⟩
    · rw [Bool.eq_false_iff]
      intro hclass
      cases hignored.2 hclass
    · rw [← Except.ok.inj hstep]
      rfl
    · rw [← Except.ok.inj hstep]
      rfl

/-- A visit that neither enters nor leaves a class changes neither the level nor what is ignored. -/
theorem step_otherVisit (h : v.Legible) (henter : v.entersClass = false)
    (hleave : v.leavesClass = false) (hstep : o.step methodsOnly v = .ok o') :
    o'.level = o.level ∧ o'.ignored = o.ignored := by
  cases v with
  | enter r children =>
    have hr : r ≠ .classDeclaration := by
      rintro rfl
      cases henter
    obtain ⟨d, hread, -⟩ := h r children rfl
    rw [step_of_read hread] at hstep
    rw [← Except.ok.inj hstep]
    rcases Deed.read_other hr hread with rfl | ⟨name, rfl⟩ | ⟨members, rfl⟩
    · exact ⟨rfl, rfl⟩
    · change (o.announce name).level = _ ∧ (o.announce name).ignored = _
      rw [announce_eq]
      exact ⟨rfl, rfl⟩
    · rw [begin_add]
      split
      · exact ⟨rfl, rfl⟩
      · exact ⟨(foldl_addMember members).1, (foldl_addMember members).2.1⟩
  | leave r =>
    have hr : r ≠ .classDeclaration := by
      rintro rfl
      cases hleave
    rw [step_leave hr] at hstep
    rw [← Except.ok.inj hstep]
    exact ⟨rfl, rfl⟩
  | token | skipped | missing =>
    rw [← Except.ok.inj hstep]
    exact ⟨rfl, rfl⟩

/-- Behind the end of a class nothing is ignored. -/
theorem ignores_leaveClass (h : o.Covered) : (o.leaveClass methodsOnly).ignores = false := by
  rw [leaveClass_eq, ignores, Bool.eq_false_iff]
  intro hignores
  have hlevel := h _ (List.contains_iff_mem.1 hignores)
  dsimp only at hlevel
  omega

theorem Covered.step (ho : o.Covered) (h : v.Legible) (hstep : o.step methodsOnly v = .ok o') :
    o'.Covered := by
  by_cases henter : v.entersClass = true
  · obtain ⟨children, rfl⟩ := Visit.exists_of_entersClass henter
    rcases step_enterClass (h _ _ rfl) hstep with ⟨-, rfl⟩ | ⟨-, hlevel, hignored⟩
    · intro n hn
      simp only [setIgnored, mem_insertLevel, Bool.false_eq_true, if_true, if_false,
        List.mem_filter] at hn ⊢
      rcases hn with rfl | ⟨hn, -⟩
      · exact Int.le_refl _
      · exact ho n hn
    · intro n hn
      rw [hignored, List.mem_filter, decide_eq_true_eq] at hn
      have hle := ho n hn.1
      rw [hlevel]
      omega
  · by_cases hleave : v.leavesClass = true
    · obtain rfl := Visit.eq_of_leavesClass hleave
      obtain rfl : o.leaveClass methodsOnly = o' := Except.ok.inj hstep
      rw [leaveClass_eq]
      intro n hn
      have hle := ho n hn
      dsimp only
      omega
    · obtain ⟨hlevel, hignored⟩ := step_otherVisit h (Bool.eq_false_iff.2 henter)
        (Bool.eq_false_iff.2 hleave) hstep
      intro n hn
      rw [hlevel]
      exact ho n (hignored ▸ hn)

/-! ## Whole walks -/

/-- A walk through nodes that can be read, step by step. -/
theorem run_legible_cons {vs : List (Visit Token)} (h : ∀ u ∈ v :: vs, u.Legible)
    (hrun : o.run methodsOnly (v :: vs) = (o', none)) :
    ∃ o₁, o.step methodsOnly v = .ok o₁ ∧ o₁.run methodsOnly vs = (o', none) := by
  obtain ⟨o₁, hstep⟩ := exists_step_of_legible (h v List.mem_cons_self)
  exact ⟨o₁, hstep, run_cons hstep ▸ hrun⟩

theorem Covered.run {vs : List (Visit Token)} (ho : o.Covered) (h : ∀ v ∈ vs, v.Legible)
    (hrun : o.run methodsOnly vs = (o', none)) : o'.Covered := by
  induction vs generalizing o with
  | nil =>
    obtain rfl : o = o' := congrArg Prod.fst hrun
    exact ho
  | cons v vs ih =>
    obtain ⟨o₁, hstep, hrun⟩ := run_legible_cons h hrun
    exact ih (ho.step (h v List.mem_cons_self) hstep) (fun u hu => h u (List.mem_cons_of_mem _ hu))
      hrun

/-- **Where all classes have been left again, nothing is ignored any longer**, unless no class was
entered at all. -/
theorem ignores_run {vs : List (Visit Token)} {n : Nat} (ho : o.Covered)
    (h : ∀ v ∈ vs, v.Legible) (hrun : o.run methodsOnly vs = (o', none))
    (hopen : Visit.openClasses n vs = some 0) :
    (n = 0 ∧ vs.any Visit.entersClass = false ∧ o'.ignores = o.ignores) ∨
      ((0 < n ∨ vs.any Visit.entersClass = true) ∧ o'.ignores = false) := by
  induction vs generalizing o n with
  | nil =>
    obtain rfl : o = o' := congrArg Prod.fst hrun
    exact .inl ⟨Option.some.inj hopen, rfl, rfl⟩
  | cons v vs ih =>
    obtain ⟨o₁, hstep, hrun⟩ := run_legible_cons h hrun
    have hv := h v List.mem_cons_self
    have hvs := fun u hu => h u (List.mem_cons_of_mem v hu)
    have ho₁ := ho.step hv hstep
    rw [Visit.openClasses] at hopen
    by_cases henter : v.entersClass = true
    · rw [if_pos henter] at hopen
      -- The class that is entered here has to be left.
      rcases ih ho₁ hvs hrun hopen with ⟨hn, -⟩ | ⟨-, hignores⟩
      · cases hn
      · exact .inr ⟨.inr (by rw [List.any_cons, henter, Bool.true_or]), hignores⟩
    · rw [if_neg henter] at hopen
      have hany : (v :: vs).any Visit.entersClass = vs.any Visit.entersClass := by
        rw [List.any_cons, Bool.eq_false_iff.2 henter, Bool.false_or]
      by_cases hleave : v.leavesClass = true
      · rw [if_pos hleave] at hopen
        obtain rfl := Visit.eq_of_leavesClass hleave
        have hn : n ≠ 0 := by
          rintro rfl
          cases hopen
        rw [if_neg hn] at hopen
        refine .inr ⟨.inl (Nat.pos_of_ne_zero hn), ?_⟩
        obtain rfl : o.leaveClass methodsOnly = o₁ := Except.ok.inj hstep
        rcases ih ho₁ hvs hrun hopen with ⟨-, -, hignores⟩ | ⟨-, hignores⟩
        · rw [hignores, ignores_leaveClass ho]
        · exact hignores
      · rw [if_neg hleave] at hopen
        obtain ⟨hlevel, hignored⟩ := step_otherVisit hv (Bool.eq_false_iff.2 henter)
          (Bool.eq_false_iff.2 hleave) hstep
        have hsame : o₁.ignores = o.ignores := by rw [ignores, ignores, hlevel, hignored]
        rw [hany, ← hsame]
        exact ih ho₁ hvs hrun hopen

end Outline

/-- **A class inside an ignored class uncovers the members behind it.** In a file without
complaints, `inside` leads from the beginning of an ignored class to a member of which it is the
innermost class: all classes that are entered there are left again. If there are none, the member is
passed over. If there are any, it is collected like a member of any other class. -/
theorem member_of_ignored_class (methodsOnly : Bool) (packages : List (List Char))
    (source : List Char)
    (h : ((TokenStream.ofSource source).parse .compilationUnit 0).complaints = [])
    {before inside after : List (Visit Token)} {cs children : List (Tree Token)} {r : Rule}
    (hwalk : (analyse .compilationUnit 0 source).tree.visits =
      before ++ .enter .classDeclaration cs :: (inside ++ .enter r children :: after))
    (hclass : Tree.isIgnoredClass .classDeclaration cs = true)
    (hinside : Visit.openClasses 0 inside = some 0)
    (hmember : r ∈ [.fieldDeclaration, .methodDeclaration, .constructorDeclaration]) :
    ∃ o members,
      (Outline.empty packages).run methodsOnly (before ++ .enter .classDeclaration cs :: inside) =
        (o, none) ∧
      Deed.read r children = .ok (some (.add members)) ∧
      o.step methodsOnly (.enter r children) =
        .ok (if inside.any Visit.entersClass then members.foldl Outline.addMember o else o) := by
  have hlegible := Tree.legible_visits (legible_of_no_complaints h)
  rw [hwalk] at hlegible
  have hbefore : ∀ v ∈ before, v.Legible := fun v hv => hlegible v (by simp [hv])
  have hinner : ∀ v ∈ inside, v.Legible := fun v hv => hlegible v (by simp [hv])
  have henter : (Visit.enter .classDeclaration cs).Legible := hlegible _ (by simp)
  have hlast : (Visit.enter r children).Legible := hlegible _ (by simp)
  -- The walk up to the class, into it, and on to the member.
  obtain ⟨o₁, hrun₁⟩ : ∃ o₁, (Outline.empty packages).run methodsOnly before = (o₁, none) :=
    ⟨_, Prod.ext rfl (Outline.run_of_legible hbefore)⟩
  obtain ⟨o₂, hstep₂⟩ : ∃ o₂, o₁.step methodsOnly (.enter .classDeclaration cs) = .ok o₂ :=
    Outline.exists_step_of_legible henter
  obtain ⟨o, hrun⟩ : ∃ o, o₂.run methodsOnly inside = (o, none) :=
    ⟨_, Prod.ext rfl (Outline.run_of_legible hinner)⟩
  obtain ⟨members, hread⟩ := Deed.exists_members (hlast r children rfl) hmember
  have ho₁ : o₁.Covered := (Outline.covered_empty packages).run hbefore hrun₁
  have hignored : o₂.ignores = true := by
    rcases Outline.step_enterClass (henter _ _ rfl) hstep₂ with ⟨-, rfl⟩ | ⟨hkept, -⟩
    · exact Outline.ignores_setIgnored
    · rw [hclass] at hkept
      cases hkept
  refine ⟨o, members, ?_, hread, ?_⟩
  · rw [Outline.run_append hrun₁, Outline.run_cons hstep₂, hrun]
  · rw [Outline.step_of_read hread, Outline.begin_add]
    rcases Outline.ignores_run (ho₁.step henter hstep₂) hinner hrun hinside with
      ⟨-, hnone, hignores⟩ | ⟨hsome, hignores⟩
    · rw [hignores, hignored, hnone]
      rfl
    · rw [hignores, hsome.resolve_left (Nat.lt_irrefl 0)]
      rfl

/-- A constructor of an ignored class behind a class inside it is collected. -/
theorem constructor_behind_inner_class :
    let source := "class A extends Error\x7bclass B\x7b\x7dA()\x7b\x7d\x7d".toList
    ((TokenStream.ofSource source).parse .compilationUnit 0).complaints = [] ∧
      ∃ before inside after cs children,
        (analyse .compilationUnit 0 source).tree.visits = before ++ .enter .classDeclaration cs ::
          (inside ++ .enter .constructorDeclaration children :: after) ∧
        Tree.isIgnoredClass .classDeclaration cs = true ∧ Visit.openClasses 0 inside = some 0 ∧
        ∃ o, (Outline.empty []).run false (before ++ .enter .classDeclaration cs :: inside) =
            (o, none) ∧
          o.step false (.enter .constructorDeclaration children) =
            .ok (o.addMember ⟨.methods, "A()".toList⟩) := by
  intro source
  have hfile : ((TokenStream.ofSource source).parse .compilationUnit 0).complaints = [] ∧
      let visits := (analyse .compilationUnit 0 source).tree.visits
      Visit.entersAt Tree.isIgnoredClass visits 2 = true ∧
        Visit.entersAt (fun r children => r = .constructorDeclaration &&
          (Deed.readConstructor children).toOption = some [⟨.methods, ['A', '(', ')']⟩])
          (visits.drop 3) 30 = true ∧
        Visit.openClasses 0 ((visits.drop 3).take 30) = some 0 ∧
        ((visits.drop 3).take 30).any Visit.entersClass = true := by
    rw [TokenStream.parse_eq_plain, analyse_tree_eq_plain]
    decide +kernel
  obtain ⟨hquiet, hclass, hmember, hopen, hany⟩ := hfile
  clear_value source
  obtain ⟨r, cs, hclass, hwalk⟩ := Visit.exists_entersAt hclass
  obtain ⟨r', children, hmember, hinside⟩ := Visit.exists_entersAt hmember
  obtain rfl : r = .classDeclaration := by
    rw [Tree.isIgnoredClass, Bool.and_eq_true, decide_eq_true_eq] at hclass
    exact hclass.1
  rw [Bool.and_eq_true, decide_eq_true_eq, decide_eq_true_eq] at hmember
  obtain ⟨rfl, hread⟩ := hmember
  rw [hinside] at hwalk
  refine ⟨hquiet, _, _, _, cs, children, hwalk, hclass, hopen, ?_⟩
  obtain ⟨o, members, hrun, hmembers, hstep⟩ := member_of_ignored_class false [] source hquiet hwalk
    hclass hopen (by simp)
  obtain ⟨ms, hms, hadd⟩ := exists_of_map_ok hmembers
  rw [hms] at hread
  obtain rfl : ms = [⟨.methods, ['A', '(', ')']⟩] := Option.some.inj hread
  obtain rfl : members = [⟨.methods, ['A', '(', ')']⟩] := by simpa using hadd.symm
  rw [hany, if_pos rfl] at hstep
  exact ⟨o, hrun, hstep⟩

end JavaOutline
