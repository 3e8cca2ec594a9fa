import JavaOutline.Proofs.Outline.Packages

/-!
# Outlines without fields

An outline of methods only leaves out the fields where a class ends. All else is the same: the walk
takes the same steps, finds the same members and stops at the same missing child, if it stops at all.

What a step does does not depend on what has been written (`Outline.step_prepend`). So two outlines that
agree in everything but the text (`Outline.Agrees`) go on agreeing, whichever of them is to show fields
(`Outline.step_agrees`), and the texts that they write at each step can be compared
(`TraceStep.Omits`).
-/

namespace JavaOutline

namespace Outline

variable {methodsOnly : Bool} {o o' : Outline} {s : List Char} {children : List (Tree Token)}

/-! ## Steps do not read what has been written -/

/-- The same outline behind some text. -/
def prepend (s : List Char) (o : Outline) : Outline := { o with text := s ++ o.text }

/-- The same outline with nothing written. -/
def blank (o : Outline) : Outline := { o with text := [] }

theorem prepend_eq : prepend s = recast s id := rfl

theorem prepend_blank (o : Outline) : o.blank.prepend o.text = o := by
  simp [prepend, blank]

theorem enterPackage_prepend :
    (o.prepend s).enterPackage children = (o.enterPackage children).map (prepend s) := by
  rw [prepend_eq]
  unfold enterPackage
  cases childText .qualifiedName children with
  | error q => rfl
  | ok name =>
    change (if o.packages.contains name then _ else _) =
      Except.map _ (if o.packages.contains name then _ else _)
    split
    · rfl
    · rw [write_recast]
      rfl

/-- **A step does the same whatever has been written**, and appends to it. -/
theorem step_prepend (v : Visit Token) :
    (o.prepend s).step methodsOnly v = (o.step methodsOnly v).map (prepend s) := by
  by_cases hv : ∃ children, v = .enter .packageDeclaration children
  · obtain ⟨children, rfl⟩ := hv
    exact enterPackage_prepend
  · rw [prepend_eq]
    exact step_recast fun children h => hv ⟨children, h⟩

theorem step_eq_map_blank (v : Visit Token) :
    o.step methodsOnly v = (o.blank.step methodsOnly v).map (prepend o.text) := by
  rw [← step_prepend, prepend_blank]

/-! ## Two outlines that agree -/

/-- The outlines agree in everything but the text. -/
structure Agrees (o o' : Outline) : Prop where
  level : o.level = o'.level
  ignored : o.ignored = o'.ignored
  staticFields : o.staticFields = o'.staticFields
  fields : o.fields = o'.fields
  staticMethods : o.staticMethods = o'.staticMethods
  methods : o.methods = o'.methods
  packages : o.packages = o'.packages

theorem Agrees.refl (o : Outline) : o.Agrees o := ⟨rfl, rfl, rfl, rfl, rfl, rfl, rfl⟩

theorem Agrees.blank_eq (h : o.Agrees o') : o.blank = o'.blank := by
  obtain ⟨hlevel, hignored, hstaticFields, hfields, hstaticMethods, hmethods, hpackages⟩ := h
  unfold blank
  rw [hlevel, hignored, hstaticFields, hfields, hstaticMethods, hmethods, hpackages]

/-- The titles of the blocks with fields. -/
def fieldTitles : List String := ["Static fields:", "Fields:"]

/-- The blocks that the end of a class writes if fields are shown, each with its title. -/
def blocks (o : Outline) : List (String × List Char) :=
  if o.ignores then []
  else (sections false).map fun entry =>
    (entry.1, sectionText o.level entry.1 (o.shelf entry.2))

/-- The end of a class writes its blocks, or those without fields. -/
theorem written_leaveClass : o.blank.leaveClass methodsOnly =
    { o with
      level := o.level - 1
      text := (o.blocks.filter fun b => !methodsOnly || b.1 ∉ fieldTitles).flatMap (·.2) } := by
  have hclosing : (if o.ignores then [] else o.closing methodsOnly) =
      (o.blocks.filter fun b => !methodsOnly || b.1 ∉ fieldTitles).flatMap (·.2) := by
    unfold blocks
    split
    · rfl
    · cases methodsOnly <;> rfl
  rw [leaveClass_eq, ← hclosing]
  rfl

end Outline

/-! ## Steps side by side -/

/-- The second step is the first one without fields: it is the same event between outlines that agree,
and it writes the same, unless a class ends; then the blocks with fields are left out. -/
structure TraceStep.Omits (s s' : TraceStep) : Prop where
  event : s'.event = s.event
  before : s'.before.Agrees s.before
  after : s'.after.Agrees s.after
  appends : s.after.text = s.before.text ++ s.written
  appends' : s'.after.text = s'.before.text ++ s'.written
  written : s.event ≠ .leave .classDeclaration → s'.written = s.written
  closing : s.event = .leave .classDeclaration →
    s.written = s.before.blocks.flatMap (·.2) ∧
    s'.written = (s.before.blocks.filter fun b => b.1 ∉ Outline.fieldTitles).flatMap (·.2)

namespace Outline

variable {o o' : Outline}

/-- Only the end of a class depends on whether fields are shown. -/
theorem step_methodsOnly {v : Visit Token} (hv : v.event ≠ .leave .classDeclaration)
    (methodsOnly : Bool) : o.step methodsOnly v = o.step false v := by
  unfold step
  split
  · rfl
  · rfl
  · rfl
  · rfl
  · rfl
  · exact absurd rfl hv
  · rfl

/-- Outlines that agree do the same with what would be done if nothing had been written. -/
theorem Agrees.omits {e : Event Token} {p p' : Outline} (h : o'.Agrees o) (hp : p'.Agrees p)
    (hwritten : e ≠ .leave .classDeclaration → p'.text = p.text)
    (hclosing : e = .leave .classDeclaration → p.text = o.blocks.flatMap (·.2) ∧
      p'.text = (o.blocks.filter fun b => b.1 ∉ fieldTitles).flatMap (·.2)) :
    TraceStep.Omits ⟨e, o, p.prepend o.text⟩ ⟨e, o', p'.prepend o'.text⟩ := by
  have hdrop (e : Event Token) (o p : Outline) :
      TraceStep.written ⟨e, o, p.prepend o.text⟩ = p.text := List.drop_left
  exact {
    event := rfl
    before := h
    after := ⟨hp.level, hp.ignored, hp.staticFields, hp.fields, hp.staticMethods, hp.methods,
      hp.packages⟩
    appends := by rw [hdrop]; rfl
    appends' := by rw [hdrop]; rfl
    written := by rw [hdrop, hdrop]; exact hwritten
    closing := by rw [hdrop, hdrop]; exact hclosing }

/-- **Outlines that agree take the same step**, with fields or without them: both stop at the same
missing child, or both go on and agree again. -/
theorem step_agrees (h : o'.Agrees o) (v : Visit Token) :
    (∃ q, o.step false v = .error q ∧ o'.step true v = .error q) ∨
      ∃ p p', o.step false v = .ok p ∧ o'.step true v = .ok p' ∧
        TraceStep.Omits ⟨v.event, o, p⟩ ⟨v.event, o', p'⟩ := by
  rw [step_eq_map_blank, step_eq_map_blank (o := o'), h.blank_eq]
  by_cases hv : v.event = .leave .classDeclaration
  · obtain rfl : v = .leave .classDeclaration := by
      cases v <;> simp_all [Visit.event]
    refine .inr ⟨_, _, rfl, rfl, h.omits ?_ (fun hne => absurd rfl hne) fun _ => ?_⟩
    · rw [written_leaveClass, written_leaveClass]
      exact ⟨rfl, rfl, rfl, rfl, rfl, rfl, rfl⟩
    · rw [written_leaveClass, written_leaveClass]
      simp
  · rw [step_methodsOnly hv true]
    cases o.blank.step false v with
    | error q => exact .inl ⟨q, rfl, rfl⟩
    | ok p =>
      exact .inr ⟨_, _, rfl, rfl, h.omits (.refl p) (fun _ => rfl) fun hleave => absurd hleave hv⟩

/-- A walk with fields and a walk without them stop at the same missing child, or both come to their
end, and the outlines agree. -/
theorem run_agrees (h : o'.Agrees o) (vs : List (Visit Token)) :
    (o'.run true vs).2 = (o.run false vs).2 ∧ (o'.run true vs).1.Agrees (o.run false vs).1 := by
  induction vs generalizing o o' with
  | nil => exact ⟨rfl, h⟩
  | cons v vs ih =>
    rw [run, run]
    rcases step_agrees h v with ⟨q, hstep, hstep'⟩ | ⟨p, p', hstep, hstep', homits⟩
    · rw [hstep, hstep']
      exact ⟨rfl, h⟩
    · rw [hstep, hstep']
      exact ih homits.after

/-- Step by step the two walks differ in the blocks with fields only. -/
theorem trace_omits (h : o'.Agrees o) (vs : List (Visit Token)) :
    List.Forall₂ TraceStep.Omits (o.trace false vs) (o'.trace true vs) := by
  induction vs generalizing o o' with
  | nil => exact .nil
  | cons v vs ih =>
    rw [trace, trace]
    rcases step_agrees h v with ⟨q, hstep, hstep'⟩ | ⟨p, p', hstep, hstep', homits⟩
    · rw [hstep, hstep']
      exact .nil
    · rw [hstep, hstep']
      have hrest : List.Forall₂ TraceStep.Omits (p.trace false vs) (p'.trace true vs) :=
        ih homits.after
      dsimp only
      split
      · exact .cons homits hrest
      · exact hrest

end Outline

/-- **Without fields, nothing but the fields is missing.** Whatever errors there are in a source text,
after each visit of the walk the outline with fields and the one without have met the same missing
child or none, and agree in level, ignored classes, members and packages. The steps in which they take
part are the same events and write the same, but where a class ends the blocks with fields are left
out. -/
theorem fields_omitted_stepwise (packages : List (List Char)) (source : List Char) :
    let walk := (analyse .compilationUnit 0 source).tree.visits
    let start := Outline.empty packages
    (∀ before, before <+: walk → (start.run true before).2 = (start.run false before).2 ∧
      (start.run true before).1.Agrees (start.run false before).1) ∧
    List.Forall₂ TraceStep.Omits (start.trace false walk) (start.trace true walk) := by
  intro walk start
  exact ⟨fun before _ => Outline.run_agrees (.refl start) before,
    Outline.trace_omits (.refl start) walk⟩

end JavaOutline
