import JavaOutline.Proofs.Prediction.Origins

/-!
# What follows an expression

Behind an expression only brackets are closed, lists and statements go on or end, or an operator is
applied, by an expression that it is an operand of or by a pattern with a condition (`Closing`). So
wherever a file could be read to its end behind an expression, whatever operator comes next, one more
operator could be applied to the expression, with some callers (`Choice.Completes.good_or_shifts`).
The exception is a comparison whose right operand begins like a shift.
-/

namespace JavaOutline

open Network

/-! ## The loop of an expression -/

/-- The loop of the operators of an expression. -/
def expressionLoop : Place := ⟨.expression, 45⟩

theorem atLoop_expression : Rule.expression.body.operatorLoop? = some expressionLoop.offset := by
  decide

/-- The nodes of the loop. -/
theorem loop_expression : OperatorLoop .expression expressionLoop.offset :=
  operatorLoop atLoop_expression

theorem node_expressionLoop :
    java.node expressionLoop = .fork [expressionLoop.offset + 1, expressionLoop.offset + 4] :=
  loop_expression.fork

theorem valid_expressionLoop : expressionLoop.Valid :=
  Place.valid_of_node (by rw [node_expressionLoop]; nofun)

/-- The fork of all operators. -/
def expressionOperators : Place := ⟨.expression, 46⟩

/-- The nodes to which a fork of an expression leads, or the node itself. -/
def branches (i : Nat) : List Nat :=
  match Rule.expression.body.layout.getD i .finish with
  | .fork nexts => nexts
  | _ => [i]

/-- With what an operator of an expression begins: its level and the node of its first token. -/
def openers : List (Nat × Nat) :=
  (branches expressionOperators.offset).flatMap fun i =>
    match Rule.expression.body.layout.getD i .finish with
    | .guard level next => (branches next).map (level, ·)
    | _ => []

theorem mem_openers {x : Nat × Nat} : x ∈ openers ↔ ∃ i ∈ branches expressionOperators.offset,
    ∃ next, java.node ⟨.expression, i⟩ = .guard x.1 next ∧ x.2 ∈ branches next := by
  simp only [openers, List.mem_flatMap, node_mk]
  refine exists_congr fun i => and_congr_right fun _ => ?_
  split
  · rename_i level next hp
    rw [List.mem_map, hp]
    constructor
    · rintro ⟨t, ht, rfl⟩
      exact ⟨next, rfl, ht⟩
    · rintro ⟨next', heq, ht⟩
      cases heq
      exact ⟨x.2, ht, rfl⟩
  · rename_i hno
    refine iff_of_false nofun ?_
    rintro ⟨next, heq, -⟩
    exact hno _ _ heq

/-- The kinds of a token that is taken at a node of an expression. -/
def openingKinds (i : Nat) : KindSet :=
  match Rule.expression.body.layout.getD i .finish with
  | .take ks _ => ks
  | _ => ∅

theorem node_of_mem_openers {x : Nat × Nat} (hx : x ∈ openers) :
    ∃ next, java.node ⟨.expression, x.2⟩ = .take (openingKinds x.2) next := by
  have hall : (openers.all fun x => match Rule.expression.body.layout.getD x.2 .finish with
      | .take _ _ => true
      | _ => false) = true := by decide
  have hnode := List.all_eq_true.1 hall x hx
  rw [node_mk, openingKinds]
  split at hnode
  · rename_i ks next hp
    rw [hp]
    exact ⟨next, rfl⟩
  · cases hnode

section
variable {kinds : Array Kind} {level i : Nat} {d : Option Nat} {σ : List Place}

/-- At a fork of an expression one goes on by one of its branches. -/
theorem viable_iff_branches {o : Nat} : Viable kinds level i d ⟨.expression, o⟩ σ ↔
    ∃ next ∈ branches o, Viable kinds level i d ⟨.expression, next⟩ σ := by
  unfold branches
  split
  · rename_i nexts hp
    have hfork := (node_mk .expression o).trans hp
    constructor
    · exact fun h => h.exists_of_fork hfork
    · rintro ⟨next, hnext, h⟩
      exact .fork hfork hnext h
  · simp

/-- **An operator is applied by way of the guard for its level and of its first token.** -/
theorem viable_iff_openers : Viable kinds level i (some 0) expressionOperators σ ↔
    ∃ x ∈ openers, level ≤ x.1 ∧ Viable kinds level i (some 0) ⟨.expression, x.2⟩ σ := by
  have hguards : ((branches expressionOperators.offset).all
      fun i => (Rule.expression.body.layout.getD i .finish).isGuard) = true := by decide
  rw [show expressionOperators = ⟨.expression, expressionOperators.offset⟩ from rfl,
    viable_iff_branches]
  constructor
  · rintro ⟨g, hg, h⟩
    have hguard := List.all_eq_true.1 hguards g hg
    rw [← node_mk] at hguard
    cases hnode : java.node ⟨.expression, g⟩ with
    | take | call | fork | finish =>
      rw [hnode] at hguard
      cases hguard
    | guard l next =>
      obtain ⟨hl, h⟩ := h.of_guard hnode
      obtain ⟨t, ht, h⟩ := viable_iff_branches.1 h
      exact ⟨(l, t), mem_openers.2 ⟨g, hg, next, hnode, ht⟩, hl rfl, h⟩
  · rintro ⟨x, hx, hlevel, h⟩
    obtain ⟨g, hg, next, hnode, ht⟩ := mem_openers.1 hx
    exact ⟨g, hg, .guard hnode (fun _ => hlevel) (viable_iff_branches.2 ⟨x.2, ht, h⟩)⟩

end

/-- The kinds with which an operator begins. -/
def operatorKinds : KindSet := openers.foldr (fun x ks => openingKinds x.2 ∪ ks) ∅

theorem mem_operatorKinds {x : Nat × Nat} (hx : x ∈ openers) {k : Kind}
    (hk : k ∈ openingKinds x.2) : k ∈ operatorKinds := by
  unfold operatorKinds
  generalize openers = xs at hx ⊢
  induction xs with
  | nil => cases hx
  | cons y ys ih =>
    rw [List.foldr_cons, KindSet.mem_union]
    rcases List.mem_cons.1 hx with rfl | hx
    · exact .inl hk
    · exact .inr (ih hx)

/-! ## Where an expression has ended -/

/-- The rules whose end may be the end of an expression. -/
def closingRules : List Rule :=
  [.annotationConstantRest, .annotationMethodOrConstantRest, .annotationMethodRest,
    .constantDeclarator, .defaultValue, .elementValue, .elementValuePair, .elementValuePairs,
    .enhancedForControl, .expression, .expressionList, .forControl, .forInit, .guardedPattern,
    .lambdaBody, .lambdaExpression, .localVariableDeclaration, .resource, .resources,
    .variableDeclarator, .variableDeclarators, .variableInitializer]

/-- Does the node read an expression? -/
def Node.readsExpression : Node → Bool
  | .call .expression _ _ => true
  | _ => false

/-- May the token be taken behind an expression: is no operator of an expression begun with it, is it
the first one of such an operator, or is it `&&` with an expression behind it? -/
def followsAt (r : Rule) (i : Nat) (ks : KindSet) (next : Nat) : Bool :=
  operatorKinds.disjoint ks || (r == .expression && openers.any (·.2 == i)) ||
    (ks == .single .andAnd && (r.body.layout.getD next .finish).readsExpression)

/-- Do all ways from a node of a rule come to such a token or to the end of one of these rules, within
`n` steps and without a call? -/
def closesAt (r : Rule) : Nat → Nat → Bool
  | 0, _ => false
  | n + 1, i =>
    match r.body.layout.getD i .finish with
    | .take ks next => followsAt r i ks next
    | .call _ _ _ => false
    | .guard _ next => closesAt r n next
    | .fork nexts => nexts.all (closesAt r n)
    | .finish => closingRules.contains r

/-- Does a rule close what it opened where an expression in it has ended? -/
def Rule.closesCalls (r : Rule) : Bool :=
  r.body.layout.all fun
    | .call r' _ next => !closingRules.contains r' || closesAt r 12 next
    | _ => true

theorem closesCalls_all : Rule.all.all Rule.closesCalls = true := by decide +kernel

/-- An expression has ended in front of the place. -/
def Closing (p : Place) : Prop := ∃ n, closesAt p.rule n p.offset = true

theorem closing_expressionLoop : Closing expressionLoop := ⟨12, by decide⟩

section
variable {kinds : Array Kind} {root : Rule} {p q : Place} {σ τ : List Place} {i : Nat}

/-- From such a place only forks and guards lead to a token or to the end of the rule. -/
theorem Closing.cases (h : Closing p) :
    (∃ ks next, java.node p = .take ks next ∧ followsAt p.rule p.offset ks next = true) ∨
      (∃ l next, java.node p = .guard l next ∧ Closing (p.move next)) ∨
      (∃ nexts, java.node p = .fork nexts ∧ ∀ next ∈ nexts, Closing (p.move next)) ∨
      java.node p = .finish ∧ p.rule ∈ closingRules := by
  obtain ⟨n, hn⟩ := h
  cases n with
  | zero => cases hn
  | succ n =>
    have hnode : java.node p = _ := node_mk p.rule p.offset
    unfold closesAt at hn
    split at hn
    · rename_i ks next hp
      exact .inl ⟨ks, next, hnode.trans hp, hn⟩
    · cases hn
    · rename_i l next hp
      exact .inr (.inl ⟨l, next, hnode.trans hp, n, hn⟩)
    · rename_i nexts hp
      exact .inr (.inr (.inl ⟨nexts, hnode.trans hp,
        fun next hnext => ⟨n, List.all_eq_true.1 hn next hnext⟩⟩))
    · rename_i hp
      exact .inr (.inr (.inr ⟨hnode.trans hp, List.contains_iff_mem.1 hn⟩))

/-- Where a rule that ends with an expression has ended, the expression has ended. -/
theorem closing_of_call {r : Rule} {level next : Nat} (hp : p.Valid)
    (hcall : java.node p = .call r level next) (hr : r ∈ closingRules) : Closing (p.move next) := by
  have hall := List.all_eq_true.1 closesCalls_all p.rule p.rule.mem_all
  have hcloses := List.all_eq_true.1 hall _ hp.mem_layout
  rw [hcall] at hcloses
  rw [Bool.or_eq_true, Bool.not_eq_true', ← Bool.not_eq_true, List.contains_iff_mem] at hcloses
  exact ⟨12, hcloses.resolve_left fun hno => hno hr⟩

/-- No step without a token leads to where another expression begins. -/
theorem Closing.drift (h : Closing p) (hsited : Sited p σ) (hd : Drift p σ q τ) : Closing q := by
  rcases h.cases with ⟨ks, next, hp, -⟩ | ⟨l, next, hp, hnext⟩ | ⟨nexts, hp, hnexts⟩ | ⟨hp, hrule⟩
  · cases hd with
    | call hp' | guard hp' | fork hp' | back hp' => cases hp.symm.trans hp'
  · cases hd with
    | guard hp' =>
      cases hp.symm.trans hp'
      exact hnext
    | call hp' | fork hp' | back hp' => cases hp.symm.trans hp'
  · cases hd with
    | fork hp' hnext =>
      cases hp.symm.trans hp'
      exact hnexts _ hnext
    | call hp' | guard hp' | back hp' => cases hp.symm.trans hp'
  · cases hd with
    | back =>
      have hproper := hsited.proper
      generalize p.rule = r at hrule hproper
      cases hproper with
      | cons valid call _ => exact closing_of_call valid call hrule
    | call hp' | guard hp' | fork hp' => cases hp.symm.trans hp'

/-- What comes behind an expression is taken where it may be. -/
theorem Closing.exists_take (h : Closing p) (hrooted : Rooted root p σ)
    (ha : Accepts kinds p σ i) (hi : i < kinds.size) :
    ∃ q τ ks next, Rooted root q τ ∧ java.node q = .take ks next ∧
      followsAt q.rule q.offset ks next = true ∧ kindAt kinds i ∈ ks ∧
      Accepts kinds (q.move next) τ (behind kinds i) := by
  induction ha with
  | @take p σ _ ks next hp hk ha =>
    rcases h.cases with ⟨ks', next', hp', hfollows⟩ | ⟨l, next', hp', -⟩ | ⟨nexts, hp', -⟩ | ⟨hp', -⟩
    · cases hp.symm.trans hp'
      exact ⟨p, σ, ks, next, hrooted, hp, hfollows, hk, ha⟩
    all_goals cases hp.symm.trans hp'
  | drift hd _ ih => exact ih (h.drift hrooted.toSited hd) (hrooted.drift hd) hi
  | done _ hsize => exact absurd hsize (Nat.not_le.2 hi)

/-- A run may go on with other ways back, provided that it may where the old ones begin. -/
theorem Accepts.swap {ret ret' : Place} {σ' : List Place} (h : Accepts kinds p τ i)
    {ρ : List Place} (hτ : τ = ρ ++ ret :: σ)
    (hswap : ∀ j, Accepts kinds ret σ j → Accepts kinds ret' σ' j) :
    Accepts kinds p (ρ ++ ret' :: σ') i := by
  induction h generalizing ρ with
  | take hp hk _ ih => exact .take hp hk (ih hτ)
  | done => cases ρ <;> cases hτ
  | @drift p _ _ _ _ hd h ih =>
    cases hd with
    | @call _ _ _ next hp => exact .drift (.call hp) (ih (ρ := p.move next :: ρ) (by rw [hτ]; rfl))
    | guard hp => exact .drift (.guard hp) (ih hτ)
    | fork hp hnext => exact .drift (.fork hp hnext) (ih hτ)
    | back hp =>
      cases ρ with
      | nil =>
        obtain ⟨rfl, rfl⟩ := List.cons.inj hτ
        exact .drift (.back hp) (hswap _ h)
      | cons q ρ =>
        obtain ⟨rfl, hrest⟩ := List.cons.inj hτ
        exact .drift (.back hp) (ih hrest)

end

/-! ## One more operator -/

/-- Does an operator repeat its first token, which is an angle bracket? -/
def repeats (i : Nat) : Bool :=
  match Rule.expression.body.layout.getD i .finish with
  | .take ks next => (ks == .single .lt || ks == .single .gt) &&
      match Rule.expression.body.layout.getD next .finish with
      | .take ks' _ => ks' == ks
      | _ => false
  | _ => false

theorem exists_of_repeats {i : Nat} (h : repeats i = true) : ∃ k ∈ [Kind.lt, Kind.gt],
    ∃ next next', java.node ⟨.expression, i⟩ = .take (.single k) next ∧
      java.node ⟨.expression, next⟩ = .take (.single k) next' := by
  simp only [node_mk]
  unfold repeats at h
  split at h
  · rename_i ks next hp
    rw [Bool.and_eq_true, Bool.or_eq_true, beq_iff_eq, beq_iff_eq] at h
    obtain ⟨hks, h⟩ := h
    split at h
    · rename_i ks' next' hp'
      obtain rfl := beq_iff_eq.1 h
      rcases hks with rfl | rfl
      · exact ⟨.lt, by simp, next, next', hp, hp'⟩
      · exact ⟨.gt, by simp, next, next', hp, hp'⟩
    · cases h
  · cases h

/-- Operators that begin with the same kind of token have the same level, but for comparisons and
shifts. -/
theorem level_of_openers {x y : Nat × Nat} (hx : x ∈ openers) (hy : y ∈ openers) {k : Kind}
    (hkx : k ∈ openingKinds x.2) (hky : k ∈ openingKinds y.2) (hlt : y.1 < x.1) :
    y.1 = 11 ∧ x.1 = 12 ∧ repeats x.2 = true := by
  have hall : (openers.all fun x => openers.all fun y =>
      (openingKinds x.2).disjoint (openingKinds y.2) || decide (x.1 ≤ y.1) ||
        (y.1 == 11 && (x.1 == 12 && repeats x.2))) = true := by decide
  have h := List.all_eq_true.1 (List.all_eq_true.1 hall x hx) y hy
  simp only [Bool.or_eq_true, Bool.and_eq_true, beq_iff_eq, decide_eq_true_eq] at h
  rcases h with (hdisjoint | hle) | h
  · exact absurd hky (KindSet.not_mem_of_disjoint hdisjoint hkx)
  · omega
  · exact h

/-- Behind the operator `&&` an operand is read. -/
theorem call_of_andAnd {x : Nat × Nat} (hx : x ∈ openers) (hk : Kind.andAnd ∈ openingKinds x.2)
    {ks : KindSet} {next : Nat} (hnode : java.node ⟨.expression, x.2⟩ = .take ks next) :
    ∃ level next', level ≠ 0 ∧ java.node ⟨.expression, next⟩ = .call .expression level next' := by
  have hall : (openers.all fun x => !(openingKinds x.2).contains .andAnd ||
      match Rule.expression.body.layout.getD x.2 .finish with
      | .take _ next =>
        match Rule.expression.body.layout.getD next .finish with
        | .call .expression level _ => level != 0
        | _ => false
      | _ => false) = true := by decide
  have h := List.all_eq_true.1 hall x hx
  rw [node_mk] at hnode ⊢
  rw [hnode, show (openingKinds x.2).contains .andAnd = true from hk, Bool.not_true,
    Bool.false_or] at h
  dsimp only at h
  split at h
  · rename_i level next' hcall
    exact ⟨level, next', by simpa using h, hcall⟩
  · cases h

namespace Choice

variable {C : Choice}

theorem atLoop_of_eq (hplace : C.place = expressionLoop) : C.AtLoop := by
  rw [AtLoop, hplace]
  exact atLoop_expression

/-- The decision is made behind an operand of a shift in front of an angle bracket that is repeated. -/
def Shifts (C : Choice) : Prop :=
  C.level = 12 ∧ ∃ k ∈ [Kind.lt, Kind.gt],
    kindAt C.kinds C.pos = k ∧ kindAt C.kinds (C.pos + 1) = k

theorem good_of_opener (hplace : C.place = expressionLoop) {x : Nat × Nat} (hx : x ∈ openers)
    (hlevel : C.level ≤ x.1) {σ : List Place}
    (h : Accepts C.kinds ⟨.expression, x.2⟩ σ C.pos) :
    ({ C with callers := σ } : Choice).Good 1 := by
  obtain ⟨next, hnode⟩ := node_of_mem_openers hx
  obtain ⟨hk, h⟩ := h.of_take hnode
  have hviable : Viable C.kinds C.level C.pos (some 0) expressionOperators σ :=
    viable_iff_openers.2 ⟨x, hx, hlevel, .take hnode hk h⟩
  obtain ⟨kinds, pos, level, callers, place⟩ := C
  obtain rfl : place = expressionLoop := hplace
  exact ⟨_, expressionLoop.offset + 1, node_expressionLoop, by simp, hviable⟩

/-- A decision for one more operator is one for an operator that is allowed. -/
theorem Good.exists_opener (hplace : C.place = expressionLoop) (h : C.Good 1) :
    ∃ x ∈ openers, C.level ≤ x.1 ∧ Accepts C.kinds ⟨.expression, x.2⟩ C.callers C.pos := by
  obtain ⟨nexts, next, hp, hmem, hviable⟩ := h
  rw [hplace] at hp hviable
  cases hp.symm.trans node_expressionLoop
  obtain rfl : next = expressionLoop.offset + 1 := by
    simpa [List.zipIdx] using hmem
  obtain ⟨x, hx, hlevel, hviable⟩ := viable_iff_openers.1 hviable
  exact ⟨x, hx, hlevel, hviable.accepts⟩

/-- An operator is not the end of the file. -/
theorem Good.pos_lt (hplace : C.place = expressionLoop) (h : C.Good 1) : C.pos < C.kinds.size := by
  obtain ⟨x, hx, -, haccepts⟩ := h.exists_opener hplace
  obtain ⟨next, hnode⟩ := node_of_mem_openers hx
  refine Nat.lt_of_not_le fun hsize => ?_
  have hk := mem_operatorKinds hx (haccepts.of_take hnode).1
  rw [kindAt_of_size_le hsize] at hk
  exact absurd hk (by decide)

/-- **Wherever a file could be read to its end behind an expression, one more operator could be
applied**, if one can be applied at all. -/
theorem Completes.good_or_shifts (h : C.Completes) (hplace : C.place = expressionLoop)
    (hgood : C.Good 1) (hpos : C.pos < C.kinds.size) :
    (∃ σ, Rooted .compilationUnit C.place σ ∧ ({ C with callers := σ } : Choice).Good 1) ∨
      C.Shifts := by
  obtain ⟨σ, hrooted, haccepts⟩ := h
  rw [hplace] at hrooted haccepts
  obtain ⟨q, τ, ks, next, hq, hp, hfollows, hk, hnext⟩ :=
    closing_expressionLoop.exists_take hrooted haccepts hpos
  obtain ⟨x, hx, hlevel, hoperator⟩ := hgood.exists_opener hplace
  obtain ⟨xnext, hxnode⟩ := node_of_mem_openers hx
  obtain ⟨hxk, hxnext⟩ := hoperator.of_take hxnode
  simp only [followsAt, Bool.or_eq_true, Bool.and_eq_true, beq_iff_eq, List.any_eq_true] at hfollows
  rcases hfollows with (hdisjoint | ⟨hrule, y, hy, hoffset⟩) | ⟨rfl, hreads⟩
  · exact absurd hk (KindSet.not_mem_of_disjoint hdisjoint (mem_operatorKinds hx hxk))
  · -- An enclosing expression applies an operator that begins with the same token.
    obtain ⟨r, o⟩ := q
    obtain rfl : r = .expression := hrule
    obtain rfl : y.2 = o := hoffset
    obtain ⟨ynext, hynode⟩ := node_of_mem_openers hy
    cases hp.symm.trans hynode
    by_cases hle : C.level ≤ y.1
    · refine .inl ⟨τ, ?_, good_of_opener hplace hy hle (.take hp hk hnext)⟩
      rw [hplace]
      exact ⟨⟨valid_expressionLoop, hq.proper⟩,
        (rule_base_move ⟨.expression, y.2⟩ _ _).trans hq.base_rule⟩
    · obtain ⟨hy11, hx12, hrepeats⟩ := level_of_openers hx hy hxk hk (by omega)
      obtain ⟨k, hkmem, xnext', xnext'', hxnode', hxnode''⟩ := exists_of_repeats hrepeats
      obtain ⟨-, rfl⟩ := Node.take.inj (hxnode.symm.trans hxnode')
      have hbehind : behind C.kinds C.pos = C.pos + 1 := if_pos hpos
      have hfirst := (hoperator.of_take hxnode').1
      have hsecond := (hxnext.of_take hxnode'').1
      rw [hbehind] at hsecond
      exact .inr ⟨by omega, k, hkmem, (KindSet.mem_single ..).1 hfirst,
        (KindSet.mem_single ..).1 hsecond⟩
  · -- A pattern goes on with a condition, which may as well be the right operand of an operator.
    rw [(KindSet.mem_single ..).1 hk] at hxk
    obtain ⟨level, xnext', hne, hxcall⟩ := call_of_andAnd hx hxk hxnode
    obtain ⟨l, next', hcall⟩ : ∃ l next', java.node (q.move next) = .call .expression l next' := by
      rw [show java.node (q.move next) = _ from node_mk q.rule next]
      unfold Node.readsExpression at hreads
      split at hreads
      · rename_i l next' hcall
        exact ⟨l, next', hcall⟩
      · cases hreads
    have hbegin := ((hnext.viable_zero none).of_call hcall).accepts
    have hcalled := (hq.take hp).drift (.call hcall)
    obtain ⟨-, o, ho, hret⟩ := leadsTo_of_call
      (Place.valid_of_node (by rw [hxcall]; nofun)) hxcall hne
    obtain rfl := Option.some.inj (ho.symm.trans atLoop_expression)
    refine .inl ⟨(q.move next).move next' :: τ, ?_, good_of_opener hplace hx hlevel ?_⟩
    · rw [hplace]
      exact ⟨⟨valid_expressionLoop, hcalled.proper⟩, by rw [← hcalled.base_rule, base_cons, base_cons]⟩
    · refine .take hxnode (by rw [(KindSet.mem_single ..).1 hk]; exact hxk)
        (.drift (.call hxcall) (hbegin.swap (ρ := []) rfl fun j hj => ?_))
      exact hret.accepts (loop_expression.accepts_of_back hj)

end Choice

end JavaOutline
