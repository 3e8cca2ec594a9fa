import JavaOutline.Proofs.Network.Spans

/-!
# Runs through the network

`Accepts kinds p σ i` says that the tokens from position `i` on lead from the place `p`, with the
places `σ` to return to, to the end of the first rule. `Viable` says the same of runs that keep to
the guards of the decision's own rule. The guards stand only in the loops of the operator rules, and
an operand may as well be applied outside as inside of another one (`Accepts.outside_operand`,
`Accepts.inside_operand`); so wherever there is a run, there is one that keeps to the guards
(`Accepts.viable`).
-/

namespace JavaOutline

open Network

/-! ## Runs through the network -/

/-- The position behind a token; the end of the file is never passed. -/
def behind (kinds : Array Kind) (i : Nat) : Nat := if i < kinds.size then i + 1 else i

/-- With the tokens from a position on, the network can be walked through from a place to the end of
the parse, whatever the levels of operators. -/
inductive Accepts (kinds : Array Kind) : Place → List Place → Nat → Prop where
  | take {p : Place} {σ : List Place} {i : Nat} {ks : KindSet} {next : Nat}
      (hp : java.node p = .take ks next) (hk : kindAt kinds i ∈ ks)
      (h : Accepts kinds (p.move next) σ (behind kinds i)) : Accepts kinds p σ i
  | drift {p q : Place} {σ τ : List Place} {i : Nat} (hd : Drift p σ q τ)
      (h : Accepts kinds q τ i) : Accepts kinds p σ i
  | done {p : Place} {i : Nat} (hp : java.node p = .finish) (hi : kinds.size ≤ i) :
      Accepts kinds p [] i

/-- Leaving a rule takes a way out of the calls that have been entered, or out of the first one. -/
def leaveDepth : Option Nat → Option Nat
  | some (d + 1) => some d
  | _ => none

/-- The same for a way that respects the guards in the call in which it begins, as long as it has
not taken a token. -/
inductive Viable (kinds : Array Kind) (level i : Nat) : Option Nat → Place → List Place → Prop where
  | take {d : Option Nat} {p : Place} {σ : List Place} {ks : KindSet} {next : Nat}
      (hp : java.node p = .take ks next) (hk : kindAt kinds i ∈ ks)
      (h : Accepts kinds (p.move next) σ (behind kinds i)) : Viable kinds level i d p σ
  | call {d : Option Nat} {p : Place} {σ : List Place} {r : Rule} {l next : Nat}
      (hp : java.node p = .call r l next)
      (h : Viable kinds level i (d.map (· + 1)) (.start r) (p.move next :: σ)) :
      Viable kinds level i d p σ
  | guard {d : Option Nat} {p : Place} {σ : List Place} {l next : Nat}
      (hp : java.node p = .guard l next) (hl : d = some 0 → level ≤ l)
      (h : Viable kinds level i d (p.move next) σ) : Viable kinds level i d p σ
  | fork {d : Option Nat} {p : Place} {σ : List Place} {nexts : List Nat} {next : Nat}
      (hp : java.node p = .fork nexts) (hnext : next ∈ nexts)
      (h : Viable kinds level i d (p.move next) σ) : Viable kinds level i d p σ
  | back {d : Option Nat} {p ret : Place} {σ : List Place} (hp : java.node p = .finish)
      (h : Viable kinds level i (leaveDepth d) ret σ) : Viable kinds level i d p (ret :: σ)
  | done {d : Option Nat} {p : Place} (hp : java.node p = .finish) (hi : kinds.size ≤ i) :
      Viable kinds level i d p []

section
variable {kinds : Array Kind} {level i : Nat} {d : Option Nat} {p q : Place} {σ τ : List Place}

theorem Viable.accepts (h : Viable kinds level i d p σ) : Accepts kinds p σ i := by
  induction h with
  | take hp hk h => exact .take hp hk h
  | call hp _ ih => exact .drift (.call hp) ih
  | guard hp _ _ ih => exact .drift (.guard hp) ih
  | fork hp hnext _ ih => exact .drift (.fork hp hnext) ih
  | back hp _ ih => exact .drift (.back hp) ih
  | done hp hi => exact .done hp hi

/-- Outside the call in which the way begins no guard counts. -/
theorem Accepts.viable_none (h : Accepts kinds p σ i) : Viable kinds level i none p σ := by
  induction h with
  | take hp hk h => exact .take hp hk h
  | drift hd _ ih =>
    cases hd with
    | call hp => exact .call hp ih
    | guard hp => exact .guard hp nofun ih
    | fork hp hnext => exact .fork hp hnext ih
    | back hp => exact .back hp ih
  | done hp hi => exact .done hp hi

/-- No guard forbids anything at the lowest level. -/
theorem Accepts.viable_zero (h : Accepts kinds p σ i) (d : Option Nat) :
    Viable kinds 0 i d p σ := by
  induction h generalizing d with
  | take hp hk h => exact .take hp hk h
  | drift hd _ ih =>
    cases hd with
    | call hp => exact .call hp (ih _)
    | guard hp => exact .guard hp (fun _ => Nat.zero_le _) (ih d)
    | fork hp hnext => exact .fork hp hnext (ih d)
    | back hp => exact .back hp (ih _)
  | done hp hi => exact .done hp hi

/-- At a fork one of the ways on leads to the end. -/
theorem Accepts.exists_of_fork {nexts : List Nat} (h : Accepts kinds p σ i)
    (hp : java.node p = .fork nexts) : ∃ next ∈ nexts, Accepts kinds (p.move next) σ i := by
  cases h with
  | take hp' => rw [hp] at hp'; cases hp'
  | done hp' => rw [hp] at hp'; cases hp'
  | drift hd h =>
    cases hd with
    | call hp' => rw [hp] at hp'; cases hp'
    | guard hp' => rw [hp] at hp'; cases hp'
    | back hp' => rw [hp] at hp'; cases hp'
    | fork hp' hnext =>
      rw [hp] at hp'
      cases hp'
      exact ⟨_, hnext, h⟩

/-- Behind a guard the way goes on. -/
theorem Accepts.of_guard {level next : Nat} (h : Accepts kinds p σ i)
    (hp : java.node p = .guard level next) : Accepts kinds (p.move next) σ i := by
  cases h with
  | take hp' => rw [hp] at hp'; cases hp'
  | done hp' => rw [hp] at hp'; cases hp'
  | drift hd h =>
    cases hd with
    | call hp' => rw [hp] at hp'; cases hp'
    | fork hp' => rw [hp] at hp'; cases hp'
    | back hp' => rw [hp] at hp'; cases hp'
    | guard hp' =>
      rw [hp] at hp'
      cases hp'
      exact h

/-- At the end of a rule the way goes on behind its call. -/
theorem Accepts.of_finish {ret : Place} (h : Accepts kinds p (ret :: σ) i)
    (hp : java.node p = .finish) : Accepts kinds ret σ i := by
  cases h with
  | take hp' => rw [hp] at hp'; cases hp'
  | drift hd h =>
    cases hd with
    | call hp' => rw [hp] at hp'; cases hp'
    | guard hp' => rw [hp] at hp'; cases hp'
    | fork hp' => rw [hp] at hp'; cases hp'
    | back => exact h

/-- At the end of the parse all tokens have been taken. -/
theorem Accepts.size_le (h : Accepts kinds p [] i) (hp : java.node p = .finish) : kinds.size ≤ i := by
  cases h with
  | done _ hi => exact hi
  | take hp' => rw [hp] at hp'; cases hp'
  | drift hd =>
    cases hd with
    | call hp' | guard hp' | fork hp' => rw [hp] at hp'; cases hp'

end

section
variable {kinds : Array Kind} {level i : Nat} {d : Option Nat} {p : Place} {σ : List Place}

theorem Viable.of_take {ks : KindSet} {next : Nat} (h : Viable kinds level i d p σ)
    (hp : java.node p = .take ks next) :
    kindAt kinds i ∈ ks ∧ Accepts kinds (p.move next) σ (behind kinds i) := by
  cases h with
  | take hp' hk h =>
    rw [hp] at hp'
    cases hp'
    exact ⟨hk, h⟩
  | call hp' | guard hp' | fork hp' | back hp' | done hp' => rw [hp] at hp'; cases hp'

/-- Behind a token the way goes on. -/
theorem Accepts.of_take {ks : KindSet} {next : Nat} (h : Accepts kinds p σ i)
    (hp : java.node p = .take ks next) :
    kindAt kinds i ∈ ks ∧ Accepts kinds (p.move next) σ (behind kinds i) :=
  (h.viable_zero none).of_take hp

theorem Viable.of_call {r : Rule} {l next : Nat} (h : Viable kinds level i d p σ)
    (hp : java.node p = .call r l next) :
    Viable kinds level i (d.map (· + 1)) (.start r) (p.move next :: σ) := by
  cases h with
  | call hp' h =>
    rw [hp] at hp'
    cases hp'
    exact h
  | take hp' | guard hp' | fork hp' | back hp' | done hp' => rw [hp] at hp'; cases hp'

theorem Viable.of_guard {l next : Nat} (h : Viable kinds level i d p σ)
    (hp : java.node p = .guard l next) :
    (d = some 0 → level ≤ l) ∧ Viable kinds level i d (p.move next) σ := by
  cases h with
  | guard hp' hl h =>
    rw [hp] at hp'
    cases hp'
    exact ⟨hl, h⟩
  | take hp' | call hp' | fork hp' | back hp' | done hp' => rw [hp] at hp'; cases hp'

theorem Viable.exists_of_fork {nexts : List Nat} (h : Viable kinds level i d p σ)
    (hp : java.node p = .fork nexts) :
    ∃ next ∈ nexts, Viable kinds level i d (p.move next) σ := by
  cases h with
  | fork hp' hnext h =>
    rw [hp] at hp'
    cases hp'
    exact ⟨_, hnext, h⟩
  | take hp' | call hp' | guard hp' | back hp' | done hp' => rw [hp] at hp'; cases hp'

theorem Viable.of_finish {ret : Place} (h : Viable kinds level i d p (ret :: σ))
    (hp : java.node p = .finish) : Viable kinds level i (leaveDepth d) ret σ := by
  cases h with
  | back _ h => exact h
  | take hp' | call hp' | guard hp' | fork hp' => rw [hp] at hp'; cases hp'

end

/-! ## Loops of operators -/

/-- The nodes of the same rule to which a node leads. -/
def Node.nexts : Node → List Nat
  | .take _ next | .call _ _ next | .guard _ next => [next]
  | .fork nexts => nexts
  | .finish => []

def Node.isGuard : Node → Bool
  | .guard _ _ => true
  | _ => false

def Node.isFork : Node → Bool
  | .fork _ => true
  | _ => false

/-- Do forks with one way on lead from one of the nodes to another, at most `n` of them? -/
def chainTo (nodes : List Node) (goal : Nat) : Nat → Nat → Bool
  | 0, i => i == goal
  | n + 1, i => i == goal ||
    match nodes.getD i .finish with
    | .fork [next] => chainTo nodes goal n next
    | _ => false

/-- Do all ways from a node come to a token within `n` steps, without a call? -/
def opensAt (nodes : List Node) : Nat → Nat → Bool
  | 0, _ => false
  | n + 1, i =>
    match nodes.getD i .finish with
    | .take _ _ => true
    | .guard _ next => opensAt nodes n next
    | .fork nexts => nexts.all (opensAt nodes n)
    | _ => false

/-- Are the nodes of a rule that are laid out from the loop of its operators on those of the loop:
is there no way out of them but from the fork of the loop, is there no way to the operators but from
that fork, and do all operators begin with a token? -/
def loopFits (nodes : List Node) (o : Nat) : Bool :=
  nodes.getD o .finish == .fork [o + 1, o + 4] && nodes.getD (o + 4) .finish == .fork [0] &&
  (nodes.getD (o + 1) .finish).isFork && 1 < o && o + 4 < nodes.length && opensAt nodes 4 (o + 1) &&
  nodes.zipIdx.all fun (n, i) =>
    (i < o || i == o + 4 || (n != .finish && n.nexts.all fun next =>
      o ≤ next && (next != o + 4 || i == o))) &&
    n.nexts.all fun next => (next != o + 1 || i == o) &&
      (!(nodes.getD next .finish).isGuard || i == o + 1)

/-- Does a call with a level belong to an operand, which leads to the loop of the operators, and is
the rule with which the parse begins never called? -/
def callsFit (r : Rule) (nodes : List Node) (o? : Option Nat) : Bool :=
  nodes.all fun n =>
    match n with
    | .call r' level next => r' != .compilationUnit && (level == 0 || (r' == r && match o? with
        | some o => chainTo nodes o 3 next
        | none => false))
    | _ => true

namespace Rule

/-- Are operators and guards where they should be, and is there one end of the rule? -/
def isLooped (r : Rule) : Bool :=
  let nodes := r.body.layout
  (match r.body.operatorLoop? with
    | none => nodes.all fun n => !n.isGuard
    | some o => loopFits nodes o) &&
  callsFit r nodes r.body.operatorLoop? && !(nodes.getD 1 .finish).isGuard &&
  nodes.zipIdx.all fun (n, i) => i == 0 || n != .finish

theorem isLooped_eq_true (r : Rule) : r.isLooped = true := by
  cases r <;> decide +kernel

end Rule

theorem node_mk (r : Rule) (i : Nat) : java.node ⟨r, i⟩ = r.body.layout.getD i .finish :=
  java_wired.node _

theorem java_operatorLoop? (r : Rule) : java.operatorLoop? r = r.body.operatorLoop? := by
  simp only [java, cached]
  exact tabulate_getD _ _ _

/-- A node of a rule that is at an offset. -/
theorem Place.Valid.mem_zipIdx {p : Place} (hp : p.Valid) :
    (java.node p, p.offset) ∈ p.rule.body.layout.zipIdx := by
  rw [java_wired.node, List.getD_eq_getElem?_getD, List.getElem?_eq_getElem hp, Option.getD_some,
    List.mem_zipIdx_iff_getElem?, List.getElem?_eq_getElem hp]

theorem Place.Valid.mem_layout {p : Place} (hp : p.Valid) : java.node p ∈ p.rule.body.layout := by
  rw [java_wired.node, List.getD_eq_getElem?_getD, List.getElem?_eq_getElem hp]
  exact List.getElem_mem hp

/-- A rule ends at its first node only. -/
theorem Place.Valid.offset_of_finish {p : Place} (hp : p.Valid) (h : java.node p = .finish) :
    p.offset = 0 := by
  have hlooped := p.rule.isLooped_eq_true
  simp only [Rule.isLooped, Bool.and_eq_true, List.all_eq_true] at hlooped
  have hend := hlooped.2 _ hp.mem_zipIdx
  rw [h] at hend
  simpa using hend

theorem node_zero (r : Rule) : java.node ⟨r, 0⟩ = .finish := by
  rw [node_mk]
  unfold Body.layout
  simp only
  split <;> rfl

/-- The loop of the operators of a rule. -/
structure OperatorLoop (r : Rule) (o : Nat) : Prop where
  fork : java.node ⟨r, o⟩ = .fork [o + 1, o + 4]
  leave : java.node ⟨r, o + 4⟩ = .fork [0]
  block : (java.node ⟨r, o + 1⟩).isFork = true
  /-- There is no way out of the loop but from its fork. -/
  inside : ∀ i, o ≤ i → i ≠ o + 4 → (⟨r, i⟩ : Place).Valid → java.node ⟨r, i⟩ ≠ .finish ∧
    ∀ next ∈ (java.node ⟨r, i⟩).nexts, o ≤ next ∧ (next = o + 4 → i = o)
  /-- There is no way to the operators but from its fork. -/
  enter : ∀ i, (⟨r, i⟩ : Place).Valid → ∀ next ∈ (java.node ⟨r, i⟩).nexts,
    (next = o + 1 → i = o) ∧ ((java.node ⟨r, next⟩).isGuard = true → i = o + 1)
  /-- Operators begin with a token. -/
  opens : opensAt r.body.layout 4 (o + 1) = true
  low : 1 < o
  valid : (⟨r, o + 4⟩ : Place).Valid

theorem operatorLoop {r : Rule} {o : Nat} (h : r.body.operatorLoop? = some o) :
    OperatorLoop r o := by
  have hlooped := r.isLooped_eq_true
  simp only [Rule.isLooped, h, Bool.and_eq_true, loopFits, beq_iff_eq, decide_eq_true_eq,
    List.all_eq_true] at hlooped
  obtain ⟨⟨⟨⟨⟨⟨⟨⟨⟨hfork, hleave⟩, hblock⟩, hlow⟩, hvalid⟩, hopens⟩, hnodes⟩, -⟩, -⟩, -⟩ := hlooped
  have hnode {i : Nat} (hi : (⟨r, i⟩ : Place).Valid) := hnodes _ hi.mem_zipIdx
  refine ⟨(node_mk r o).trans hfork, (node_mk r _).trans hleave, (node_mk r _).symm ▸ hblock,
    fun i hle hne hi => ?_, fun i hi next hnext => ?_, hopens, hlow, hvalid⟩
  · have hin := (hnode hi).1
    simp only [Bool.or_eq_true, decide_eq_true_eq, beq_iff_eq, Bool.and_eq_true, bne_iff_ne,
      List.all_eq_true] at hin
    obtain ⟨hfinish, hnexts⟩ := hin.resolve_left (by omega)
    refine ⟨hfinish, fun next hnext => ⟨(hnexts next hnext).1, fun heq => ?_⟩⟩
    exact (hnexts next hnext).2.resolve_left fun hne => hne heq
  · have hin := (hnode hi).2
    dsimp only at hin
    replace hin := hin next hnext
    simp only [Bool.or_eq_true, beq_iff_eq, bne_iff_ne, Bool.not_eq_true'] at hin
    refine ⟨fun heq => hin.1.resolve_left fun hne => hne heq, fun hguard => ?_⟩
    refine hin.2.resolve_left fun hno => ?_
    rw [← node_mk, hguard] at hno
    cases hno

/-- A guard belongs to an operator. -/
theorem exists_operatorLoop {p : Place} (hp : p.Valid) (h : (java.node p).isGuard = true) :
    ∃ o, p.rule.body.operatorLoop? = some o := by
  cases ho : p.rule.body.operatorLoop? with
  | some o => exact ⟨o, rfl⟩
  | none =>
    have hlooped := p.rule.isLooped_eq_true
    simp only [Rule.isLooped, ho, Bool.and_eq_true, List.all_eq_true] at hlooped
    have hno := hlooped.1.1.1 _ hp.mem_layout
    rw [h] at hno
    cases hno

/-- Forks with one way on lead from a place to the place `goal`. -/
inductive LeadsTo (goal : Place) : Place → Prop where
  | refl : LeadsTo goal goal
  | step {p : Place} {next : Nat} (hp : java.node p = .fork [next])
      (h : LeadsTo goal (p.move next)) : LeadsTo goal p

theorem LeadsTo.of_chainTo {r : Rule} {o n i : Nat} (h : chainTo r.body.layout o n i = true) :
    LeadsTo ⟨r, o⟩ ⟨r, i⟩ := by
  induction n generalizing i with
  | zero =>
    rw [chainTo, beq_iff_eq] at h
    exact h ▸ .refl
  | succ n ih =>
    rw [chainTo, Bool.or_eq_true, beq_iff_eq] at h
    rcases h with rfl | h
    · exact .refl
    · split at h
      · rename_i next hnode
        exact .step ((node_mk r i).trans hnode) (ih h)
      · cases h

theorem LeadsTo.of_leadsTo {goal p : Place} {n : Nat} (h : Closure.leadsTo java goal n p = true) :
    LeadsTo goal p := by
  induction n generalizing p with
  | zero =>
    rw [Closure.leadsTo, beq_iff_eq] at h
    exact h ▸ .refl
  | succ n ih =>
    rw [Closure.leadsTo, Bool.or_eq_true, beq_iff_eq] at h
    rcases h with rfl | h
    · exact .refl
    · split at h
      · rename_i next hnode
        exact .step hnode (ih h)
      · cases h

/-- The places where a rule goes on behind a call with a level lead to the loop of its operators. -/
theorem leadsTo_of_call {p : Place} {r : Rule} {level next : Nat} (hp : p.Valid)
    (h : java.node p = .call r level next) (hlevel : level ≠ 0) :
    r = p.rule ∧ ∃ o, r.body.operatorLoop? = some o ∧ LeadsTo ⟨r, o⟩ (p.move next) := by
  have hlooped := p.rule.isLooped_eq_true
  simp only [Rule.isLooped, Bool.and_eq_true, callsFit, List.all_eq_true] at hlooped
  have hcall := hlooped.1.1.2 _ hp.mem_layout
  rw [h] at hcall
  simp only [Bool.or_eq_true, beq_iff_eq, Bool.and_eq_true] at hcall
  obtain ⟨rfl, hchain⟩ := hcall.2.resolve_left hlevel
  refine ⟨rfl, ?_⟩
  split at hchain
  · rename_i o ho
    exact ⟨o, ho, .of_chainTo hchain⟩
  · cases hchain

/-- The rule with which the parse begins is never called. -/
theorem ne_compilationUnit_of_call {p : Place} {r : Rule} {level next : Nat} (hp : p.Valid)
    (h : java.node p = .call r level next) : r ≠ .compilationUnit := by
  have hlooped := p.rule.isLooped_eq_true
  simp only [Rule.isLooped, Bool.and_eq_true, callsFit, List.all_eq_true] at hlooped
  have hcall := hlooped.1.1.2 _ hp.mem_layout
  rw [h] at hcall
  simp only [Bool.and_eq_true, bne_iff_ne] at hcall
  exact hcall.1

section
variable {kinds : Array Kind} {i : Nat} {p goal ret : Place} {σ : List Place}

theorem LeadsTo.rule (h : LeadsTo goal p) : p.rule = goal.rule := by
  induction h with
  | refl => rfl
  | step _ _ ih => exact ih

theorem LeadsTo.accepts (h : LeadsTo goal p) (ha : Accepts kinds goal σ i) :
    Accepts kinds p σ i := by
  induction h with
  | refl => exact ha
  | step hp _ ih => exact .drift (.fork hp List.mem_cons_self) ih

theorem Accepts.leadsTo (ha : Accepts kinds p σ i) (h : LeadsTo goal p) :
    Accepts kinds goal σ i := by
  induction h with
  | refl => exact ha
  | step hp _ ih =>
    obtain ⟨next, hnext, ha⟩ := ha.exists_of_fork hp
    rw [List.mem_singleton.1 hnext] at ha
    exact ih ha

/-- The place to which one will come back in the end: the last way back, or the place itself. -/
def base (p : Place) (ρ : List Place) : Place := ρ.getLast?.getD p

@[simp] theorem base_nil (p : Place) : base p [] = p := rfl

@[simp] theorem base_cons (p q : Place) (ρ : List Place) : base p (q :: ρ) = base q ρ := by
  rw [base, List.getLast?_cons, Option.getD_some, base]

theorem rule_base_move (p : Place) (next : Nat) (π : List Place) :
    (base (p.move next) π).rule = (base p π).rule := by
  unfold base
  cases π.getLast? with
  | none => rfl
  | some q => rfl

/-- A step without a token keeps the rule with which the ways back end. -/
theorem Drift.rule_base {p q : Place} {π τ : List Place} (h : Drift p π q τ) :
    (base q τ).rule = (base p π).rule := by
  cases h with
  | call => rw [base_cons, rule_base_move]
  | guard | fork => exact rule_base_move ..
  | back => rw [base_cons]

/-- A valid place of a rule with the ways back from it to the rule `root`. -/
structure Rooted (root : Rule) (p : Place) (σ : List Place) : Prop extends Sited p σ where
  base_rule : (base p σ).rule = root

namespace Rooted

variable {root : Rule} {q : Place} {τ : List Place}

theorem take {ks : KindSet} {next : Nat} (h : Rooted root p σ)
    (hp : java.node p = .take ks next) : Rooted root (p.move next) σ :=
  ⟨h.toSited.take hp, (rule_base_move ..).trans h.base_rule⟩

theorem drift (h : Rooted root p σ) (hd : Drift p σ q τ) : Rooted root q τ :=
  ⟨h.toSited.drift hd, hd.rule_base.trans h.base_rule⟩

end Rooted

variable {r : Rule} {o : Nat}

/-- The place is a node of the loop of the operators of a rule. -/
def InLoop (r : Rule) (o : Nat) (p : Place) : Prop :=
  p.rule = r ∧ p.Valid ∧ o ≤ p.offset ∧ p.offset ≠ o + 4

namespace OperatorLoop

/-- The loop may be left from its fork. -/
theorem accepts_of_back (h : OperatorLoop r o) (ha : Accepts kinds ret σ i) :
    Accepts kinds ⟨r, o⟩ (ret :: σ) i :=
  .drift (.fork h.fork (by simp)) (.drift (.fork h.leave (by simp)) (.drift (.back (node_zero r)) ha))

/-- Who leaves the loop goes on behind the call. -/
theorem accepts_back (h : OperatorLoop r o) (ha : Accepts kinds ⟨r, o + 4⟩ (ret :: σ) i) :
    Accepts kinds ret σ i := by
  obtain ⟨next, hnext, ha⟩ := ha.exists_of_fork h.leave
  rw [List.mem_singleton.1 hnext] at ha
  exact ha.of_finish (node_zero r)

/-- One step in the loop stays in it, unless the loop is left from its fork. -/
theorem inLoop_next (h : OperatorLoop r o) (hp : InLoop r o p) {next : Nat}
    (hnext : next ∈ (java.node p).nexts) (hvalid : (p.move next).Valid) :
    InLoop r o (p.move next) ∨ p = ⟨r, o⟩ ∧ next = o + 4 := by
  obtain ⟨rfl, hp, hle, hne⟩ := hp
  obtain ⟨hge, hout⟩ := (h.inside p.offset hle hne hp).2 next hnext
  rcases Nat.decEq next (o + 4) with hother | rfl
  · exact .inl ⟨rfl, hvalid, hge, hother⟩
  · have ho := hout rfl
    refine .inr ⟨?_, rfl⟩
    cases p
    exact congrArg _ ho

end OperatorLoop

/-- A run that begins in the loop of the operators of a rule may go on with other ways back from the
rule, provided that a run that leaves the loop may. -/
theorem Accepts.replay (hloop : OperatorLoop r o) {σ' τ : List Place}
    (hleave : ∀ j, Accepts kinds ⟨r, o + 4⟩ σ j → Accepts kinds ⟨r, o⟩ σ' j)
    (h : Accepts kinds p τ i) {ρ : List Place} (hτ : τ = ρ ++ σ) (hsited : Sited p τ)
    (hin : InLoop r o (base p ρ)) : Accepts kinds p (ρ ++ σ') i := by
  -- No node of the loop is the end of the rule.
  have hfinish {p : Place} (hin : InLoop r o p) : java.node p ≠ .finish := by
    obtain ⟨rfl, hvalid, hle, hne⟩ := hin
    exact (hloop.inside p.offset hle hne hvalid).1
  -- Only the fork of the loop leads out of it.
  have hnext {p : Place} {next : Nat} {ρ : List Place} (hin : InLoop r o (base p ρ))
      (hnode : java.node p ≠ .fork [o + 1, o + 4]) (hmem : next ∈ (java.node p).nexts)
      (hvalid : (p.move next).Valid) : InLoop r o (base (p.move next) ρ) := by
    cases ρ with
    | cons q ρ => simpa using hin
    | nil =>
      rcases hloop.inLoop_next hin hmem hvalid with hin | ⟨rfl, -⟩
      · exact hin
      · exact absurd hloop.fork hnode
  induction h generalizing ρ with
  | take hp hk h ih =>
    have hsited' := hsited.take hp
    refine .take hp hk (ih hτ hsited' ?_)
    exact hnext hin (by simp [hp]) (by simp [hp, Node.nexts]) hsited'.valid
  | done hp =>
    obtain ⟨rfl, rfl⟩ := List.append_eq_nil_iff.1 hτ.symm
    exact absurd hp (hfinish hin)
  | @drift p q _ _ _ hd h ih =>
    have hsited' := hsited.drift hd
    cases hd with
    | @call _ _ l next hp =>
      refine .drift (.call hp) (ih (ρ := p.move next :: ρ) (by rw [hτ]; rfl) hsited' ?_)
      rw [base_cons]
      exact hnext hin (by simp [hp]) (by simp [hp, Node.nexts]) hsited'.back.valid
    | guard hp =>
      refine .drift (.guard hp) (ih hτ hsited' ?_)
      exact hnext hin (by simp [hp]) (by simp [hp, Node.nexts]) hsited'.valid
    | @fork _ nexts next hp hmem =>
      cases ρ with
      | cons q ρ => exact .drift (.fork hp hmem) (ih hτ hsited' (by simpa using hin))
      | nil =>
        have hnexts : next ∈ (java.node p).nexts := by simpa [hp, Node.nexts] using hmem
        rcases hloop.inLoop_next hin hnexts hsited'.valid with hin | ⟨rfl, rfl⟩
        · exact .drift (.fork hp hmem) (ih hτ hsited' hin)
        · rw [List.nil_append] at hτ
          exact hleave _ (hτ ▸ h)
    | back hp =>
      cases ρ with
      | cons q ρ =>
        obtain ⟨rfl, hrest⟩ := List.cons.inj hτ
        exact .drift (.back hp) (ih hrest hsited' (by simpa using hin))
      | nil => exact absurd hp (hfinish hin)

/-- **An operator may be applied outside an operand as well as inside it.** -/
theorem Accepts.outside_operand (hloop : OperatorLoop r o) (hret : LeadsTo ⟨r, o⟩ ret)
    (h : Accepts kinds p (ret :: σ) i) (hsited : Sited p (ret :: σ)) (hin : InLoop r o p) :
    Accepts kinds p σ i :=
  h.replay hloop (fun _ ha => (hloop.accepts_back ha).leadsTo hret) (ρ := []) rfl hsited hin

/-- An operator may be applied inside an operand as well as outside it. -/
theorem Accepts.inside_operand (hloop : OperatorLoop r o) (hret : LeadsTo ⟨r, o⟩ ret)
    (h : Accepts kinds p σ i) (hsited : Sited p σ) (hin : InLoop r o p) :
    Accepts kinds p (ret :: σ) i := by
  refine h.replay hloop (fun j ha => ?_) (ρ := []) rfl hsited hin
  have hout : Accepts kinds ⟨r, o⟩ σ j := .drift (.fork hloop.fork (by simp)) ha
  exact hloop.accepts_of_back (hret.accepts hout)

end

/-! ## Guards -/

/-- The place is not between the loop of the operators and an operator. -/
structure Outside (p : Place) : Prop where
  guard : (java.node p).isGuard = false
  offset : ∀ o, p.rule.body.operatorLoop? = some o → p.offset ≠ o + 1

theorem Outside.start (r : Rule) : Outside (.start r) where
  guard := by
    have hlooped := r.isLooped_eq_true
    simp only [Rule.isLooped, Bool.and_eq_true, Bool.not_eq_true'] at hlooped
    rw [Place.start, node_mk]
    exact hlooped.1.2
  offset o ho := by
    have hlow := (operatorLoop ho).low
    simp only [Place.start]
    omega

section
variable {kinds : Array Kind} {level i : Nat} {p : Place} {σ τ : List Place} {r : Rule}

/-- Without a loop of operators no place is in it. -/
theorem Outside.of_no_loop (hp : p.Valid) (ho : p.rule.body.operatorLoop? = none) : Outside p where
  guard := by
    cases hguard : (java.node p).isGuard with
    | false => rfl
    | true =>
      obtain ⟨o, ho'⟩ := exists_operatorLoop hp hguard
      exact absurd (ho.symm.trans ho') nofun
  offset _ ho' := absurd (ho.symm.trans ho') nofun

/-- There is no way to the operators but from their loop. -/
theorem Outside.next (h : Outside p) (hp : p.Valid) {next : Nat}
    (hnext : next ∈ (java.node p).nexts) (hvalid : (p.move next).Valid) :
    Outside (p.move next) ∨ p.rule.body.operatorLoop? = some p.offset := by
  cases ho : p.rule.body.operatorLoop? with
  | none => exact .inl (.of_no_loop hvalid ho)
  | some o =>
    obtain ⟨henter, hguard⟩ := (operatorLoop ho).enter p.offset hp next hnext
    by_cases heq : p.offset = o
    · exact .inr (congrArg some heq.symm)
    · refine .inl ⟨?_, fun o' ho' hoffset => ?_⟩
      · cases hisguard : (java.node (p.move next)).isGuard with
        | false => rfl
        | true => exact absurd (hguard hisguard) (h.offset o ho)
      · rw [Place.move, ho] at ho'
        cases ho'
        exact heq (henter hoffset)

/-- Behind a token, a call or a guard one is never between the loop of the operators and an
operator. -/
theorem Outside.behind (hp : p.Valid) (hfork : (java.node p).isFork = false) {next : Nat}
    (hnext : next ∈ (java.node p).nexts) (hvalid : (p.move next).Valid) :
    Outside (p.move next) := by
  cases ho : p.rule.body.operatorLoop? with
  | none => exact .of_no_loop hvalid ho
  | some o =>
    have hloop := operatorLoop ho
    obtain ⟨henter, hguard⟩ := hloop.enter p.offset hp next hnext
    refine ⟨?_, fun o' ho' hoffset => ?_⟩
    · cases hisguard : (java.node (p.move next)).isGuard with
      | false => rfl
      | true =>
        have hblock := hloop.block
        rw [← hguard hisguard] at hblock
        exact absurd (hfork.symm.trans hblock) nofun
    · obtain rfl : o = o' := Option.some.inj (ho.symm.trans ho')
      have hnode := hloop.fork
      rw [← henter hoffset] at hnode
      have hnode : java.node p = _ := hnode
      rw [hnode] at hfork
      cases hfork

/-- Where operators are applied but not every one is allowed, one is in an operand. -/
def Nested (r : Rule) (level : Nat) (σ : List Place) : Prop :=
  ∀ o, r.body.operatorLoop? = some o → level = 0 ∨ ∃ ret σ', σ = ret :: σ' ∧ LeadsTo ⟨r, o⟩ ret

/-- A call with a level belongs to an operand. -/
theorem nested_of_call (hp : p.Valid) {next : Nat} (h : java.node p = .call r level next) :
    Nested r level (p.move next :: σ) := by
  intro o ho
  by_cases hlevel : level = 0
  · exact .inl hlevel
  · obtain ⟨-, o', ho', hleads⟩ := leadsTo_of_call hp h hlevel
    obtain rfl := Option.some.inj (ho.symm.trans ho')
    exact .inr ⟨_, _, rfl, hleads⟩

/-- In an operand the loop of the operators may always be left at once. -/
theorem Accepts.viable_loop {o : Nat} (hnested : Nested r level σ)
    (ho : r.body.operatorLoop? = some o) (h : Accepts kinds ⟨r, o⟩ σ i)
    (hsited : Sited ⟨r, o⟩ σ) : Viable kinds level i (some 0) ⟨r, o⟩ σ := by
  have hloop := operatorLoop ho
  rcases hnested o ho with rfl | ⟨ret, σ', rfl, hret⟩
  · exact h.viable_zero _
  · have hin : InLoop r o ⟨r, o⟩ := ⟨rfl, hsited.valid, Nat.le_refl o, by simp⟩
    have hout := h.outside_operand hloop hret hsited hin
    exact .fork hloop.fork (by simp) (.fork hloop.leave (by simp)
      (.back (node_zero r) (hret.accepts hout).viable_none))

/-- **No guard keeps a run from the end.** What a guard forbids in an operand may be done outside. -/
theorem Accepts.viable (hnested : Nested r level σ) (h : Accepts kinds p τ i) {ρ : List Place}
    (hτ : τ = ρ ++ σ) (hsited : Sited p τ) (hrule : (base p ρ).rule = r)
    (hout : Outside (base p ρ)) : Viable kinds level i (some ρ.length) p τ := by
  induction h generalizing ρ with
  | take hp hk h => exact .take hp hk h
  | done hp hi => exact .done hp hi
  | @drift p q _ _ _ hd h ih =>
    have hsited' := hsited.drift hd
    cases hd with
    | @call _ r' l next hp =>
      refine .call hp (ih (ρ := p.move next :: ρ) (by rw [hτ]; rfl) hsited' ?_ ?_)
      · cases ρ with
        | cons q ρ => simpa using hrule
        | nil => exact hrule
      · cases ρ with
        | cons q ρ => simpa using hout
        | nil =>
          rw [base_nil] at hout
          rcases hout.next hsited.valid (by simp [hp, Node.nexts]) hsited'.back.valid with
            hnext | hloop
          · simpa using hnext
          · have hfork : java.node p = _ := (operatorLoop hloop).fork
            rw [hp] at hfork
            cases hfork
    | @guard _ l next hp =>
      cases ρ with
      | nil => simpa [hp, Node.isGuard] using hout.guard
      | cons q ρ =>
        refine .guard hp nofun (ih hτ hsited' ?_ ?_)
        · simpa using hrule
        · simpa using hout
    | @fork _ nexts next hp hmem =>
      cases ρ with
      | cons q ρ =>
        refine .fork hp hmem (ih hτ hsited' ?_ ?_)
        · simpa using hrule
        · simpa using hout
      | nil =>
        rcases hout.next hsited.valid (by simpa [hp, Node.nexts] using hmem) hsited'.valid with
          hnext | hloop
        · exact .fork hp hmem (ih hτ hsited' hrule hnext)
        · rw [List.nil_append] at hτ
          subst hτ hrule
          exact Accepts.viable_loop hnested hloop (.drift (.fork hp hmem) h) hsited
    | back hp =>
      cases ρ with
      | nil => exact .back hp h.viable_none
      | cons q ρ =>
        obtain ⟨rfl, hrest⟩ := List.cons.inj hτ
        refine .back hp (ih hrest hsited' ?_ ?_)
        · simpa using hrule
        · simpa using hout

end

end JavaOutline
