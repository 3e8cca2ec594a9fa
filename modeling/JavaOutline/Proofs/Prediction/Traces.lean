import JavaOutline.Proofs.Prediction.Ways

/-!
# The traces of runs in a decision

What a run through the network leaves in the configurations of a decision. A `Trace` fixes the
callers, the loop of operators at which the decision is made, if it is one, and the runs in
question; `Trace.Has` says that a way is part of such a run. Following the ways keeps traces
(`Trace.Suits.progressive`).
-/

namespace JavaOutline

open Network

/-! ## Near the loop of the operators -/

/-- All ways from the place come to a token, without a call. -/
def Opening (p : Place) : Prop := ∃ n, opensAt p.rule.body.layout n p.offset = true

/-- From such a place only forks and guards lead to the token. -/
theorem Opening.cases {p : Place} (h : Opening p) :
    (∃ ks next, java.node p = .take ks next) ∨
      (∃ l next, java.node p = .guard l next ∧ Opening (p.move next)) ∨
      ∃ nexts, java.node p = .fork nexts ∧ ∀ next ∈ nexts, Opening (p.move next) := by
  obtain ⟨n, hn⟩ := h
  cases n with
  | zero => cases hn
  | succ n =>
    have hnode : java.node p = _ := node_mk p.rule p.offset
    unfold opensAt at hn
    split at hn
    · rename_i ks next hp
      exact .inl ⟨ks, next, hnode.trans hp⟩
    · rename_i l next hp
      exact .inr (.inl ⟨l, next, hnode.trans hp, n, hn⟩)
    · rename_i nexts hp
      exact .inr (.inr ⟨nexts, hnode.trans hp, fun next hnext => ⟨n, List.all_eq_true.1 hn next hnext⟩⟩)
    · cases hn

theorem Opening.ne_call {p : Place} (h : Opening p) (r : Rule) (l next : Nat) :
    java.node p ≠ .call r l next := by
  intro hp
  rcases h.cases with ⟨ks, next, hp'⟩ | ⟨l, next, hp', -⟩ | ⟨nexts, hp', -⟩ <;>
    exact absurd (hp.symm.trans hp') nofun

theorem Opening.ne_finish {p : Place} (h : Opening p) : java.node p ≠ .finish := by
  intro hp
  rcases h.cases with ⟨ks, next, hp'⟩ | ⟨l, next, hp', -⟩ | ⟨nexts, hp', -⟩ <;>
    exact absurd (hp.symm.trans hp') nofun

theorem Opening.guard {p : Place} (h : Opening p) {l next : Nat}
    (hp : java.node p = .guard l next) : Opening (p.move next) := by
  rcases h.cases with ⟨ks, next, hp'⟩ | ⟨l, next, hp', h⟩ | ⟨nexts, hp', -⟩
  · exact absurd (hp.symm.trans hp') nofun
  · cases hp.symm.trans hp'
    exact h
  · exact absurd (hp.symm.trans hp') nofun

theorem Opening.fork {p : Place} (h : Opening p) {nexts : List Nat} {next : Nat}
    (hp : java.node p = .fork nexts) (hnext : next ∈ nexts) : Opening (p.move next) := by
  rcases h.cases with ⟨ks, next, hp'⟩ | ⟨l, next, hp', -⟩ | ⟨nexts, hp', h⟩
  · exact absurd (hp.symm.trans hp') nofun
  · exact absurd (hp.symm.trans hp') nofun
  · cases hp.symm.trans hp'
    exact h next hnext

/-- The loop of the operators may be left without a token. -/
theorem OperatorLoop.not_opening {r : Rule} {o : Nat} (h : OperatorLoop r o) :
    ¬Opening ⟨r, o⟩ := fun hopening =>
  ((hopening.fork h.fork (by simp)).fork h.leave (by simp)).ne_finish (node_zero r)

/-- The place is on the way to the loop of the operators, on the way out of it or in front of the token
with which an operator begins. -/
inductive Near (r : Rule) (o : Nat) : Place → Prop where
  | loop {p : Place} (h : LeadsTo ⟨r, o⟩ p) : Near r o p
  | leave : Near r o ⟨r, o + 4⟩
  | finish : Near r o ⟨r, 0⟩
  | opens {p : Place} (hrule : p.rule = r) (h : Opening p) : Near r o p

namespace Near

variable {r : Rule} {o : Nat} {p : Place}

theorem rule (h : Near r o p) : p.rule = r := by
  cases h with
  | loop h => exact h.rule
  | leave | finish => rfl
  | opens hrule => exact hrule

/-- There is no call near the loop. -/
theorem ne_call (h : Near r o p) (hloop : OperatorLoop r o) (r' : Rule) (l next : Nat) :
    java.node p ≠ .call r' l next := by
  intro hp
  cases h with
  | loop h =>
    cases h with
    | refl => rw [hloop.fork] at hp; cases hp
    | step hp' => rw [hp] at hp'; cases hp'
  | leave => rw [hloop.leave] at hp; cases hp
  | finish => rw [node_zero] at hp; cases hp
  | opens _ h => exact h.ne_call r' l next hp

theorem guard (h : Near r o p) (hloop : OperatorLoop r o) {l next : Nat}
    (hp : java.node p = .guard l next) : Near r o (p.move next) := by
  cases h with
  | loop h =>
    cases h with
    | refl => rw [hloop.fork] at hp; cases hp
    | step hp' => rw [hp] at hp'; cases hp'
  | leave => rw [hloop.leave] at hp; cases hp
  | finish => rw [node_zero] at hp; cases hp
  | opens hrule h => exact .opens hrule (h.guard hp)

theorem fork (h : Near r o p) (hloop : OperatorLoop r o) {nexts : List Nat} {next : Nat}
    (hp : java.node p = .fork nexts) (hnext : next ∈ nexts) : Near r o (p.move next) := by
  cases h with
  | loop h =>
    cases h with
    | refl =>
      rw [hloop.fork] at hp
      cases hp
      rcases List.mem_cons.1 hnext with rfl | hnext
      · exact .opens rfl ⟨4, hloop.opens⟩
      · rw [List.mem_singleton.1 hnext]
        exact .leave
    | step hp' h =>
      rw [hp] at hp'
      cases hp'
      rw [List.mem_singleton.1 hnext]
      exact .loop h
  | leave =>
    rw [hloop.leave] at hp
    cases hp
    rw [List.mem_singleton.1 hnext]
    exact .finish
  | finish => rw [node_zero] at hp; cases hp
  | opens hrule h => exact .opens hrule (h.fork hp hnext)

end Near

/-- A way has left the rule only by ending operands of the same rule. -/
structure Stays (r : Rule) (o : Nat) (σ : List Place) (p : Place) (π rest : List Place) : Prop where
  known : π = []
  operands : ∃ ρ, σ = ρ ++ rest ∧ ∀ ret ∈ ρ, LeadsTo ⟨r, o⟩ ret
  near : Near r o p

/-! ## Traces of runs -/

/-- A way that is in `k` calls which it has entered since it was in the rule `r` with the ways back
`σ`. -/
def Framed (r : Rule) (σ : List Place) (p : Place) (τ : List Place) (k : Nat) : Prop :=
  ∃ ρ, τ = ρ ++ σ ∧ ρ.length = k ∧ (base p ρ).rule = r ∧ (k ≠ 0 → Outside (base p ρ))

namespace Framed

variable {r : Rule} {σ τ : List Place} {p : Place} {k : Nat}

theorem call (h : Framed r σ p τ k) (hp : p.Valid) {r' : Rule} {l next : Nat}
    (hnode : java.node p = .call r' l next) :
    Framed r σ (.start r') (p.move next :: τ) (k + 1) := by
  obtain ⟨ρ, rfl, rfl, hrule, hout⟩ := h
  refine ⟨p.move next :: ρ, rfl, rfl, ?_⟩
  cases ρ with
  | nil =>
    exact ⟨hrule, fun _ => .behind hp (by simp [hnode, Node.isFork]) (by simp [hnode, Node.nexts])
      (hp.call hnode).1⟩
  | cons ret ρ =>
    rw [base_cons, base_cons]
    rw [base_cons] at hrule hout
    exact ⟨hrule, fun _ => hout (by simp)⟩

theorem move (h : Framed r σ p τ k) (next : Nat) : Framed r σ (p.move next) τ k := by
  obtain ⟨ρ, rfl, rfl, hrule, hout⟩ := h
  refine ⟨ρ, rfl, rfl, ?_⟩
  cases ρ with
  | nil => exact ⟨hrule, fun h => absurd rfl h⟩
  | cons ret ρ =>
    rw [base_cons]
    rw [base_cons] at hrule hout
    exact ⟨hrule, hout⟩

theorem back {ret : Place} (h : Framed r σ p (ret :: τ) (k + 1)) :
    Framed r σ ret τ k ∧ ∃ ρ, τ = ρ ++ σ ∧ ρ.length = k ∧ (base ret ρ).rule = r ∧
      Outside (base ret ρ) := by
  obtain ⟨ρ, hτ, hlength, hrule, hout⟩ := h
  cases ρ with
  | nil => cases hlength
  | cons ret' ρ =>
    obtain ⟨rfl, rfl⟩ := List.cons.inj hτ
    rw [base_cons] at hrule hout
    have hk : ρ.length = k := Nat.succ.inj hlength
    exact ⟨⟨ρ, rfl, hk, hrule, fun _ => hout (by simp)⟩, ρ, rfl, hk, hrule, hout (by simp)⟩

end Framed

/-- What is known of the runs that are traced: where they begin, and what they keep to. -/
structure Trace where
  kinds : Array Kind
  /-- The position of the next token. -/
  pos : Nat
  /-- The least level of the operators that the guards allow in the rule. -/
  level : Nat
  /-- The rule, and the ways back from it. -/
  rule : Rule
  callers : List Place
  /-- The rule with which the runs end. -/
  root : Rule
  /-- No more ways back than this can be needed. -/
  bound : Nat
  /-- The loop of the operators of the rule, if the decision is made there. -/
  loop : Option Nat
  /-- Where the runs are. -/
  region : Place → Prop

namespace Trace

/-- The way is a beginning of a run to the end of the parse. -/
structure Has (T : Trace) (full : Bool) (d : Option Nat) (o : Bool) (p : Place)
    (π rest : List Place) : Prop where
  viable : Viable T.kinds T.level T.pos d p (π ++ rest)
  sited : Sited p (π ++ rest)
  rooted : (base p (π ++ rest)).rule = T.root
  rise : p.rise (π ++ rest) ≤ T.bound
  region : T.region p
  known : full = true → rest = []
  framed : T.level ≠ 0 → ∀ k, d = some k → Framed T.rule T.callers p (π ++ rest) k
  near : ∀ l, T.loop = some l → ∀ k, d = some k → k = 0 ∧ Near T.rule l p
  stays : full = false → ∀ l, T.loop = some l → o = false → Stays T.rule l T.callers p π rest

/-- The trace suits the circumstances in which the parser looks ahead. With unknown callers the runs are
those through a whole file, or they do not end in front of the next token. -/
structure Suits (T : Trace) (L : Outlook) : Prop where
  net : L.net = java
  level : L.guards = true → L.level = T.level
  nested : T.loop = none → Nested T.rule T.level T.callers
  loop : ∀ l, T.loop = some l →
    T.rule.body.operatorLoop? = some l ∧ (L.full = false → L.loop = some T.rule)
  ends : L.full = false → T.root = .compilationUnit ∨ T.pos < T.kinds.size
  region : ∀ {p q : Place} {σ τ : List Place}, Sited p σ → Drift p σ q τ → T.region p → T.region q

section
variable {T : Trace} {L : Outlook} {full : Bool} {d : Option Nat} {o : Bool} {p : Place}
  {π rest : List Place}

/-- One step of a way without a token. -/
theorem Has.drift (h : T.Has full d o p π rest) (hT : T.Suits L) {d' : Option Nat} {o' : Bool}
    {q : Place} {π' rest' : List Place} (hd : Drift p (π ++ rest) q (π' ++ rest'))
    (hviable : Viable T.kinds T.level T.pos d' q (π' ++ rest')) (hknown : full = true → rest' = [])
    (hframed : T.level ≠ 0 → ∀ k, d' = some k → Framed T.rule T.callers q (π' ++ rest') k)
    (hnear : ∀ l, T.loop = some l → ∀ k, d' = some k → k = 0 ∧ Near T.rule l q)
    (hstays : full = false → ∀ l, T.loop = some l → o' = false →
      Stays T.rule l T.callers q π' rest') :
    T.Has full d' o' q π' rest' where
  viable := hviable
  sited := h.sited.drift hd
  rooted := hd.rule_base.trans h.rooted
  rise := Nat.le_trans (hd.decreases h.sited.valid).2 h.rise
  region := hT.region h.sited hd h.region
  known := hknown
  framed := hframed
  near := hnear
  stays := hstays

theorem Has.move (h : T.Has full d o p π rest) (hT : T.Suits L) {next : Nat}
    (hd : Drift p (π ++ rest) (p.move next) (π ++ rest))
    (hviable : Viable T.kinds T.level T.pos d (p.move next) (π ++ rest))
    (hnear : ∀ l, OperatorLoop T.rule l → Near T.rule l p → Near T.rule l (p.move next)) :
    T.Has full d o (p.move next) π rest :=
  h.drift hT hd hviable h.known (fun hlevel k hk => (h.framed hlevel k hk).move next)
    (fun l hl k hk => (h.near l hl k hk).imp_right (hnear l (operatorLoop (hT.loop l hl).1)))
    fun hfull l hl ho =>
      have hstays := h.stays hfull l hl ho
      ⟨hstays.known, hstays.operands, hnear l (operatorLoop (hT.loop l hl).1) hstays.near⟩

/-- In an operand whatever can be done can be done after leaving it. -/
theorem Has.leave (h : T.Has full d o p π rest) (hT : T.Suits L) {ret : Place} {π' : List Place}
    (hπ : π = ret :: π') (hloop : p.rule.body.operatorLoop? = some p.offset)
    (hret : LeadsTo p ret) :
    T.Has full d o (p.move (p.offset + 4)) π rest := by
  subst hπ
  have ho := operatorLoop hloop
  have hin : InLoop p.rule p.offset p := ⟨rfl, h.sited.valid, Nat.le_refl _, by omega⟩
  have hout := h.viable.accepts.outside_operand ho hret h.sited hin
  have hback : Viable T.kinds T.level T.pos (leaveDepth d) ret (π' ++ rest) := by
    have haccepts := hret.accepts hout
    by_cases hlevel : T.level = 0
    · rw [hlevel]
      exact haccepts.viable_zero _
    · match d with
      | none | some 0 => exact haccepts.viable_none
      | some (k + 1) =>
        obtain ⟨-, ρ, hτ, rfl, hrule, hside⟩ := (h.framed hlevel (k + 1) rfl).back
        have hloop : T.loop = none := by
          refine Option.eq_none_iff_forall_not_mem.2 fun l hl => ?_
          exact absurd (h.near l hl _ rfl).1 (Nat.succ_ne_zero _)
        exact haccepts.viable (hT.nested hloop) hτ h.sited.back hrule hside
  have hviable : Viable T.kinds T.level T.pos d (p.move (p.offset + 4)) (ret :: π' ++ rest) :=
    .fork ho.leave List.mem_cons_self (.back (node_zero _) hback)
  have hfork : java.node p = .fork [p.offset + 1, p.offset + 4] := ho.fork
  exact h.move hT (.fork hfork (by simp)) hviable
    fun l hl hnear => hnear.fork hl hfork (by simp)

/-- **The traced runs go on by steps that are followed.** -/
theorem Suits.progressive (hT : T.Suits L) : Closure.Progressive L (T.Has L.full) where
  net := hT.net
  sited h := h.sited
  closed {d o p} hfull hp h := by
    have hroot : p.rule = T.root := h.rooted
    rw [hroot, (hT.ends hfull).resolve_right (Nat.not_lt.2 (h.viable.accepts.size_le hp)),
      returns_compilationUnit]
  call hp h := by
    refine h.drift hT (.call hp) (h.viable.of_call hp) h.known (fun hlevel k hk => ?_)
      (fun l hl k hk => ?_) fun hfull l hl ho => ?_
    · obtain ⟨k, hd, rfl⟩ := Option.map_eq_some_iff.1 hk
      exact (h.framed hlevel k hd).call h.sited.valid hp
    · obtain ⟨k, hd, rfl⟩ := Option.map_eq_some_iff.1 hk
      exact absurd hp ((h.near l hl k hd).2.ne_call (operatorLoop (hT.loop l hl).1) _ _ _)
    · exact absurd hp ((h.stays hfull l hl ho).near.ne_call (operatorLoop (hT.loop l hl).1) _ _ _)
  guard hp h := by
    obtain ⟨hlevel, hviable⟩ := h.viable.of_guard hp
    refine ⟨fun hguards hd => hT.level hguards ▸ hlevel hd, ?_⟩
    exact h.move hT (.guard hp) hviable fun l hl hnear => hnear.guard hl hp
  fork hp h := by
    obtain ⟨next, hnext, hviable⟩ := h.viable.exists_of_fork hp
    exact ⟨next, hnext, h.move hT (.fork hp hnext) hviable fun l hl hnear => hnear.fork hl hp hnext⟩
  operand hp hloop hret h := by
    have hfork := (operatorLoop hloop).fork
    rw [hp] at hfork
    cases hfork
    exact ⟨_, List.mem_cons_self, h.leave hT rfl hloop hret⟩
  back {d o p ret π rest} hp h := by
    refine h.drift hT (.back hp) (h.viable.of_finish hp) h.known (fun hlevel k hk => ?_)
      (fun l hl k hk => ?_) fun hfull l hl ho => ?_
    · match d, hk with
      | some (k + 1), rfl => exact (h.framed hlevel (k + 1) rfl).back.1
    · match d, hk with
      | some (k + 1), rfl => exact absurd (h.near l hl _ rfl).1 (Nat.succ_ne_zero _)
    · have hnil := (h.stays hfull l hl ho).known
      cases hnil
  out {d o p ret rest} hfull hp hret h := by
    refine h.drift hT (.back hp) (h.viable.of_finish hp).accepts.viable_none
      (fun hno => absurd (hfull.symm.trans hno) nofun) (fun _ _ => nofun) (fun _ _ _ => nofun)
      fun _ l hl ho => ?_
    rw [Bool.or_eq_false_iff] at ho
    obtain ⟨hstays, hlevel⟩ := And.intro (h.stays hfull l hl ho.1) ho.2
    obtain ⟨hloop, hL⟩ := (hT.loop l hl).imp_right (· hfull)
    obtain ⟨q, next, hq, hcall, hplace⟩ := mem_returns_iff.1 hret
    -- The way has not left for a caller that allows every operator, so it has ended an operand.
    have hne : ret.level ≠ 0 := by
      intro hzero
      rw [hL, hstays.near.rule, hzero] at hlevel
      simp at hlevel
    obtain ⟨hrule, l', hl', hleads⟩ := leadsTo_of_call hq hcall hne
    rw [hstays.near.rule] at hl' hleads
    obtain rfl := Option.some.inj (hloop.symm.trans hl')
    rw [← hplace] at hleads
    obtain ⟨ρ, hρ, hall⟩ := hstays.operands
    refine ⟨rfl, ⟨ρ ++ [ret.place], by simpa using hρ, fun x hx => ?_⟩, .loop hleads⟩
    rcases List.mem_append.1 hx with hx | hx
    · exact hall x hx
    · rw [List.mem_singleton.1 hx]
      exact hleads
  known hfull h := h.known hfull

end

end Trace

end JavaOutline
