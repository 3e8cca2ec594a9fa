import JavaOutline.Proofs.Prediction.Origins

/-!
# What follows a rule

Only a file ends with the end of the tokens: behind every other rule some token follows in one of its
callers (`exists_exits`). So where a run of another rule has read all tokens, looking ahead with
unknown callers has gone on in a caller of the rule (`Choice.Tracks.exists_left`).
-/

namespace JavaOutline

open Network Closure ConfigSet

/-! ## Tokens behind a rule -/

/-- Without a token a way leads to where one is taken, not by an operator or within one. -/
inductive Exits : Place → List Place → Prop where
  | take {p : Place} {σ : List Place} {ks : KindSet} {next : Nat} (hp : java.node p = .take ks next)
      (hbefore : ∀ o, p.rule.body.operatorLoop? = some o → p.offset < o)
      (hσ : ∀ q ∈ σ, q.rule.body.operatorLoop? = none) : Exits p σ
  | drift {p q : Place} {σ τ : List Place} (hd : Drift p σ q τ) (h : Exits q τ) : Exits p σ

section
variable {p q : Place} {σ τ : List Place}

theorem Exits.exists_drift (h : Exits p σ) (hp : ∀ ks next, java.node p ≠ .take ks next) :
    ∃ q τ, Drift p σ q τ ∧ Exits q τ := by
  cases h with
  | take hp' => exact absurd hp' (hp _ _)
  | drift hd h => exact ⟨_, _, hd, h⟩

theorem Exits.of_call {r : Rule} {l next : Nat} (h : Exits p σ) (hp : java.node p = .call r l next) :
    Exits (.start r) (p.move next :: σ) := by
  obtain ⟨q, τ, hd, hq⟩ := h.exists_drift (by simp [hp])
  cases hd with
  | call hp' =>
    cases hp.symm.trans hp'
    exact hq
  | guard hp' | fork hp' | back hp' => cases hp.symm.trans hp'

theorem Exits.of_guard {l next : Nat} (h : Exits p σ) (hp : java.node p = .guard l next) :
    Exits (p.move next) σ := by
  obtain ⟨q, τ, hd, hq⟩ := h.exists_drift (by simp [hp])
  cases hd with
  | guard hp' =>
    cases hp.symm.trans hp'
    exact hq
  | call hp' | fork hp' | back hp' => cases hp.symm.trans hp'

theorem Exits.exists_of_fork {nexts : List Nat} (h : Exits p σ) (hp : java.node p = .fork nexts) :
    ∃ next ∈ nexts, Exits (p.move next) σ := by
  obtain ⟨q, τ, hd, hq⟩ := h.exists_drift (by simp [hp])
  cases hd with
  | fork hp' hnext =>
    cases hp.symm.trans hp'
    exact ⟨_, hnext, hq⟩
  | call hp' | guard hp' | back hp' => cases hp.symm.trans hp'

theorem Exits.exists_of_finish (h : Exits p σ) (hp : java.node p = .finish) :
    ∃ ret τ, σ = ret :: τ ∧ Exits ret τ := by
  obtain ⟨q, τ, hd, hq⟩ := h.exists_drift (by simp [hp])
  cases hd with
  | back => exact ⟨_, _, rfl, hq⟩
  | call hp' | guard hp' | fork hp' => cases hp.symm.trans hp'

theorem Exits.of_take {ks : KindSet} {next : Nat} (h : Exits p σ)
    (hp : java.node p = .take ks next) :
    (∀ o, p.rule.body.operatorLoop? = some o → p.offset < o) ∧
      ∀ q ∈ σ, q.rule.body.operatorLoop? = none := by
  cases h with
  | take _ hbefore hσ => exact ⟨hbefore, hσ⟩
  | drift hd =>
    cases hd with
    | call hp' | guard hp' | fork hp' | back hp' => cases hp.symm.trans hp'

/-- It does not lead through an operator. -/
theorem Exits.not_opening {r : Rule} {o : Nat} (h : Exits p σ)
    (hloop : r.body.operatorLoop? = some o) (hin : InLoop r o p) (hp : Opening p) : False := by
  have ho := operatorLoop hloop
  have hstep {p : Place} {next : Nat} (hin : InLoop r o p) (hp : Opening p)
      (hnext : next ∈ (java.node p).nexts) (hvalid : (p.move next).Valid) :
      InLoop r o (p.move next) := by
    rcases ho.inLoop_next hin hnext hvalid with hin | ⟨rfl, -⟩
    · exact hin
    · exact absurd hp ho.not_opening
  induction h with
  | take _ hbefore =>
    obtain ⟨hrule, -, hle, -⟩ := hin
    exact absurd (hbefore o (hrule ▸ hloop)) (Nat.not_lt.2 hle)
  | drift hd _ ih =>
    cases hd with
    | call hp' => exact hp.ne_call _ _ _ hp'
    | guard hp' =>
      exact ih (hstep hin hp (by simp [hp', Node.nexts]) (hin.2.1.guard hp').valid) (hp.guard hp')
    | fork hp' hnext =>
      exact ih (hstep hin hp (by simpa [hp', Node.nexts] using hnext) (hin.2.1.fork hp' hnext).valid)
        (hp.fork hp' hnext)
    | back hp' => exact hp.ne_finish hp'

end

/-! ## They are found -/

/-- **Ways with unknown callers that lead to a token behind a rule go on by steps that are
followed.** -/
theorem exits_progressive {L : Outlook} (hnet : L.net = java) (hfull : L.full = false)
    (hguards : L.guards = false) :
    Progressive L fun _ _ p π rest => Sited p (π ++ rest) ∧ Exits p (π ++ rest) where
  net := hnet
  sited h := h.1
  closed _ hp h := by
    obtain ⟨ret, τ, heq, -⟩ := h.2.exists_of_finish hp
    cases heq
  call hp h := ⟨h.1.drift (.call hp), h.2.of_call hp⟩
  guard hp h := by
    refine ⟨fun hyes => ?_, h.1.drift (.guard hp), h.2.of_guard hp⟩
    rw [hguards] at hyes
    cases hyes
  fork hp h := by
    obtain ⟨next, hnext, hexits⟩ := h.2.exists_of_fork hp
    exact ⟨next, hnext, h.1.drift (.fork hp hnext), hexits⟩
  operand {_ _ p ret π rest nexts} hp hloop hret h := by
    have ho := operatorLoop hloop
    cases hp.symm.trans (show java.node p = _ from ho.fork)
    obtain ⟨next, hnext, hexits⟩ := h.2.exists_of_fork hp
    have hsited := h.1.drift (.fork hp hnext)
    rcases List.mem_cons.1 hnext with rfl | hnext
    · have hin : InLoop p.rule p.offset (p.move (p.offset + 1)) :=
        ⟨rfl, hsited.valid, Nat.le_succ _, by simp [Place.move]⟩
      exact (hexits.not_opening hloop hin ⟨4, ho.opens⟩).elim
    · exact ⟨next, hnext, hsited, hexits⟩
  back hp h := by
    obtain ⟨ret', τ, heq, hexits⟩ := h.2.exists_of_finish hp
    cases heq
    exact ⟨h.1.back, hexits⟩
  out _ hp _ h := by
    obtain ⟨ret', τ, heq, hexits⟩ := h.2.exists_of_finish hp
    cases heq
    exact ⟨h.1.back, hexits⟩
  known hyes := absurd (hfull.symm.trans hyes) nofun

/-! ## There are some -/

/-- All calls of the network: the rule that is called and the place behind the call. -/
def allCalls : List (Rule × Place) :=
  Rule.all.flatMap fun r => r.body.layout.filterMap fun
    | .call r' _ next => some (r', ⟨r, next⟩)
    | _ => none

theorem exists_of_mem_allCalls {x : Rule × Place} (h : x ∈ allCalls) :
    ∃ (p : Place) (level next : Nat), p.Valid ∧ java.node p = .call x.1 level next ∧
      x.2 = p.move next := by
  obtain ⟨r, -, h⟩ := List.mem_flatMap.1 h
  obtain ⟨node, hnode, h⟩ := List.mem_filterMap.1 h
  obtain ⟨i, hi, rfl⟩ := List.mem_iff_getElem.1 hnode
  split at h
  · rename_i r' level next hcall
    obtain rfl := Option.some.inj h
    refine ⟨⟨r, i⟩, level, next, hi, ?_, rfl⟩
    rw [node_mk, List.getD_eq_getElem?_getD, List.getElem?_eq_getElem hi, Option.getD_some, hcall]
  · cases h

/-- Does some way lead from the place to a token behind a rule, in at most `n` steps? If a rule has
been entered on the way, it is not left. -/
def exitsAt : Nat → Bool → Place → Bool
  | 0, _, _ => false
  | n + 1, entered, p =>
    match p.rule.body.layout.getD p.offset .finish with
    | .take _ _ =>
      match p.rule.body.operatorLoop? with
      | none => true
      | some o => p.offset < o
    | .call r _ _ => p.rule.body.operatorLoop?.isNone && exitsAt n true (.start r)
    | .guard _ next => exitsAt n entered (p.move next)
    | .fork nexts => nexts.any fun next => exitsAt n entered (p.move next)
    | .finish => !entered && allCalls.any fun x => x.1 == p.rule && exitsAt n false x.2

theorem exits_of_entered {n : Nat} {p : Place} (h : exitsAt n true p = true) {σ : List Place}
    (hσ : ∀ q ∈ σ, q.rule.body.operatorLoop? = none) : Exits p σ := by
  induction n generalizing p σ with
  | zero => cases h
  | succ n ih =>
    have hnode : java.node p = _ := node_mk p.rule p.offset
    unfold exitsAt at h
    split at h
    · rename_i hp
      refine .take (hnode.trans hp) (fun o ho => ?_) hσ
      rw [ho] at h
      exact of_decide_eq_true h
    · rename_i hp
      rw [Bool.and_eq_true, Option.isNone_iff_eq_none] at h
      exact .drift (.call (hnode.trans hp)) (ih h.2 (List.forall_mem_cons.2 ⟨h.1, hσ⟩))
    · rename_i hp
      exact .drift (.guard (hnode.trans hp)) (ih h hσ)
    · rename_i hp
      obtain ⟨next, hnext, h⟩ := List.any_eq_true.1 h
      exact .drift (.fork (hnode.trans hp) hnext) (ih h hσ)
    · cases h

theorem exists_exits_of {n : Nat} {p : Place} (h : exitsAt n false p = true) (hvalid : p.Valid) :
    ∃ σ, Sited p σ ∧ Exits p σ := by
  induction n generalizing p with
  | zero => cases h
  | succ n ih =>
    have hnode : java.node p = _ := node_mk p.rule p.offset
    have hmove {next : Nat} (hnext : (p.move next).Valid) (hd : ∀ σ, Drift p σ (p.move next) σ)
        (h : exitsAt n false (p.move next) = true) : ∃ σ, Sited p σ ∧ Exits p σ := by
      obtain ⟨σ, hsited, hexits⟩ := ih h hnext
      exact ⟨σ, ⟨hvalid, hsited.proper⟩, .drift (hd σ) hexits⟩
    unfold exitsAt at h
    split at h
    · rename_i hp
      refine ⟨[], ⟨hvalid, .nil _⟩, .take (hnode.trans hp) (fun o ho => ?_) nofun⟩
      rw [ho] at h
      exact of_decide_eq_true h
    · rename_i hp
      rw [Bool.and_eq_true, Option.isNone_iff_eq_none] at h
      exact ⟨[], ⟨hvalid, .nil _⟩, .drift (.call (hnode.trans hp))
        (exits_of_entered h.2 (List.forall_mem_cons.2 ⟨h.1, List.forall_mem_nil _⟩))⟩
    · rename_i hp
      exact hmove (hvalid.guard (hnode.trans hp)).valid (fun _ => .guard (hnode.trans hp)) h
    · rename_i hp
      obtain ⟨next, hnext, h⟩ := List.any_eq_true.1 h
      exact hmove (hvalid.fork (hnode.trans hp) hnext).valid
        (fun _ => .fork (hnode.trans hp) hnext) h
    · rename_i hp
      obtain ⟨x, hx, h⟩ := List.any_eq_true.1 h
      rw [Bool.and_eq_true, beq_iff_eq] at h
      obtain ⟨q, level, next, hq, hcall, hback⟩ := exists_of_mem_allCalls hx
      have hret := (hq.call hcall).1
      obtain ⟨σ, hsited, hexits⟩ := ih h.2 (hback ▸ hret)
      rw [hback] at hsited hexits
      exact ⟨q.move next :: σ, ⟨hvalid, .cons hq (h.1 ▸ hcall) hsited.proper⟩,
        .drift (.back (hnode.trans hp)) hexits⟩

theorem exitsAt_all :
    (Rule.all.all fun r => r == .compilationUnit || exitsAt 12 false ⟨r, 0⟩) = true := by
  decide +kernel

/-- **Behind every rule but the first a token may follow.** -/
theorem exists_exits {r : Rule} (hr : r ≠ .compilationUnit) : ∃ σ, Sited ⟨r, 0⟩ σ ∧ Exits ⟨r, 0⟩ σ := by
  have hall := List.all_eq_true.1 exitsAt_all r r.mem_all
  rw [Bool.or_eq_true, beq_iff_eq] at hall
  have hvalid : (⟨r, 0⟩ : Place).Valid := Nat.lt_trans Nat.zero_lt_one (Place.Valid.start r)
  exact exists_exits_of (hall.resolve_left hr) hvalid

/-- A rule that nothing calls is the first one. -/
theorem eq_compilationUnit_of_returns {r : Rule} (h : java.returns r = []) : r = .compilationUnit := by
  by_contra hr
  obtain ⟨σ, hsited, hexits⟩ := exists_exits hr
  obtain ⟨ret, τ, rfl, -⟩ := hexits.exists_of_finish (node_zero r)
  obtain ⟨level, hmem⟩ := hsited.mem_returns
  rw [show java.returns r = [] from h] at hmem
  cases hmem

/-! ## Behind the last token -/

theorem Drift.append {p q : Place} {σ τ : List Place} (h : Drift p σ q τ) (ρ : List Place) :
    Drift p (σ ++ ρ) q (τ ++ ρ) := by
  cases h with
  | call hp => exact .call hp
  | guard hp => exact .guard hp
  | fork hp hnext => exact .fork hp hnext
  | back hp => exact .back hp

theorem Proper.append {r : Rule} {σ τ : List Place} (h : Proper r σ)
    (hτ : Proper (base ⟨r, 0⟩ σ).rule τ) : Proper r (σ ++ τ) := by
  induction h with
  | nil => exact hτ
  | @cons _ p _ next _ valid call _ ih =>
    rw [base_cons, rule_base_move p] at hτ
    exact .cons valid call (ih ((rule_base_move p 0 _).symm ▸ hτ))

/-- Where all tokens have been read, a run leads on to what follows its first rule. -/
theorem Accepts.exits {kinds : Array Kind} {root : Rule} {p : Place} {σ τ : List Place} {i : Nat}
    (h : Accepts kinds p σ i) (hsize : kinds.size ≤ i) (hrooted : Rooted root p σ)
    (hroot : root ≠ .compilationUnit) (hτ : Exits ⟨root, 0⟩ τ) : Exits p (σ ++ τ) := by
  induction h with
  | @take q _ _ _ _ hp hk =>
    -- Only a file takes the end of the tokens.
    rw [kindAt_of_size_le hsize] at hk
    have hrule : q.rule = .compilationUnit := (leadsTo_of_endOfFile hrooted.valid hp hk).rule
    have hproper := hrooted.proper
    rw [hrule] at hproper
    obtain rfl := hproper.eq_nil
    exact absurd (hrooted.base_rule.symm.trans hrule) hroot
  | drift hd _ ih => exact .drift (hd.append τ) (ih hsize (hrooted.drift hd))
  | @done q _ hp =>
    have hplace : q = ⟨root, 0⟩ :=
      congr (congrArg Place.mk hrooted.base_rule) (hrooted.valid.offset_of_finish hp)
    rw [List.nil_append]
    exact hplace ▸ hτ

/-- Behind the loop of the operators a rule comes to the operators or to its end. -/
theorem Choice.Onward.of_loop {r : Rule} {o : Nat} (hloop : OperatorLoop r o) {p : Place}
    (h : Choice.Onward ⟨r, o⟩ p) : InLoop r o p ∨ p = ⟨r, o + 4⟩ ∨ p = ⟨r, 0⟩ := by
  induction h with
  | refl =>
    exact .inl ⟨rfl, Place.valid_of_node (by rw [hloop.fork]; nofun), Nat.le_refl _, by simp⟩
  | @step q next _ hnext ih =>
    rcases ih with hin | rfl | rfl
    · have hvalid : (q.move next).Valid := by
        cases hq : java.node q with
        | take ks next' =>
          rw [hq] at hnext
          exact List.mem_singleton.1 hnext ▸ hin.2.1.take hq
        | call r' l next' =>
          rw [hq] at hnext
          exact List.mem_singleton.1 hnext ▸ (hin.2.1.call hq).1
        | guard l next' =>
          rw [hq] at hnext
          exact List.mem_singleton.1 hnext ▸ (hin.2.1.guard hq).valid
        | fork nexts =>
          rw [hq] at hnext
          exact (hin.2.1.fork hq hnext).valid
        | finish =>
          rw [hq] at hnext
          cases hnext
      rcases hloop.inLoop_next hin hnext hvalid with hin | ⟨rfl, rfl⟩
      · exact .inl hin
      · exact .inr (.inl rfl)
    · rw [hloop.leave] at hnext
      rw [List.mem_singleton.1 hnext]
      exact .inr (.inr rfl)
    · rw [node_zero] at hnext
      cases hnext

namespace Choice

variable {C : Choice} {L : Outlook} {limit j : Nat} {s : ConfigSet} {c d : Config} {τ : List Place}

/-- A way from the loop of the operators to what follows a rule has left the rule of the decision. -/
theorem Possible.left_of_exits (hd : C.Possible j d) (hloop : C.AtLoop)
    (hcovers : d.pending.Covers true τ) (hexits : Exits d.place τ)
    (htake : ∃ ks next, java.node d.place = .take ks next) : d.left = true := by
  by_contra hleft
  obtain ⟨π, rest, rfl, hπ⟩ := Stacks.covers_true.1 hcovers
  have hstays := (hd.stays (by simpa using hleft) π hπ).of_loop (operatorLoop hloop)
  obtain ⟨ks, next, hp⟩ := htake
  obtain ⟨hbefore, hσ⟩ := hexits.of_take hp
  cases hlast : π.getLast? with
  | some q =>
    have hbase : base d.place π = q := by rw [base, hlast]; rfl
    have hrule : q.rule = C.place.rule := by
      rw [hbase] at hstays
      rcases hstays with hin | rfl | rfl
      · exact hin.1
      · rfl
      · rfl
    have hnone := hσ q (List.mem_append_left _ (List.mem_of_getLast? hlast))
    rw [hrule, hloop] at hnone
    cases hnone
  | none =>
    have hbase : base d.place π = d.place := by rw [base, hlast]; rfl
    rw [hbase] at hstays
    rcases hstays with hin | heq | heq
    · obtain ⟨hrule, -, hle, -⟩ := hin
      exact absurd (hbefore _ (hrule ▸ hloop)) (Nat.not_lt.2 hle)
    · rw [heq, (operatorLoop hloop).leave] at hp
      cases hp
    · rw [heq, node_zero] at hp
      cases hp

/-- Following all configurations behind the last token, a run that is tracked leads on to what follows its
first rule. -/
theorem Tracks.followAll_exits (h : C.Tracks L.full s j c τ) (hs : s.Every (Config.Fair L.full))
    (hnet : L.net = java) (hfull : L.full = false) (hlevel : L.level = C.level)
    (hlimit : 10000000 ≤ limit) (hlight : s.Every (Config.Light limit)) (hsize : C.kinds.size ≤ j)
    (hroot : C.root ≠ .compilationUnit) :
    ∃ c' τ', (Closure.followAll L limit s).Has true c' τ' ∧ c'.alt = c.alt ∧ c'.Allows C.level ∧
      Exits c'.place τ' ∧ ∃ ks next, java.node c'.place = .take ks next := by
  obtain ⟨k, d, hd, hplace, halt, hdlevel, -, hcovers⟩ := h.has
  rw [hfull] at hcovers
  obtain ⟨π, rest, rfl, hπ⟩ := Stacks.covers_true.1 hcovers
  obtain ⟨σ, hσ, hexits⟩ := exists_exits hroot
  have hG : Sited d.place (π ++ (rest ++ σ)) ∧ Exits d.place (π ++ (rest ++ σ)) := by
    rw [hplace, ← List.append_assoc]
    refine ⟨⟨h.sited.valid, h.sited.proper.append ?_⟩, ?_⟩
    · rw [show (base ⟨_, 0⟩ (π ++ rest)).rule = C.root from (rule_base_move ..).trans h.rooted]
      exact hσ.proper
    · exact h.accepts.exits hsize ⟨h.sited, h.rooted⟩ hroot hexits
  have hprogressive : Progressive { L with guards := false } _ := exits_progressive hnet hfull rfl
  have hempty : Closure.empty.configs.Every (Config.Fair L.full) ∧
      Settled { L with guards := false }
        (fun _ _ p π rest => Sited p (π ++ rest) ∧ Exits p (π ++ rest)) Closure.empty := by
    refine ⟨every_empty, fun c rest _ hmark => ?_⟩
    simp [Closure.empty] at hmark
  have hfound := foldl_follow hprogressive hlimit id (fun _ => ⟨rfl, id⟩) (·.2) s.toList
    (fun x hx => (hs x.1 x.2 (Std.TreeMap.mem_toList_iff_getElem?_eq_some.1 hx)).2) hempty
    (Std.TreeMap.mem_toList_iff_getElem?_eq_some.2 hd) hπ hG ((hlight k d hd).2.burden π hπ)
  obtain ⟨c', -, π', rest', hhas, hcalt, hcallows, ⟨-, hexits'⟩, hstop⟩ := hfound
  rw [Closure.followAll, Std.TreeMap.foldl_eq_foldl_toList]
  refine ⟨c', π' ++ rest', ?_, hcalt.trans halt, fun l hl => ?_, hexits',
    hstop.resolve_right fun hno => ?_⟩
  · have hwild : (!L.full) = true := by rw [hfull]; rfl
    exact hwild ▸ hhas
  · exact hlevel ▸ hcallows (fun l hl => hlevel ▸ h.allows l (hdlevel ▸ hl)) l hl
  · obtain ⟨ret, τ, hnil, -⟩ := hexits'.exists_of_finish hno.1
    rw [hno.2.1, hno.2.2] at hnil
    cases hnil

/-- **Where a run of a rule other than the first has read all tokens, looking ahead has left the rule of
the decision**, unless one alternative is left. -/
theorem Tracks.exists_left (h : C.Tracks L.full s j c τ) (hstop : Stops c τ)
    (hs : s.Every (C.Stopped j)) (hnet : L.net = java) (hfull : L.full = false)
    (hlevel : L.level = C.level) (hlimit : 10000000 ≤ limit) (hclosed : Closed C.kinds)
    (hlight : (s.moved L (kindAt C.kinds j)).Every (Config.Light limit))
    (hlast : j + 1 = C.kinds.size) (hroot : C.root ≠ .compilationUnit) (hloop : C.AtLoop) :
    ∃ (i : Nat) (d : Config), (after L limit s (kindAt C.kinds j))[i]? = some d ∧ d.alt = c.alt ∧
      d.Allows C.level ∧
      ((after L limit s (kindAt C.kinds j)).uniqueAlt? = none → d.left = true) := by
  have hj : j < C.kinds.size := by omega
  have hbehind : behind C.kinds j = C.kinds.size := (if_pos hj).trans hlast
  have hend : kindAt C.kinds j ≠ .endOfFile := fun heq => absurd (hclosed j heq) (Nat.not_le.2 hj)
  have hfair : s.Every (Config.Fair L.full) := hs.mono fun _ hc => hfull ▸ hc.fair
  rcases hstop with ⟨ks, next, hp⟩ | ⟨hp, rfl⟩
  swap
  · exact absurd (h.accepts.size_le hp) (Nat.not_le.2 hj)
  have hmoved := h.moved hfair hnet hp
  rcases followed_cases L limit (s.moved L (kindAt C.kinds j))
    ((ended L s (kindAt C.kinds j)).isEmpty && kindAt C.kinds j != .endOfFile) with
    ⟨heq, hone, a, ha⟩ | heq
  · obtain ⟨k, d, hd, -, halt, hdlevel, -⟩ := hmoved.has
    rw [after_eq_moved heq hone]
    exact ⟨k, d, hd, halt, fun l hl => h.allows l (hdlevel ▸ hl),
      fun hnone => absurd (ha.symm.trans hnone) nofun⟩
  · obtain ⟨c', τ', hhas, halt, hallows, hexits, htake⟩ := hmoved.followAll_exits
      (fair_moved hfair hnet) hnet hfull hlevel hlimit hlight (Nat.le_of_eq hbehind.symm) hroot
    have hafter : (after L limit s (kindAt C.kinds j)).Has (!L.full) c' τ' := by
      refine Has.after ?_
      rw [show kept L (kindAt C.kinds j) _ = _ from if_neg (by simpa using hend), heq, hfull]
      exact hhas
    obtain ⟨i, d, hd, hplace, hdalt, hdlevel, -, hcovers⟩ := hafter
    refine ⟨i, d, hd, hdalt.trans halt, fun l hl => hallows l (hdlevel ▸ hl), fun hnone => ?_⟩
    rw [hfull] at hcovers
    exact (stopped_after hs hnet hfull hclosed (fun _ => hnone) i d hd).2.left_of_exits hloop hcovers
      (hplace ▸ hexits) (hplace ▸ htake)

end Choice

end JavaOutline
