import JavaOutline.Proofs.Prediction.Foresight

/-!
# Decisions lead on

**A decision with lookahead chooses an alternative by which the parse can go on**, if there is one
(`Choice.forecast_good`). In front of the loop of an operator rule the configurations are first
weeded out in favour of one more operator (`ConfigSet.preferOperators`), which loses nothing, since
what a caller could do with the operator its operand can do (`Choice.good_of_inside`).
-/

namespace JavaOutline

open Network Closure ConfigSet

namespace Choice

variable {C : Choice} {L : Outlook} {limit : Nat}

/-! ## One more operator -/

/-- A way of the first alternative, which applies one more operator, in front of the token with which
the operator begins. If its guards allow it, whatever follows it follows the alternative. -/
structure Inside (C : Choice) (c : Config) : Prop where
  inLoop : InLoop C.place.rule C.place.offset c.place
  opening : Opening c.place
  bottom : c.pending = .bottom
  good : c.Allows C.level → ∀ σ, Viable C.kinds C.level C.pos (some 0) c.place σ →
    Viable C.kinds C.level C.pos (some 0) (C.place.move (C.place.offset + 1)) σ

theorem Inside.next {c : Config} (h : C.Inside c)
    (hloop : C.place.rule.body.operatorLoop? = some C.place.offset) {next : Nat}
    (hnext : next ∈ (java.node c.place).nexts) (hvalid : (c.place.move next).Valid) :
    InLoop C.place.rule C.place.offset (c.place.move next) := by
  have ho := operatorLoop hloop
  rcases ho.inLoop_next h.inLoop hnext hvalid with hin | ⟨heq, -⟩
  · exact hin
  · exact absurd (heq ▸ h.opening) ho.not_opening

/-- All ways of the first alternative apply one more operator. -/
def FirstInside (C : Choice) (c : Config) : Prop :=
  c.Fair false ∧ (c.alt = 1 → C.Inside c ∧ ∃ ks next, java.node c.place = .take ks next)

/-- The first alternative goes on by forks and guards up to a token. -/
theorem keeps_inside (hnet : L.net = java) (hfull : L.full = false) (hguards : L.guards = true)
    (hloop : C.place.rule.body.operatorLoop? = some C.place.offset) :
    Keeps L (fun c d => c.Fair false ∧ (c.alt = 1 → d = some 0 ∧ C.Inside c))
      C.FirstInside := by
  have hfair := hfull ▸ keeps_fair hnet
  exact
    { net := hnet
      joins := fun c d hc hd hkey => by
        obtain ⟨hplace, halt, -⟩ := hc.1.key_inj hd.1.toFine hkey
        refine ⟨hfull ▸ (hfull.symm ▸ hc.1 : c.Fair L.full).join (hfull.symm ▸ hd.1), fun ha => ?_⟩
        obtain ⟨hin, htake⟩ := hc.2 ha
        obtain ⟨hin', -⟩ := hd.2 (halt ▸ ha)
        refine ⟨⟨hin.inLoop, hin.opening, ?_, hin.good⟩, htake⟩
        rw [Config.join, hin.bottom, hin'.bottom, hfull]
        rfl
      take := fun {c d ks next} hp hc => ⟨hc.1, fun ha => ⟨(hc.2 ha).2, ks, next, hp⟩⟩
      call := fun {c d r l next} hp hc =>
        ⟨hfair.call (d := d) hp hc.1, fun ha => absurd hp ((hc.2 ha).2.opening.ne_call r l next)⟩
      guard := fun {c d l next} hp hc hok => by
        refine ⟨hfair.guard (d := d) hp hc.1 hok, fun ha => ?_⟩
        cases (hok hguards (hc.2 ha).1).1.symm.trans hfull
      collect := fun {c l next} _ hp hc => by
        refine ⟨hfair.collect hfull hp hc.1, fun ha => ⟨rfl, ?_⟩⟩
        have hin := (hc.2 ha).2
        refine ⟨hin.next hloop (by simp [hp, Node.nexts]) (hc.1.valid.guard hp).valid,
          hin.opening.guard hp, hin.bottom, fun hallows σ h => ?_⟩
        obtain ⟨hle, hle'⟩ := c.collect_le l
        have hcollect := hallows _ rfl
        exact hin.good (fun l' hl' => Nat.le_trans hcollect (hle' l' hl')) σ
          (.guard hp (fun _ => Nat.le_trans hcollect hle) h)
      fork := fun {c d nexts next} hp hnext hc => by
        refine ⟨hfair.fork (d := d) hp hnext hc.1, fun ha => ⟨(hc.2 ha).1, ?_⟩⟩
        have hin := (hc.2 ha).2
        exact ⟨hin.next hloop (by simpa [hp, Node.nexts] using hnext) (hc.1.valid.fork hp hnext).valid,
          hin.opening.fork hp hnext, hin.bottom,
          fun hallows σ h => hin.good hallows σ (.fork hp hnext h)⟩
      finish := fun {c d} hp _ _ hc =>
        ⟨hc.1.bottom, fun ha => absurd hp (hc.2 ha).2.opening.ne_finish⟩
      out := fun {c d ret} hp hbottom _ hret hc =>
        ⟨hfair.out (d := d) hp hbottom hfull hret hc.1,
          fun ha => absurd hp (hc.2 ha).2.opening.ne_finish⟩
      back := fun {c d ret below} hp hmem hc =>
        ⟨hfair.back (d := d) hp hmem hc.1, fun ha => absurd hp (hc.2 ha).2.opening.ne_finish⟩ }

/-- The first alternative begins inside. -/
theorem inside_first (hloop : C.place.rule.body.operatorLoop? = some C.place.offset)
    {nexts : List Nat} (hp : java.node C.place = .fork nexts) {x : Nat × Nat}
    (hfair : (C.first .bottom x).Fair false) (hx : x ∈ nexts.zipIdx 1) (ha : x.2 = 1) :
    C.Inside (C.first .bottom x) := by
  have ho := operatorLoop hloop
  have hfork : java.node C.place = _ := ho.fork
  cases hp.symm.trans hfork
  obtain rfl : x = (C.place.offset + 1, 1) := by
    simp only [List.zipIdx_cons, List.zipIdx_nil, List.mem_cons, List.not_mem_nil, or_false] at hx
    rcases hx with rfl | rfl
    · rfl
    · cases ha
  refine ⟨⟨rfl, hfair.valid, Nat.le_succ _, ?_⟩, ⟨4, ho.opens⟩, rfl, fun _ _ h => h⟩
  dsimp only [first, Place.move]
  omega

variable {s : ConfigSet} {c : Config} {τ : List Place} {i : Nat}

/-- The ways of the first alternative that are allowed. -/
def insides (C : Choice) (s : ConfigSet) : ConfigSet :=
  s.foldl (fun t _ c =>
    if c.alt == 1 && c.allows C.level then add true t { c with level := none } else t) ∅

theorem preferOperators_eq (s : ConfigSet) : s.preferOperators C.level = s.foldl (fun t _ c =>
    if c.alt == 1 then t
    else if !c.outermost &&
        (C.insides s).any (fun _ d => d.place == c.place && d.pending == c.pending) then t
    else add true t c) (C.insides s) :=
  rfl

theorem fair_free (hc : c.Fair false) : ({ c with level := none } : Config).Fair false :=
  { hc with level := nofun }

theorem joins_fair : Joins (Config.Fair false) true := fun _ _ hc hd _ => hc.join hd

/-- All ways that are inside are so without a guard. -/
theorem every_insides (hs : s.Every C.FirstInside) : (C.insides s).Every fun c =>
    c.Fair false ∧ C.Inside c ∧ (∃ ks next, java.node c.place = .take ks next) ∧
      c.Allows C.level := by
  refine hs.foldl (P := fun t : ConfigSet => t.Every _) every_empty fun t _ c ht hc => ?_
  split
  · rename_i hcond
    rw [Bool.and_eq_true, beq_iff_eq, Config.allows_iff] at hcond
    obtain ⟨hin, htake⟩ := hc.2 hcond.1
    refine ht.add (fun c d hc hd hkey => ?_) ⟨fair_free hc.1, ⟨hin.inLoop, hin.opening, hin.bottom,
      fun _ => hin.good hcond.2⟩, htake, nofun⟩
    obtain ⟨hcfair, hcin, hctake, hcallows⟩ := hc
    refine ⟨hcfair.join hd.1, ⟨hcin.inLoop, hcin.opening, ?_, hcin.good⟩, hctake, hcallows⟩
    rw [Config.join, hcin.bottom, hd.2.1.bottom]
    rfl
  · exact ht

theorem has_insides (hs : s.Every C.FirstInside) (hc : s[i]? = some c) (halt : c.alt = 1)
    (hallows : c.Allows C.level) (hcovers : c.pending.Covers true τ) :
    (C.insides s).Has true { c with level := none } τ := by
  rw [insides, Std.TreeMap.foldl_eq_foldl_toList]
  refine foldl_of_mem (P := fun t : ConfigSet => t.Has true { c with level := none } τ)
    (Q := fun t : ConfigSet => t.Every (Config.Fair false)) (fun t x hx ht => ?_)
    (Std.TreeMap.mem_toList_iff_getElem?_eq_some.2 hc) (fun t ht => ?_) (fun t x _ _ ht => ?_)
    every_empty
  · have hx := (hs x.1 x.2 (Std.TreeMap.mem_toList_iff_getElem?_eq_some.1 hx)).2
    split
    · exact ht.add joins_fair (fair_free hx.1)
    · exact ht
  · dsimp only
    rw [if_pos (by rw [Bool.and_eq_true, beq_iff_eq, Config.allows_iff]; exact ⟨halt, hallows⟩)]
    exact has_add (ht.mono fun _ h => h.toFine) (fair_free (hs i c hc).2.1).toFine hcovers
  · split
    · exact ht.add
    · exact ht

theorem fair_preferOperators (hs : s.Every C.FirstInside) :
    (s.preferOperators C.level).Every (Config.Fair false) := by
  rw [preferOperators_eq]
  refine hs.foldl (P := fun t : ConfigSet => t.Every _) ((every_insides hs).mono fun _ h => h.1)
    fun t _ c ht hc => ?_
  split
  · exact ht
  · split
    · exact ht
    · exact ht.add joins_fair hc.1

theorem has_preferOperators_of_insides (h : (C.insides s).Has true c τ) :
    (s.preferOperators C.level).Has true c τ := by
  rw [preferOperators_eq, Std.TreeMap.foldl_eq_foldl_toList]
  refine List.foldlRecOn (motive := fun t : ConfigSet => t.Has true c τ) _ _ h fun t ht x _ => ?_
  split
  · exact ht
  · split
    · exact ht
    · exact ht.add

/-- A way of another alternative is kept, unless one that is inside comes to the same place. -/
theorem has_preferOperators (hs : s.Every C.FirstInside) (hc : s[i]? = some c) (halt : c.alt ≠ 1)
    (hcovers : c.pending.Covers true τ) :
    (s.preferOperators C.level).Has true c τ ∨ c.outermost = false ∧
      ∃ (j : Nat) (d : Config), (C.insides s)[j]? = some d ∧ d.place = c.place := by
  by_cases hdrop : (!c.outermost && (C.insides s).any fun _ d =>
      d.place == c.place && d.pending == c.pending) = true
  · rw [Bool.and_eq_true, Bool.not_eq_true', any_iff] at hdrop
    obtain ⟨hout, j, d, hd, heq⟩ := hdrop
    rw [Bool.and_eq_true, beq_iff_eq] at heq
    exact .inr ⟨hout, j, d, hd, heq.1⟩
  · left
    rw [preferOperators_eq, Std.TreeMap.foldl_eq_foldl_toList]
    refine foldl_of_mem (P := fun t : ConfigSet => t.Has true c τ)
      (Q := fun t : ConfigSet => t.Every (Config.Fair false)) (fun t x hx ht => ?_)
      (Std.TreeMap.mem_toList_iff_getElem?_eq_some.2 hc) (fun t ht => ?_) (fun t x _ _ ht => ?_)
      ((every_insides hs).mono fun _ h => h.1)
    · have hx := (hs x.1 x.2 (Std.TreeMap.mem_toList_iff_getElem?_eq_some.1 hx)).2
      split
      · exact ht
      · split
        · exact ht
        · exact ht.add joins_fair hx.1
    · dsimp only
      rw [if_neg (by simpa using halt), if_neg hdrop]
      exact has_add (ht.mono fun _ h => h.toFine) (hs i c hc).2.1.toFine hcovers
    · split
      · exact ht
      · split
        · exact ht
        · exact ht.add

/-- An operator may be applied inside all operands that end here. -/
theorem accepts_inside {r : Rule} {o : Nat} (hloop : OperatorLoop r o) {p : Place}
    (hin : InLoop r o p) {rest : List Place} {j : Nat} (h : Accepts C.kinds p rest j)
    {ρ : List Place} (hρ : ∀ ret ∈ ρ, LeadsTo ⟨r, o⟩ ret) (hsited : Sited p (ρ ++ rest)) :
    Accepts C.kinds p (ρ ++ rest) j := by
  induction ρ with
  | nil => exact h
  | cons ret ρ ih =>
    obtain ⟨hret, hρ⟩ := List.forall_mem_cons.1 hρ
    have hback : Sited p (ρ ++ rest) := by
      refine ⟨hsited.valid, ?_⟩
      rw [hin.1, ← show ret.rule = r from hret.rule]
      exact hsited.back.proper
    exact (ih hρ hback).inside_operand hloop hret hback hin

section
variable (hloop : C.place.rule.body.operatorLoop? = some C.place.offset) (hfull : L.full = false)
  (hlevel : L.level = C.level) (hs : s.Every C.FirstInside)

/-- The callers of a way are few. -/
theorem length_le_of_has {loop : Option Nat} {full : Bool} {c : Config} {d : Option Nat}
    {π rest : List Place} (h : (C.trace loop).Has full d c.outermost c.place π rest) :
    (π ++ rest).length ≤ C.callers.length + spanLimit := by
  have hrise := c.place.length_add_le_rise (π ++ rest)
  exact Nat.le_trans (Nat.le_trans (Nat.le_add_left _ _) hrise) h.rise

include hfull hlevel hs in
/-- A run that applies one more operator is kept. -/
theorem exists_tracks_inside (hgood : C.Good 1)
    (hfound : Found L ((C.trace (some C.place.offset)).Has L.full) s 1 True) :
    ∃ c τ, C.Tracks L.full (s.preferOperators C.level) C.pos c τ ∧ Stops c τ ∧
      τ.length ≤ C.callers.length + spanLimit ∧ c.alt = 1 := by
  rw [hfull] at hfound ⊢
  obtain ⟨c, d, π, rest, hhas, halt, hallows, hG, hstop⟩ := hfound
  rw [hfull] at hhas
  obtain ⟨k, e, he, hplace, healt, helevel, hout, hcovers⟩ := hhas
  have heallows : e.Allows C.level := fun l hl => hlevel ▸ hallows trivial l (helevel ▸ hl)
  have hin := has_insides hs he (healt.trans halt) heallows hcovers
  refine ⟨{ c with level := none }, π ++ rest, ?_, hstop.imp_right fun h => ?_, length_le_of_has hG,
    halt⟩
  · exact
      { has := (has_preferOperators_of_insides hin).congr hplace.symm healt.symm rfl hout
        allows := nofun
        sited := hG.sited
        rooted := hG.rooted
        accepts := hG.viable.accepts
        good := halt ▸ hgood }
  · exact ⟨h.1, by rw [h.2.1, h.2.2]; rfl⟩

include hloop hs in
/-- A way that leaves the rule and comes to a place inside has only ended operands, so one more
operator may be applied as well: inside these operands. -/
theorem good_of_inside (hsited : Sited C.place C.callers) {c f : Config} {d : Option Nat}
    {π rest : List Place} {j : Nat}
    (hG : (C.trace (some C.place.offset)).Has false d c.outermost c.place π rest)
    (hout : c.outermost = false) (hf : (C.insides s)[j]? = some f) (hplace : f.place = c.place) :
    C.Good 1 := by
  have hstays := hG.stays rfl C.place.offset rfl hout
  obtain ⟨ρ, hρ, hall⟩ := hstays.operands
  obtain ⟨-, hin, ⟨ks, next, hp⟩, hfallows⟩ := (every_insides hs j f hf).2
  have haccepts : Accepts C.kinds f.place rest C.pos := by
    have h : Accepts C.kinds c.place (π ++ rest) C.pos := hG.viable.accepts
    rw [hstays.known] at h
    exact hplace ▸ h
  have hfsited : Sited f.place C.callers := by
    refine ⟨hplace ▸ hG.sited.valid, ?_⟩
    rw [hin.inLoop.1]
    exact hsited.proper
  have hcallers : C.callers = ρ ++ rest := hρ
  have hinside : Accepts C.kinds f.place C.callers C.pos := by
    rw [hcallers]
    exact accepts_inside (operatorLoop hloop) hin.inLoop haccepts hall (hcallers ▸ hfsited)
  obtain ⟨hk, hnext⟩ := hinside.of_take hp
  exact ⟨_, _, (operatorLoop hloop).fork, by simp [List.zipIdx],
    hin.good hfallows C.callers (.take hp hk hnext)⟩

include hloop hfull hlevel hs in
/-- **Preferring operators loses no run**: where a way that leaves the rule is dropped, one more
operator may be applied as well. -/
theorem exists_tracks_preferOperators (hsited : Sited C.place C.callers)
    (hfound : ∀ a, C.Good a → Found L ((C.trace (some C.place.offset)).Has L.full) s a True)
    {a : Nat} (hgood : C.Good a) :
    ∃ c τ, C.Tracks L.full (s.preferOperators C.level) C.pos c τ ∧ Stops c τ ∧
      τ.length ≤ C.callers.length + spanLimit := by
  have hinside (hgood : C.Good 1) : ∃ c τ, C.Tracks L.full (s.preferOperators C.level) C.pos c τ ∧
      Stops c τ ∧ τ.length ≤ C.callers.length + spanLimit := by
    obtain ⟨c, τ, htracks, hstops, hle, -⟩ :=
      exists_tracks_inside hfull hlevel hs hgood (hfound 1 hgood)
    exact ⟨c, τ, htracks, hstops, hle⟩
  by_cases ha : a = 1
  · subst ha
    exact hinside hgood
  · obtain ⟨c, d, π, rest, hhas, rfl, hallows, hG, hstop⟩ := hfound a hgood
    rw [hfull] at hhas
    obtain ⟨k, e, he, hplace, healt, helevel, hout, hcovers⟩ := hhas
    rcases has_preferOperators hs he (healt ▸ ha) hcovers with hkept | ⟨hno, j, f, hf, hfplace⟩
    · refine ⟨c, π ++ rest, ?_, hstop.imp_right fun h => ?_, length_le_of_has hG⟩
      · rw [hfull]
        exact
          { has := hkept.congr hplace.symm healt.symm helevel.symm hout
            allows := hlevel ▸ hallows trivial
            sited := hG.sited
            rooted := hG.rooted
            accepts := hG.viable.accepts
            good := hgood }
      · exact ⟨h.1, by rw [h.2.1, h.2.2]; rfl⟩
    · have hcout : c.outermost = false := by
        cases hc : c.outermost with
        | false => rfl
        | true =>
          rw [hout hc] at hno
          cases hno
      rw [hfull] at hG
      exact hinside (good_of_inside hloop hs hsited hG hcout hf (hfplace.trans hplace))

end

/-! ## The decision -/

theorem proper_valid {r : Rule} {σ : List Place} (h : Proper r σ) : ∀ q ∈ σ, q.Valid := by
  induction h with
  | nil => nofun
  | cons valid call _ ih => exact List.forall_mem_cons.2 ⟨(valid.call call).1, ih⟩

theorem suits_trace {loop : Option Nat} (hnet : L.net = java) (hlevel : L.level = C.level)
    (hnested : loop = none → Nested C.place.rule C.level C.callers)
    (hloop : ∀ l, loop = some l → C.place.rule.body.operatorLoop? = some l ∧
      (L.full = false → L.loop = some C.place.rule))
    (hends : L.full = false → C.root = .compilationUnit ∨ C.pos < C.kinds.size) :
    (C.trace loop).Suits L where
  net := hnet
  level _ := hlevel
  nested := hnested
  loop := hloop
  ends := hends
  region _ _ _ := trivial

/-- The decision is whether to apply one more operator. -/
def AtLoop (C : Choice) : Prop := C.place.rule.body.operatorLoop? = some C.place.offset

/-- The circumstances in which the decision is made with known callers. -/
def known (C : Choice) : Outlook := ⟨java, true, true, C.level, none⟩

/-- The circumstances in which it is made with unknown callers, at the loop of the operators of a rule
or elsewhere. -/
def unknown (C : Choice) (loop : Option Rule) : Outlook := ⟨java, false, true, C.level, loop⟩

/-- The number of tokens that may be looked at. -/
def tokens (C : Choice) : Nat := C.kinds.size + 2 - C.pos

/-- The bound on the ways without a token. -/
def wayBound (C : Choice) : Nat := wayLimit C.callers.length C.tokens

/-- Looking ahead with known callers. -/
def full (C : Choice) (overrun : Bool) : Forecast :=
  let first := firstConfigs C.known C.wayBound C.place (.ofList C.callers)
  forecastFull C.known C.wayBound C.kinds C.tokens C.pos first.configs (overrun || first.overrun)

/-- At the loop of the operators the decision begins with configurations that prefer operators. -/
theorem forecast_of_atLoop (hloop : C.AtLoop) :
    let first := firstConfigs (C.unknown (some C.place.rule)) C.wayBound C.place .bottom
    forecast java C.kinds C.callers C.level C.place C.pos =
      forecastLocal (C.unknown (some C.place.rule)) C.wayBound C.kinds C.pos C.full C.tokens C.pos
        (first.configs.preferOperators C.level) first.overrun := by
  unfold forecast
  dsimp only
  rw [java_operatorLoop?, if_pos (beq_iff_eq.2 hloop), if_pos (beq_iff_eq.2 hloop)]
  rfl

theorem forecast_of_not_atLoop (hloop : ¬C.AtLoop) :
    let first := firstConfigs (C.unknown none) C.wayBound C.place .bottom
    forecast java C.kinds C.callers C.level C.place C.pos =
      forecastLocal (C.unknown none) C.wayBound C.kinds C.pos C.full C.tokens C.pos first.configs
        first.overrun := by
  unfold forecast
  dsimp only
  rw [java_operatorLoop?, if_neg (fun h => hloop (beq_iff_eq.1 h)),
    if_neg (fun h => hloop (beq_iff_eq.1 h))]
  rfl

/-- The bounds of looking ahead are wide enough. -/
theorem room_wayBound (hpos : C.pos ≤ C.kinds.size) {τ : List Place}
    (hτ : τ.length ≤ C.callers.length + spanLimit) :
    C.Room C.wayBound C.pos τ := by
  unfold Room wayBound tokens wayLimit spanLimit at *
  omega

theorem le_tokens (C : Choice) : C.kinds.size + 1 ≤ C.pos + C.tokens := by
  unfold tokens
  omega

theorem Good.pos {a : Nat} (h : C.Good a) : 1 ≤ a := by
  obtain ⟨nexts, next, -, hx, -⟩ := h
  exact (List.mem_zipIdx hx).1

section
variable (hsited : Sited C.place C.callers)

include hsited

theorem all_valid_callers : (Stacks.ofList C.callers).All Place.Valid :=
  Stacks.all_ofList (proper_valid hsited.proper)

/-- With known callers the runs of a good alternative are found where they stop. -/
theorem tracks_known (hnested : C.AtLoop ∨ Nested C.place.rule C.level C.callers)
    (hlimit : 10000000 ≤ limit) (hlength : spanLimit * (C.callers.length + 1) ≤ limit) {a : Nat}
    (ha : C.Good a) :
    ∃ c τ, C.Tracks true (firstConfigs ⟨java, true, true, C.level, none⟩ limit C.place
      (.ofList C.callers)).configs C.pos c τ ∧ Stops c τ ∧
      τ.length ≤ C.callers.length + spanLimit ∧ c.alt = a := by
  have hgood := ha
  obtain ⟨nexts, next, hp, hx, hviable⟩ := ha
  have hpure : true = false → (Stacks.ofList C.callers).Pure := nofun
  obtain ⟨loop, hloop, hnest⟩ : ∃ loop : Option Nat, (∀ l, loop = some l → C.AtLoop ∧
      l = C.place.offset) ∧ (loop = none → Nested C.place.rule C.level C.callers) := by
    rcases hnested with hloop | hnested
    · exact ⟨some C.place.offset, fun l hl => ⟨hloop, (Option.some.inj hl).symm⟩, nofun⟩
    · exact ⟨none, nofun, fun _ => hnested⟩
  have hsuits : (C.trace loop).Suits ⟨java, true, true, C.level, none⟩ :=
    suits_trace rfl rfl hnest (fun l hl => ⟨(hloop l hl).2 ▸ (hloop l hl).1, nofun⟩) nofun
  have hhas : (C.trace loop).Has true (some 0) false (C.place.move next) C.callers [] :=
    has_trace hsited hloop hp (List.fst_mem_of_mem_zipIdx hx) hviable (List.append_nil _).symm
      (fun _ => rfl) nofun
  have hfound := found_firstConfigs hsuits hlimit hsited.valid hp (all_valid_callers hsited) hpure hx
    ((Stacks.covers_ofList _).2 rfl) hhas hlength
  obtain ⟨c, τ, htracks, hstops, hle, -, halt⟩ := exists_tracks hfound trivial hgood rfl rfl rfl
  exact ⟨c, τ, htracks, hstops, hle, halt⟩

/-- With known callers every configuration at the beginning belongs to a run. -/
theorem sound_known {nexts : List Nat} (hp : java.node C.place = .fork nexts) (limit : Nat) :
    (firstConfigs ⟨java, true, true, C.level, none⟩ limit C.place
      (.ofList C.callers)).configs.Every (C.Sound C.pos True) := by
  have hkeeps : Keeps ⟨java, true, true, C.level, none⟩ (C.Going C.level C.pos)
    (C.Sound C.pos True) := keeps_sound rfl rfl (.inr ⟨rfl, rfl⟩)
  refine every_firstConfigs hkeeps hp limit (.ofList C.callers) fun x hx => ?_
  have hknown : true = false → (Stacks.ofList C.callers).Pure := nofun
  have hfair : (C.first (.ofList C.callers) x).Fair true :=
    fair_first hsited.valid hp (all_valid_callers hsited) hknown hx
  refine ⟨hfair, rfl, fun τ hτ => ?_, fun τ hτ h => ?_⟩
  · rw [(Stacks.covers_ofList _).1 hτ]
    exact (Stems.origin hsited).drift (.fork hp (List.fst_mem_of_mem_zipIdx hx))
  · rw [(Stacks.covers_ofList _).1 hτ] at h
    exact ⟨nexts, x.1, hp, hx, h⟩

end

section
variable (hsited : Sited C.place C.callers) (hnested : Nested C.place.rule C.level C.callers)
  (hpos : C.pos ≤ C.kinds.size)

include hsited hnested hpos

/-- With known callers looking ahead from the beginning chooses a good alternative, and none behind
one that is known to be good if the end of the file is not taken. -/
theorem full_good (hclosed : Closed C.kinds) {a : Nat} (hgood : C.Good a) (overrun : Bool) :
    ∃ b, (C.full overrun).verdict = .take b ∧ C.Good b ∧ (C.Shut → b ≤ a) := by
  have hroom := room_wayBound (C := C) hpos (τ := C.callers) (Nat.le_add_right _ _)
  obtain ⟨c, τ, htracks, hstops, hle, rfl⟩ :=
    tracks_known hsited (.inr hnested) hroom.1 hroom.length hgood
  obtain ⟨nexts, next, hp, -⟩ := hgood
  exact forecastFull_good (L := C.known) rfl rfl rfl hclosed _ _ _ _ htracks hstops
    ((sound_known hsited hp C.wayBound).mono fun _ h => h.mono fun _ => trivial)
    (room_wayBound hpos hle) C.le_tokens

omit hnested hpos in
/-- With unknown callers the runs of a good alternative are found where they stop. -/
theorem found_local (hends : C.root = .compilationUnit ∨ C.pos < C.kinds.size)
    (hlimit : 10000000 ≤ limit) {rule loop : Option _}
    (hloop : ∀ l, loop = some l → C.place.rule.body.operatorLoop? = some l ∧
      rule = some C.place.rule ∧ l = C.place.offset)
    (hnested : loop = none → Nested C.place.rule C.level C.callers) {a : Nat} (ha : C.Good a) :
    Found (C.unknown rule) ((C.trace loop).Has false)
      (firstConfigs (C.unknown rule) limit C.place .bottom).configs a True := by
  obtain ⟨nexts, next, hp, hx, hviable⟩ := ha
  have hall : Stacks.bottom.All Place.Valid := trivial
  have hsuits : (C.trace loop).Suits (C.unknown rule) :=
    suits_trace rfl rfl hnested (fun l hl => ⟨(hloop l hl).1, fun _ => (hloop l hl).2.1⟩)
      fun _ => hends
  have hhas : (C.trace loop).Has false (some 0) false (C.place.move next) [] C.callers :=
    has_trace hsited (fun l hl => ⟨(hloop l hl).2.2 ▸ (hloop l hl).1, (hloop l hl).2.2⟩) hp
      (List.fst_mem_of_mem_zipIdx hx) hviable rfl nofun fun _ _ => rfl
  have hpure : false = false → Stacks.bottom.Pure := fun _ => trivial
  exact found_firstConfigs hsuits hlimit hsited.valid hp hall hpure hx (.inr rfl) hhas
    (Nat.le_trans (by decide) hlimit)

omit hnested hpos in
/-- So they are at the loop of the operators, whatever the levels. -/
theorem found_atLoop (hends : C.root = .compilationUnit ∨ C.pos < C.kinds.size)
    (hlimit : 10000000 ≤ limit) (hloop : C.AtLoop) {a : Nat} (ha : C.Good a) :
    Found (C.unknown (some C.place.rule)) ((C.trace (some C.place.offset)).Has false)
      (firstConfigs (C.unknown (some C.place.rule)) limit C.place .bottom).configs a True := by
  refine found_local hsited hends hlimit (fun l hl => ?_) (fun hno => ?_) ha
  · exact Option.some.inj hl ▸ ⟨hloop, rfl, rfl⟩
  · cases hno

omit hnested hpos in
/-- The first alternative at the loop of the operators applies one more operator. -/
theorem firstInside (hloop : C.AtLoop) {nexts : List Nat} (hp : java.node C.place = .fork nexts)
    (limit : Nat) :
    (firstConfigs (C.unknown (some C.place.rule)) limit C.place .bottom).configs.Every
      C.FirstInside := by
  have hkeeps : Keeps (C.unknown (some C.place.rule)) _ _ := keeps_inside rfl rfl rfl hloop
  refine every_firstConfigs hkeeps hp _ _ fun x hx => ?_
  have hall : Stacks.bottom.All Place.Valid := trivial
  have hpure : false = false → Stacks.bottom.Pure := fun _ => trivial
  have hfair : (C.first .bottom x).Fair false := fair_first hsited.valid hp hall hpure hx
  exact ⟨hfair, fun ha => ⟨rfl, inside_first hloop hp hfair hx ha⟩⟩

/-- **Looking ahead chooses an alternative that leads to the end of the parse**, if there is one. -/
theorem forecast_good (hroot : C.root = .compilationUnit) (hclosed : Closed C.kinds) {a : Nat}
    (hgood : C.Good a) :
    ∃ b, (forecast java C.kinds C.callers C.level C.place C.pos).verdict = .take b ∧ C.Good b := by
  obtain ⟨nexts, hp⟩ : ∃ nexts, java.node C.place = .fork nexts := by
    obtain ⟨nexts, next, hp, -⟩ := hgood
    exact ⟨nexts, hp⟩
  have hfull (overrun : Bool) : ∃ b, (C.full overrun).verdict = .take b ∧ C.Good b := by
    obtain ⟨b, hverdict, hb, -⟩ := full_good hsited hnested hpos hclosed hgood overrun
    exact ⟨b, hverdict, hb⟩
  have hlimit := (room_wayBound (C := C) hpos (τ := C.callers) (Nat.le_add_right _ _)).1
  by_cases hloop : C.AtLoop
  · rw [forecast_of_atLoop hloop]
    have hfirst := firstInside hsited hloop hp C.wayBound
    obtain ⟨c, τ, htracks, hstops, hle⟩ := exists_tracks_preferOperators
      (L := C.unknown (some C.place.rule)) hloop rfl rfl hfirst hsited
      (fun _ => found_atLoop hsited (.inl hroot) hlimit hloop) hgood
    exact forecastLocal_tracked (L := C.unknown (some C.place.rule)) rfl rfl rfl hclosed _ _ hfull _ _
      _ _ htracks htracks.good hstops (fair_preferOperators hfirst) (room_wayBound hpos hle) hroot
      C.le_tokens
  · rw [forecast_of_not_atLoop hloop]
    have hfound : Found (C.unknown none) ((C.trace none).Has false)
        (firstConfigs (C.unknown none) C.wayBound C.place .bottom).configs a True :=
      found_local hsited (.inl hroot) hlimit (by rintro _ ⟨⟩) (fun _ => hnested) hgood
    obtain ⟨c, τ, htracks, hstops, hle, -⟩ := exists_tracks hfound trivial hgood rfl rfl rfl
    have hkeeps : Keeps (C.unknown none) _ _ := keeps_fair rfl
    have hall : Stacks.bottom.All Place.Valid := trivial
    have hpure : false = false → Stacks.bottom.Pure := fun _ => trivial
    exact forecastLocal_tracked (L := C.unknown none) rfl rfl rfl hclosed _ _ hfull _ _ _ _ htracks
      htracks.good hstops
      (every_firstConfigs hkeeps hp _ _ fun x hx => fair_first hsited.valid hp hall hpure hx)
      (room_wayBound hpos hle) hroot C.le_tokens

end

end Choice

end JavaOutline
