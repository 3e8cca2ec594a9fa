import JavaOutline.Proofs.Prediction.Rounds

/-!
# Looking ahead over many tokens

By induction over the tokens: if an alternative goes on to the end of the file, looking ahead finds
one that does (`Choice.forecastFull_good`, `Choice.forecastLocal_tracked`), within the bounds on the
tokens and on the ways (`Choice.Room`).
-/

namespace JavaOutline

open Network Closure ConfigSet

/-- No token before the end of the file is the end of the file. -/
def Closed (kinds : Array Kind) : Prop := ∀ i, kindAt kinds i = .endOfFile → kinds.size ≤ i

theorem Closed.behind_eq {kinds : Array Kind} (h : Closed kinds) (j : Nat) :
    (if kindAt kinds j == .endOfFile then j else j + 1) = behind kinds j := by
  unfold behind
  split
  · rename_i hk
    rw [if_neg (Nat.not_lt.2 (h j (beq_iff_eq.1 hk)))]
  · rename_i hk
    rw [if_pos]
    refine Nat.lt_of_not_le fun hle => hk ?_
    rw [kindAt_of_size_le hle]
    rfl

namespace Choice

variable {C : Choice} {L : Outlook} {limit : Nat}

/-! ## Looking ahead with known callers -/

/-- There is room for all ways back that can be needed up to the end of the file. -/
def Room (C : Choice) (limit j : Nat) (τ : List Place) : Prop :=
  10000000 ≤ limit ∧ j ≤ C.kinds.size ∧
    spanLimit * (τ.length + spanLimit * (C.kinds.size + 1 - j) + 1) ≤ limit

theorem Room.length {j : Nat} {τ : List Place} (h : C.Room limit j τ) :
    spanLimit * (τ.length + 1) ≤ limit := by
  obtain ⟨-, -, h⟩ := h
  unfold spanLimit at *
  omega

theorem Room.next {j : Nat} {τ τ' : List Place} (h : C.Room limit j τ) (hj : j < C.kinds.size)
    (hle : τ'.length ≤ τ.length + spanLimit) : C.Room limit (behind C.kinds j) τ' := by
  obtain ⟨hlimit, -, h⟩ := h
  have hbehind : behind C.kinds j = j + 1 := if_pos hj
  rw [hbehind]
  unfold Room spanLimit at *
  omega

/-- At the end of the file one alternative is left. -/
theorem exists_resolved {s : ConfigSet} {j : Nat} {c : Config} {τ : List Place}
    (h : C.Tracks true s j c τ) (hsound : s.Every (C.Sound j (java.node c.place = .finish)))
    (hfinished : ∀ (i : Nat) (d : Config), s[i]? = some d → java.node d.place = .finish) :
    ∃ a, s.resolved? = some a := by
  obtain ⟨i, d, hd, -⟩ := h.has
  refine resolved?_isSome ⟨C.root, 0⟩ .bottom hd fun k e he => ?_
  have hesound := (hsound k e he).2
  have hbottom := hesound.ended (hfinished k e he)
  have hrooted := hesound.sited [] (by rw [hbottom]; exact .inr rfl)
  have hoffset := hrooted.valid.offset_of_finish (hfinished k e he)
  exact ⟨congr (congrArg Place.mk hrooted.base_rule) hoffset, hbottom⟩

/-- The alternative that is left where alternatives share places and stacks is good. -/
theorem good_of_resolved {s : ConfigSet} {j a : Nat} {c : Config} {τ : List Place}
    (h : C.Tracks true s j c τ) (hsound : s.Every (C.Sound j (java.node c.place = .finish)))
    (ha : s.resolved? = some a) : C.Good a := by
  obtain ⟨i, d, hd, hplace, -, -, -, hcovers⟩ := h.has
  obtain ⟨-, k, e, he, rfl, heplace, hepending⟩ := exists_of_resolved? ha hd
  have heq := heplace.trans hplace
  exact (hsound k e he).2.good (fun hp => heq ▸ hp) τ (hepending ▸ hcovers) (heq ▸ h.accepts)

theorem good_of_unique {full : Bool} {s : ConfigSet} {j a : Nat} {c : Config} {τ : List Place}
    (h : C.Tracks full s j c τ) (ha : s.uniqueAlt? = some a) : C.Good a := by
  obtain ⟨i, d, hd, -, halt, -⟩ := h.has
  rw [← alt_eq_of_uniqueAlt? ha hd, halt]
  exact h.good

/-- **With known callers a good alternative is chosen**, and none behind one that is known to be
good, unless the end of the file has been taken by another run. -/
theorem forecastFull_good (hnet : L.net = java) (hfull : L.full = true) (hlevel : L.level = C.level)
    (hclosed : Closed C.kinds) (n j : Nat) (s : ConfigSet) (overrun : Bool) {c : Config}
    {τ : List Place} (h : C.Tracks L.full s j c τ) (hstop : Stops c τ)
    (hsound : s.Every (C.Sound j (java.node c.place = .finish))) (hroom : C.Room limit j τ)
    (hn : C.kinds.size + 1 ≤ j + n) :
    ∃ a, (forecastFull L limit C.kinds n j s overrun).verdict = .take a ∧ C.Good a ∧
      (C.Shut → a ≤ c.alt) := by
  induction n generalizing j s overrun c τ with
  | zero =>
    have hj := hroom.2.1
    omega
  | succ n ih =>
    obtain ⟨c', τ', hround, hle, halt⟩ :=
      h.full_round hsound hnet hfull hstop hlevel hroom.1 hroom.length
    have hfair : s.Every (Config.Fair L.full) := hsound.mono fun _ hc => hfull ▸ hc.fair
    have hfinished : C.kinds.size ≤ j → ∀ (i : Nat) (d : Config),
        (after L limit s (kindAt C.kinds j))[i]? = some d → java.node d.place = .finish := by
      intro hsize i d hd
      rw [kindAt_of_size_le hsize] at hd
      exact (finished_iff hnet).1 (finished_after hfair hnet i d hd).2
    unfold forecastFull
    dsimp only
    rw [step_eq, isEmpty_eq_false hround.tracks.has, hclosed.behind_eq]
    generalize after L limit s (kindAt C.kinds j) = t at *
    rw [if_neg Bool.false_ne_true]
    dsimp only
    have hhas := hround.tracks.has
    obtain ⟨i, d, hd, -, hdalt, -⟩ := hhas
    split
    · rename_i a ha
      refine ⟨a, rfl, good_of_unique hround.tracks ha, fun hshut => ?_⟩
      rw [← alt_eq_of_uniqueAlt? ha hd, hdalt, halt hshut]
    · rename_i hnone
      have hsound' := hround.sound hnone
      split
      · rename_i a ha
        refine ⟨a, rfl, good_of_resolved hround.tracks hsound' ha, fun hshut => ?_⟩
        rw [← halt hshut, ← hdalt]
        exact (exists_of_resolved? ha hd).1
      · rename_i hunresolved
        have hj : j < C.kinds.size := by
          refine Nat.lt_of_not_le fun hsize => ?_
          obtain ⟨a, ha⟩ := exists_resolved hround.tracks hsound' (hfinished hsize)
          rw [ha] at hunresolved
          cases hunresolved
        have hbehind : behind C.kinds j = j + 1 := if_pos hj
        obtain ⟨a, hverdict, hgood, hleast⟩ := ih (behind C.kinds j) t _ (hfull ▸ hround.tracks)
          (hround.stops hnone) hsound' (hroom.next hj hle) (by omega)
        exact ⟨a, hverdict, hgood, fun hshut => halt hshut ▸ hleast hshut⟩

/-! ## Looking ahead with unknown callers -/

/-- One round with unknown callers: if an alternative is still there behind the token and its guards
allow it, an alternative as good is chosen, or looking ahead goes on, with known callers or with the
next token. -/
theorem forecastLocal_round {kinds : Array Kind} (start : Nat) (full : Bool → Forecast)
    {P : Nat → Prop} (hfull : ∀ overrun, ∃ a, (full overrun).verdict = .take a ∧ P a) (n j : Nat)
    (s : ConfigSet) (overrun : Bool) {i : Nat} {d : Config}
    (hd : (after L limit s (kindAt kinds j))[i]? = some d) (hallows : d.Allows L.level)
    (hP : P d.alt)
    (hnext : (after L limit s (kindAt kinds j)).uniqueAlt? = none →
      conflicts L.net (after L limit s (kindAt kinds j)) = false → ∀ overrun,
      ∃ a, (forecastLocal L limit kinds start full n
        (if kindAt kinds j == .endOfFile then j else j + 1) (after L limit s (kindAt kinds j))
        overrun).verdict = .take a ∧ P a) :
    ∃ a, (forecastLocal L limit kinds start full (n + 1) j s overrun).verdict = .take a ∧ P a := by
  have hne : (after L limit s (kindAt kinds j)).isEmpty = false := by
    refine Std.TreeMap.isEmpty_eq_false_of_contains (Std.TreeMap.contains_iff_mem.2 ?_) (a := i)
    rw [← Std.TreeMap.isSome_getElem?_iff_mem, hd]
    rfl
  unfold forecastLocal
  dsimp only
  rw [step_eq, hne]
  generalize after L limit s (kindAt kinds j) = t at *
  rw [if_neg Bool.false_ne_true]
  dsimp only
  split
  · rename_i a ha
    obtain rfl := alt_eq_of_uniqueAlt? ha hd
    split
    · rename_i hguarded
      have hmem := mem_guarded? hd hallows (List.mem_singleton_self _) hguarded
      cases hmem
    · exact ⟨d.alt, rfl, hP⟩
  · rename_i hnone
    split
    · split
      · rename_i a hguarded
        obtain ⟨as, has, hmem, -⟩ := exists_mem_rivals hd
        have hmem := mem_guarded? hd hallows
          (List.mem_eraseDups.2 (List.mem_flatten.2 ⟨as, has, hmem⟩)) hguarded
        exact ⟨a, rfl, List.mem_singleton.1 hmem ▸ hP⟩
      · exact hfull _
    · rename_i hconflicts
      exact hnext hnone (by simpa using hconflicts) _

/-- At the end of the file the alternatives cannot be told apart without knowing the callers. -/
theorem conflicts_endOfFile {s : ConfigSet} (hs : s.Every (Config.Fair L.full)) (hnet : L.net = java)
    (limit : Nat) : conflicts L.net (after L limit s .endOfFile) = true := by
  rw [conflicts, Bool.or_eq_true]
  exact .inl (all_eq_true_of fun i d hd => (finished_after hs hnet i d hd).2)

/-- **With unknown callers an alternative by which a run goes on is chosen**, or what is chosen with
known callers. -/
theorem forecastLocal_tracked (hnet : L.net = java) (hunknown : L.full = false)
    (hlevel : L.level = C.level) (hclosed : Closed C.kinds) (start : Nat) (full : Bool → Forecast)
    {P : Nat → Prop} (hfull : ∀ overrun, ∃ a, (full overrun).verdict = .take a ∧ P a) (n j : Nat)
    (s : ConfigSet) (overrun : Bool) {c : Config} {τ : List Place} (h : C.Tracks L.full s j c τ)
    (hP : P c.alt) (hstop : Stops c τ) (hs : s.Every (Config.Fair L.full)) (hroom : C.Room limit j τ)
    (hroot : C.root = .compilationUnit) (hn : C.kinds.size + 1 ≤ j + n) :
    ∃ a, (forecastLocal L limit C.kinds start full n j s overrun).verdict = .take a ∧ P a := by
  induction n generalizing j s overrun c τ with
  | zero =>
    have hj := hroom.2.1
    omega
  | succ n ih =>
    obtain ⟨c', τ', htracks, hle, hsame, hstops⟩ := h.local_round hstop hs hnet hunknown hlevel
      hroom.1 (.inl hroot) fun _ _ hp => carries_of_length (h.sited.take hp) hroom.length
    obtain ⟨i, d, hd, -, halt, hdlevel, -⟩ := htracks.has
    refine forecastLocal_round start full hfull n j s overrun hd
      (fun l hl => hlevel ▸ htracks.allows l (hdlevel ▸ hl)) (halt ▸ hsame ▸ hP)
      fun hnone hconflicts overrun => ?_
    rw [hclosed.behind_eq]
    have hj : j < C.kinds.size := by
      refine Nat.lt_of_not_le fun hsize => ?_
      rw [kindAt_of_size_le hsize, conflicts_endOfFile hs hnet] at hconflicts
      cases hconflicts
    have hbehind : behind C.kinds j = j + 1 := if_pos hj
    exact ih (behind C.kinds j) _ overrun htracks (hsame ▸ hP) (hstops hnone) (fair_after hs hnet)
      (hroom.next hj hle) (by omega)

/-! ## The beginning -/

/-- The configuration with which looking ahead begins for an alternative. -/
def first (C : Choice) (pending : Stacks) (x : Nat × Nat) : Config :=
  ⟨C.place.move x.1, x.2, none, pending, false, false⟩

theorem configs_firstConfigs (hnet : L.net = java) {nexts : List Nat}
    (hp : java.node C.place = .fork nexts) (pending : Stacks) :
    firstConfigs L limit C.place pending = (nexts.zipIdx 1).foldl (fun s x =>
      follow L limit (C.first pending x) (some 0) { s with visited := ∅ }) .empty := by
  rw [firstConfigs, hnet, hp]
  rfl

theorem fair_first (hvalid : C.place.Valid) {nexts : List Nat}
    (hp : java.node C.place = .fork nexts) {full : Bool} {pending : Stacks}
    (hpending : pending.All Place.Valid) (hpure : full = false → pending.Pure) {x : Nat × Nat}
    (hx : x ∈ nexts.zipIdx 1) : (C.first pending x).Fair full := by
  obtain ⟨hge, hlt, hget⟩ := List.mem_zipIdx hx
  have hlength := hvalid.length_lt hp
  have hmem : x.1 ∈ nexts := hget ▸ List.getElem_mem _
  exact
    { valid := (hvalid.fork hp hmem).valid
      alt := by dsimp only [first]; omega
      level := nofun
      pending := hpending
      pure := hpure }

/-- What holds of the configurations with which looking ahead begins holds where they stop. -/
theorem every_firstConfigs {J : Config → Option Nat → Prop} {I : Config → Prop}
    (hkeeps : Keeps L J I) {nexts : List Nat} (hp : java.node C.place = .fork nexts) (limit : Nat)
    (pending : Stacks)
    (hJ : ∀ x ∈ nexts.zipIdx 1, J (C.first pending x) (some 0)) :
    (firstConfigs L limit C.place pending).configs.Every I := by
  rw [configs_firstConfigs hkeeps.net hp]
  exact List.foldlRecOn (motive := fun t : Closure => t.configs.Every I) _ _ every_empty
    fun t ht x hx => hkeeps.follow limit _ _ _ ht (hJ x hx)

/-- A good alternative is found where its runs stop. -/
theorem found_firstConfigs {T : Trace} (hT : T.Suits L) (hlimit : 10000000 ≤ limit)
    (hvalid : C.place.Valid) {nexts : List Nat} (hp : java.node C.place = .fork nexts)
    {pending : Stacks} (hpending : pending.All Place.Valid) (hpure : L.full = false → pending.Pure)
    {x : Nat × Nat} (hx : x ∈ nexts.zipIdx 1) {π rest : List Place} (hπ : pending.Covers false π)
    (h : T.Has L.full (some 0) false (C.place.move x.1) π rest)
    (hlength : spanLimit * (π.length + 1) ≤ limit) :
    Found L (T.Has L.full) (firstConfigs L limit C.place pending).configs x.2 True := by
  rw [configs_firstConfigs hT.net hp]
  have hempty : Closure.empty.configs.Every (Config.Fair L.full) ∧
      Settled L (T.Has L.full) Closure.empty := by
    refine ⟨every_empty, fun c rest _ hmark => ?_⟩
    simp [Closure.empty] at hmark
  have hreset (s : Closure) : ({ s with visited := ∅ } : Closure).configs = s.configs ∧
      (Settled L (T.Has L.full) s → Settled L (T.Has L.full) { s with visited := ∅ }) := by
    refine ⟨rfl, fun _ c rest _ hmark => ?_⟩
    simp at hmark
  have hfound := foldl_follow hT.progressive hlimit (fun s => { s with visited := ∅ }) hreset
    (C.first pending) (nexts.zipIdx 1) (fun x hx => fair_first hvalid hp hpending hpure hx) hempty hx
    hπ h (Nat.lt_of_lt_of_le h.sited.burden_lt hlength)
  obtain ⟨c, d, π, rest, hhas, halt, hallows, hG⟩ := hfound
  exact ⟨c, d, π, rest, hhas, halt, fun _ => hallows (by rintro _ ⟨⟩), hG⟩

/-- What is traced from a decision on. -/
def trace (C : Choice) (loop : Option Nat) : Trace where
  kinds := C.kinds
  pos := C.pos
  level := C.level
  rule := C.place.rule
  callers := C.callers
  root := C.root
  bound := C.callers.length + spanLimit
  loop := loop
  region := fun _ => True

/-- Both ways from the loop of the operators are near it. -/
theorem near_next {loop : Option Nat}
    (hloop : ∀ l, loop = some l → C.place.rule.body.operatorLoop? = some C.place.offset ∧
      l = C.place.offset) {nexts : List Nat} (hp : java.node C.place = .fork nexts) {next : Nat}
    (hnext : next ∈ nexts) {l : Nat} (hl : loop = some l) :
    Near C.place.rule l (C.place.move next) := by
  obtain ⟨ho, rfl⟩ := hloop l hl
  have hnear : Near C.place.rule C.place.offset C.place := .loop .refl
  exact hnear.fork (operatorLoop ho) hp hnext

/-- A good alternative begins a run that is traced. -/
theorem has_trace (hsited : Sited C.place C.callers) {loop : Option Nat}
    (hloop : ∀ l, loop = some l → C.place.rule.body.operatorLoop? = some C.place.offset ∧
      l = C.place.offset) {nexts : List Nat} (hp : java.node C.place = .fork nexts) {next : Nat}
    (hnext : next ∈ nexts)
    (hviable : Viable C.kinds C.level C.pos (some 0) (C.place.move next) C.callers) {full : Bool}
    {π rest : List Place} (hcallers : C.callers = π ++ rest) (hknown : full = true → rest = [])
    (hstays : full = false → loop ≠ none → π = []) :
    (C.trace loop).Has full (some 0) false (C.place.move next) π rest where
  viable := hcallers ▸ hviable
  sited := hcallers ▸ hsited.drift (.fork hp hnext)
  rise := by
    rw [← hcallers]
    exact Nat.le_of_lt (hsited.drift (.fork hp hnext)).rise_le
  region := trivial
  rooted := hcallers ▸ rule_base_move ..
  known := hknown
  framed := fun _ k hk => by
    obtain rfl := Option.some.inj hk
    exact ⟨[], hcallers.symm, rfl, rfl, fun h => absurd rfl h⟩
  near := fun l hl k hk => ⟨(Option.some.inj hk).symm, near_next hloop hp hnext hl⟩
  stays := fun hfull l hl _ => by
    have hnil := hstays hfull (by rw [show loop = _ from hl]; nofun)
    exact ⟨hnil, ⟨[], by rw [hnil] at hcallers; exact hcallers, nofun⟩,
      near_next hloop hp hnext hl⟩

end Choice

end JavaOutline
