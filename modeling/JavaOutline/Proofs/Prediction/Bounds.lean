import JavaOutline.Proofs.Prediction.Decisions

/-!
# Looking ahead comes to an end

The bounds with which the parser looks ahead are never what stops it, on whatever tokens. A way
without a token is no longer than its burden, and a way into an unknown caller uses up a mark, so no
configuration is followed too far (`Closure.follow_overrun`). The ways back rise by a fixed number
with every token (`Config.Bounded`), and at the end of the file every decision is settled. So
`forecast` never overruns (`forecast_overrun`).
-/

namespace JavaOutline

open Network Closure ConfigSet

/-! ## One step of a configuration -/

namespace Config

/-- The one configuration leads to the other by a step without a token, on each of its ways back. -/
structure LeadsOn (c c' : Config) : Prop where
  full : c.pending.Full → c'.pending.Full
  drift : ∀ τ, c'.pending.Covers false τ →
    ∃ π, c.pending.Covers false π ∧ Drift c.place π c'.place τ

section
variable {c c' : Config} {next : Nat}

theorem leadsOn_call {r : Rule} {level : Nat} (hp : java.node c.place = .call r level next) :
    c.LeadsOn { c with place := .start r, pending := c.pending.push (c.place.move next) } := by
  refine ⟨fun h => h.push _, fun τ hτ => ?_⟩
  obtain ⟨π, rfl, hπ⟩ := Stacks.covers_push.1 hτ
  exact ⟨π, hπ, .call hp⟩

theorem leadsOn_guard {level : Nat} (hp : java.node c.place = .guard level next)
    (hplace : c'.place = c.place.move next) (hpending : c'.pending = c.pending) : c.LeadsOn c' := by
  refine ⟨fun h => hpending ▸ h, fun τ hτ => ⟨τ, hpending ▸ hτ, ?_⟩⟩
  rw [hplace]
  exact .guard hp

theorem leadsOn_fork {nexts : List Nat} (hp : java.node c.place = .fork nexts)
    (hnext : next ∈ nexts) : c.LeadsOn (c.move next) :=
  ⟨id, fun τ hτ => ⟨τ, hτ, .fork hp hnext⟩⟩

theorem leadsOn_back {ret : Place} {below : Stacks} (hp : java.node c.place = .finish)
    (hmem : (ret, below) ∈ c.pending.tops) :
    c.LeadsOn { c with place := ret, pending := below } :=
  ⟨fun h => h.of_mem_tops hmem, fun _ hτ => ⟨_, Stacks.covers_of_mem_tops hmem hτ, .back hp⟩⟩

end

/-- The configuration has ways back, and from its place fewer than `n` steps without a token can be
made on any of them. -/
structure Light (n : Nat) (c : Config) : Prop where
  full : c.pending.Full
  burden : ∀ π, c.pending.Covers false π → c.place.burden π < n

theorem Light.pos {n : Nat} {c : Config} (h : c.Light n) : 0 < n := by
  obtain ⟨π, hπ⟩ := h.full.exists_covers
  exact Nat.zero_lt_of_lt (h.burden π hπ)

/-- A step without a token leaves a lighter configuration. -/
theorem Light.step {n : Nat} {c c' : Config} (hc : c.Light (n + 1)) (hvalid : c.place.Valid)
    (h : c.LeadsOn c') : c'.Light n := by
  refine ⟨h.full hc.full, fun τ hτ => ?_⟩
  obtain ⟨π, hπ, hd⟩ := h.drift τ hτ
  have hburden := hc.burden π hπ
  have hless := (hd.decreases hvalid).1
  omega

end Config

/-! ## Following a configuration -/

namespace Closure

/-- No way was too long so far, and no more than `m` marks are left. -/
structure Safe (m : Nat) (s : Closure) : Prop where
  overrun : s.overrun = false
  unvisited : unvisited s ≤ m

section
variable {L : Outlook} {leave : Config → Closure → Closure} {m n : Nat} {c : Config}
  {d : Option Nat} {s : Closure}

theorem Safe.add (h : Safe m s) (c : Config) : Safe m (s.add L c) := ⟨h.overrun, h.unvisited⟩

theorem Safe.foldl {α : Type} {f : Closure → α → Closure} {xs : List α} (hs : Safe m s)
    (hf : ∀ t, ∀ x ∈ xs, Safe m t → Safe m (f t x)) : Safe m (xs.foldl f s) :=
  List.foldlRecOn xs f hs fun t ht x hx => hf t x hx ht

/-- What `leave` has to do: a way into an unknown caller with fewer marks left is safe. -/
def LeavesSafely (L : Outlook) (leave : Config → Closure → Closure) (m : Nat) : Prop :=
  ∀ c s, c.Fair L.full → c.pending = .bottom → s.overrun = false → unvisited s < m →
    Safe m (leave c s)

/-- Going on in an unknown caller uses up a mark. -/
theorem safe_leaveTo (hleave : LeavesSafely L leave m) {ret : Return}
    (hc : (c.leaveTo L ret).Fair L.full) (hbottom : c.pending = .bottom)
    (hret : ret ∈ java.returns c.place.rule) (hs : Safe m s) :
    Safe m (if s.visited.contains (mark (c.leaveTo L ret)) then s
      else leave (c.leaveTo L ret)
        { s with visited := s.visited.insert (mark (c.leaveTo L ret)) () }) := by
  split
  · exact hs
  · rename_i hnew
    rw [Std.TreeMap.contains_iff_mem] at hnew
    have hlt := unvisited_insert_lt (mark_mem_marks hc.toFine (mem_behindCalls hret)) hnew
    exact hleave _ _ hc hbottom hs.overrun (Nat.lt_of_lt_of_le hlt hs.unvisited)

theorem followWith_safe (hnet : L.net = java) (hleave : LeavesSafely L leave m)
    (hfair : c.Fair L.full) (hc : c.Light n) (hs : Safe m s) :
    Safe m (followWith L leave n c d s) := by
  induction n generalizing c d s with
  | zero => exact absurd hc.pos (Nat.lt_irrefl 0)
  | succ n ih =>
    have hkeeps := keeps_fair hnet
    have hvalid := hfair.valid
    unfold followWith
    rw [hnet]
    split
    · exact hs.add c
    · rename_i r l next hp
      exact ih (hkeeps.call (d := d) hp hfair) (hc.step hvalid (Config.leadsOn_call hp)) hs
    · rename_i l next hp
      have hmove {c' : Config} (hplace : c'.place = c.place.move next)
          (hpending : c'.pending = c.pending) : c'.Light n :=
        hc.step hvalid (Config.leadsOn_guard hp hplace hpending)
      split
      · rename_i hguard
        rw [Bool.and_eq_true, beq_iff_eq] at hguard
        split
        · rename_i hfull
          split
          · rename_i hlevel
            exact ih (hkeeps.guard (d := d) hp hfair fun _ _ => ⟨hfull, hlevel⟩) (hmove rfl rfl) hs
          · exact hs
        · rename_i hfull
          exact ih (hkeeps.collect (by simpa using hfull) hp hfair) (hmove rfl rfl) hs
      · rename_i hguard
        rw [Bool.and_eq_true, beq_iff_eq] at hguard
        exact ih (hkeeps.guard (d := d) hp hfair fun hg hd => absurd ⟨hg, hd⟩ hguard)
          (hmove rfl rfl) hs
    · rename_i nexts hp
      refine hs.foldl fun t next hnext ht => ?_
      have hmem : next ∈ nexts := by
        split at hnext
        · exact List.mem_of_mem_drop hnext
        · exact hnext
      exact ih (hkeeps.fork (d := d) hp hmem hfair)
        (hc.step hvalid (Config.leadsOn_fork hp hmem)) ht
    · rename_i hp
      split
      · rename_i hbottom
        split
        · exact hs.add c
        · rename_i hfull
          split
          · exact hs.add c
          · refine hs.foldl fun t ret hret ht => ?_
            exact safe_leaveTo hleave
              (hkeeps.out (d := d) hp hbottom (by simpa using hfull) hret hfair) hbottom hret ht
      · refine Safe.foldl ?_ fun t top htop ht => ?_
        · split
          · exact hs.add _
          · exact hs
        · exact ih (hkeeps.back (d := d) hp htop hfair)
            (hc.step hvalid (Config.leadsOn_back hp htop)) ht

theorem followOut_safe (hnet : L.net = java) {limit : Nat} (hlimit : spanLimit ≤ limit)
    (hfair : c.Fair L.full) (hc : c.Light limit) (hs : Safe m s) :
    Safe m (followOut L limit m c d s) := by
  induction m generalizing c d s with
  | zero => exact followWith_safe hnet (fun _ _ _ _ _ hm => absurd hm (Nat.not_lt_zero _)) hfair hc hs
  | succ m ih =>
    refine followWith_safe hnet (fun c s hfair hbottom hoverrun hm => ?_) hfair hc hs
    have hlight : c.Light limit := by
      refine ⟨hbottom ▸ trivial, fun π hπ => ?_⟩
      rw [hbottom] at hπ
      obtain rfl := hπ.resolve_left nofun
      exact Nat.lt_of_lt_of_le hfair.valid.fits.2 hlimit
    have hsafe := ih (d := none) hfair hlight ⟨hoverrun, Nat.le_of_lt_succ hm⟩
    exact ⟨hsafe.overrun, Nat.le_succ_of_le hsafe.unvisited⟩

/-- **No configuration is followed too far.** -/
theorem follow_overrun (hnet : L.net = java) {limit : Nat} (hlimit : 10000000 ≤ limit)
    (hfair : c.Fair L.full) (hc : c.Light limit) (hs : s.overrun = false) :
    (follow L limit c d s).overrun = false := by
  have hsafe : Safe limit s := ⟨hs, Nat.le_trans (unvisited_le s) hlimit⟩
  exact (followOut_safe hnet (Nat.le_trans (by decide) hlimit) hfair hc hsafe).overrun

end

end Closure

/-! ## How high the ways back rise -/

namespace Config

/-- The configuration has ways back, and no more than `bound` of them can be pending before the next
token. With known callers all of them end with the rule `root`. -/
structure Bounded (full : Bool) (root : Rule) (bound : Nat) (c : Config) : Prop
    extends Fair full c where
  inhabited : c.pending.Full
  rise : ∀ π, c.pending.Covers false π → c.place.rise π ≤ bound
  root : full = true → ∀ π, c.pending.Covers false π → (base c.place π).rule = root

/-- The same for a configuration that has been followed: with known callers it ends only where the
parse ends. -/
structure Halted (full : Bool) (root : Rule) (bound : Nat) (c : Config) : Prop
    extends Bounded full root bound c where
  ended : full = true → java.node c.place = .finish → c.pending = .bottom

section
variable {full : Bool} {root : Rule} {bound : Nat} {c d : Config}

theorem Bounded.length_le (hc : c.Bounded full root bound) {π : List Place}
    (hπ : c.pending.Covers false π) : π.length ≤ bound := by
  have hle := c.place.length_add_le_rise π
  have hrise := hc.rise π hπ
  omega

theorem Bounded.light (hc : c.Bounded full root bound) {limit : Nat}
    (hlimit : spanLimit * (bound + 1) ≤ limit) : c.Light limit := by
  refine ⟨hc.inhabited, fun π hπ => ?_⟩
  calc c.place.burden π
    _ < spanLimit * (π.length + 1) := hc.valid.burden_lt (hc.pending.of_covers hπ)
    _ ≤ spanLimit * (bound + 1) :=
        Nat.mul_le_mul_left _ (Nat.succ_le_succ (hc.length_le hπ))
    _ ≤ limit := hlimit

theorem Bounded.step (hc : c.Bounded full root bound) (h : c.LeadsOn d) (hd : d.Fair full) :
    d.Bounded full root bound := by
  refine { hd with inhabited := h.full hc.inhabited, rise := fun τ hτ => ?_, root := fun hfull τ hτ => ?_ }
  · obtain ⟨π, hπ, hdrift⟩ := h.drift τ hτ
    exact Nat.le_trans (hdrift.decreases hc.valid).2 (hc.rise π hπ)
  · obtain ⟨π, hπ, hdrift⟩ := h.drift τ hτ
    rw [hdrift.rule_base, hc.root hfull π hπ]

/-- Behind a token the ways back may rise once more. -/
theorem Bounded.take (hc : c.Bounded full root bound) {ks : KindSet} {next : Nat}
    (hp : java.node c.place = .take ks next) :
    (c.move next).Bounded full root (bound + spanLimit) := by
  have hvalid := hc.valid.take hp
  refine { hc with valid := hvalid, rise := fun π hπ => ?_, root := fun hfull π hπ => ?_ }
  · have hrise := hvalid.rise_lt (hc.pending.of_covers hπ)
    have hlength := hc.length_le hπ
    dsimp only [move]
    omega
  · rw [move, rule_base_move, hc.root hfull π hπ]

theorem Bounded.join (hc : c.Bounded full root bound) (hd : d.Bounded full root bound)
    (hkey : c.key = d.key) : (c.join (!full) d).Bounded full root bound := by
  obtain ⟨hplace, -⟩ := hc.key_inj hd.toFine hkey
  refine { hc.toFair.join hd.toFair with
    inhabited := Stacks.full_merge (.inr hd.inhabited) hc.inhabited
    rise := fun π hπ => ?_, root := fun hfull π hπ => ?_ }
  · rcases Stacks.covers_of_merge hπ with hπ | hπ
    · exact (congrArg (·.rise π) hplace).trans_le (hd.rise π hπ)
    · exact hc.rise π hπ
  · rcases Stacks.covers_of_merge hπ with hπ | hπ
    · exact (congrArg (fun p => (base p π).rule) hplace).trans (hd.root hfull π hπ)
    · exact hc.root hfull π hπ

theorem Halted.join (hc : c.Halted full root bound) (hd : d.Halted full root bound)
    (hkey : c.key = d.key) : (c.join (!full) d).Halted full root bound := by
  obtain ⟨hplace, -⟩ := hc.key_inj hd.toFine hkey
  refine { hc.toBounded.join hd.toBounded hkey with ended := fun hfull hp => ?_ }
  rw [Config.join, hc.ended hfull hp, hd.ended hfull (hplace ▸ hp), hfull]
  rfl

theorem Halted.mono (hc : c.Halted full root bound) {bound' : Nat} (hle : bound ≤ bound') :
    c.Halted full root bound' :=
  { hc with rise := fun π hπ => Nat.le_trans (hc.rise π hπ) hle }

end

end Config

section
variable {L : Outlook} {root : Rule} {bound limit : Nat} {s : ConfigSet} {k : Kind}

theorem keeps_bounded (hnet : L.net = java) (hbound : spanLimit ≤ bound) :
    Keeps L (fun c _ => c.Bounded L.full root bound) (Config.Halted L.full root bound) := by
  have hfair := keeps_fair hnet
  exact
    { net := hnet
      joins := fun _ _ hc hd hkey => hc.join hd hkey
      take := fun hp hc => { hc with ended := fun _ hp' => absurd (hp.symm.trans hp') nofun }
      call := fun {c d r l next} hp hc =>
        hc.step (Config.leadsOn_call hp) (hfair.call (d := d) hp hc.toFair)
      guard := fun {c d l next} hp hc hok =>
        hc.step (Config.leadsOn_guard hp rfl rfl) (hfair.guard (d := d) hp hc.toFair hok)
      collect := fun {c l next} hfull hp hc =>
        hc.step (Config.leadsOn_guard hp rfl rfl) (hfair.collect hfull hp hc.toFair)
      fork := fun {c d nexts next} hp hnext hc =>
        hc.step (Config.leadsOn_fork hp hnext) (hfair.fork (d := d) hp hnext hc.toFair)
      finish := fun {c d} hp hbottom _ hc => by
        have hnil := Stacks.hasBottom_iff.1 hbottom
        refine { hc.toFair.bottom with
          inhabited := trivial, rise := fun π hπ => ?_, root := fun hfull π hπ => ?_
          ended := fun _ _ => rfl }
        · obtain rfl := hπ.resolve_left nofun
          exact hc.rise [] hnil
        · obtain rfl := hπ.resolve_left nofun
          exact hc.root hfull [] hnil
      out := fun {c d ret} hp hbottom hfull hret hc => by
        have hout := hfair.out (d := d) hp hbottom hfull hret hc.toFair
        refine { hout with
          inhabited := by rw [Config.leaveTo, hbottom]; trivial
          rise := fun π hπ => ?_, root := fun hno => absurd (hno.symm.trans hfull) nofun }
        rw [Config.leaveTo, hbottom] at hπ
        obtain rfl := hπ.resolve_left nofun
        exact Nat.le_trans (Nat.le_of_lt hout.valid.fits.2) hbound
      back := fun {c d ret below} hp hmem hc =>
        hc.step (Config.leadsOn_back hp hmem) (hfair.back (d := d) hp hmem hc.toFair) }

/-! ## One round -/

theorem bounded_moved (hs : s.Every (Config.Halted L.full root bound)) (hnet : L.net = java) :
    (s.moved L k).Every (Config.Bounded L.full root (bound + spanLimit)) :=
  hs.moved hnet (fun _ _ hc hd hkey => hc.join hd hkey) fun _ _ _ hc hp _ => hc.take hp

/-- Behind a token nothing is followed too far. -/
theorem overrun_followed (hs : s.Every (Config.Halted L.full root bound)) (hnet : L.net = java)
    (hlimit : 10000000 ≤ limit) (hbound : spanLimit * (bound + spanLimit + 1) ≤ limit)
    (unique : Bool) : (followed L limit unique (s.moved L k)).overrun = false := by
  unfold followed
  split
  · rfl
  · refine (bounded_moved hs hnet).foldl (P := fun t : Closure => t.overrun = false) rfl ?_
    intro t _ c ht hc
    exact follow_overrun (L := { L with guards := false }) hnet hlimit hc.toFair (hc.light hbound) ht

/-- Unless one alternative is left, all configurations behind a token have been followed. -/
theorem halted_after (hs : s.Every (Config.Halted L.full root bound)) (hnet : L.net = java)
    (hunique : (after L limit s k).uniqueAlt? = none) :
    (after L limit s k).Every (Config.Halted L.full root (bound + spanLimit)) := by
  rcases followed_cases L limit (s.moved L k) ((ended L s k).isEmpty && k != .endOfFile) with
    ⟨heq, hone, a, ha⟩ | heq
  · rw [after_eq_moved heq hone, ha] at hunique
    cases hunique
  · have hkeeps : Keeps { L with guards := false } _ (Config.Halted L.full root _) :=
      keeps_bounded hnet (Nat.le_add_left spanLimit bound)
    have hall : (kept L k (followAll L limit (s.moved L k))).Every _ :=
      (hkeeps.followAll (bounded_moved hs hnet)).kept
    rw [ConfigSet.after, heq]
    split
    · refine hall.foldl_add (fun _ _ hc hd hkey => hc.join hd hkey) fun c hc => ?_
      obtain ⟨⟨j, hj⟩, -⟩ := mem_ended hc
      exact (hs j c hj).2.mono (Nat.le_add_right bound spanLimit)
    · exact hall

/-- At the end of the file one alternative is left if the callers are known. -/
theorem resolved_of_finished (hs : s.Every (Config.Halted true root bound))
    (hfinished : s.Every fun c => java.node c.place = .finish) (hne : s.isEmpty = false) :
    ∃ a, s.resolved? = some a := by
  obtain ⟨j, hj⟩ := Std.TreeMap.isEmpty_eq_false_iff_exists_mem.1 hne
  refine resolved?_isSome ⟨root, 0⟩ .bottom (Std.TreeMap.getElem?_eq_some_getElem hj) ?_
  intro i c hc
  have hhalted := (hs i c hc).2
  have hp := (hfinished i c hc).2
  have hbottom := hhalted.ended rfl hp
  have hrule := hhalted.root rfl [] (by rw [hbottom]; exact .inr rfl)
  have hoffset := hhalted.valid.offset_of_finish hp
  exact ⟨congr (congrArg Place.mk hrule) hoffset, hbottom⟩

end

/-! ## All rounds -/

/-- There is room for all ways back that can be pending up to the end of the file. -/
structure Margin (kinds : Array Kind) (limit pos bound : Nat) : Prop where
  limit_ge : 10000000 ≤ limit
  pos_le : pos ≤ kinds.size
  room : spanLimit * (bound + spanLimit * (kinds.size + 1 - pos) + 1) ≤ limit

section
variable {L : Outlook} {root : Rule} {bound limit pos : Nat} {s : ConfigSet} {kinds : Array Kind}

theorem Margin.round (h : Margin kinds limit pos bound) :
    spanLimit * (bound + spanLimit + 1) ≤ limit := by
  obtain ⟨-, hpos, hbound⟩ := h
  unfold spanLimit at *
  omega

theorem Margin.first (h : Margin kinds limit pos bound) : spanLimit * (bound + 1) ≤ limit :=
  Nat.le_trans (Nat.mul_le_mul_left _ (by omega)) h.round

theorem Margin.next (h : Margin kinds limit pos bound) (hpos : pos < kinds.size) :
    Margin kinds limit (pos + 1) (bound + spanLimit) := by
  obtain ⟨hlimit, -, hbound⟩ := h
  refine ⟨hlimit, hpos, ?_⟩
  unfold spanLimit at *
  omega

/-- What a token leads to is found without an overrun. -/
theorem step_spec (hs : s.Every (Config.Halted L.full root bound)) (hnet : L.net = java)
    (hmargin : Margin kinds limit pos bound) {k : Kind} {reached : ConfigSet} {long : Bool}
    (h : s.step L limit k = some (reached, long)) :
    reached = after L limit s k ∧ reached.isEmpty = false ∧ long = false := by
  rw [step_eq] at h
  obtain ⟨hne, h⟩ := Option.ite_none_left_eq_some.1 h
  obtain ⟨rfl, rfl⟩ := Prod.mk.inj (Option.some.inj h)
  exact ⟨rfl, by simpa using hne, overrun_followed hs hnet hmargin.limit_ge hmargin.round _⟩

/-- Behind a token looking ahead goes on with the next one, if there is one. -/
theorem Closed.next_eq (hclosed : Closed kinds) (hpos : pos < kinds.size) :
    (if kindAt kinds pos == .endOfFile then pos else pos + 1) = pos + 1 := by
  rw [hclosed.behind_eq]
  exact if_pos hpos

/-- **With known callers looking ahead does not overrun.** -/
theorem forecastFull_overrun (hnet : L.net = java) (hfull : L.full = true) (hclosed : Closed kinds)
    (n : Nat) (hs : s.Every (Config.Halted L.full root bound))
    (hmargin : Margin kinds limit pos bound) (hn : kinds.size + 1 ≤ pos + n) {overrun : Bool}
    (hoverrun : overrun = false) : (forecastFull L limit kinds n pos s overrun).overrun = false := by
  subst hoverrun
  induction n generalizing pos s bound with
  | zero =>
    have hpos := hmargin.pos_le
    omega
  | succ n ih =>
    unfold forecastFull
    dsimp only
    split
    · split <;> rfl
    · rename_i reached long hstep
      obtain ⟨rfl, hne, rfl⟩ := step_spec hs hnet hmargin hstep
      split
      · rfl
      · rename_i hunique
        have hhalted := halted_after hs hnet hunique
        split
        · rfl
        · rename_i hunresolved
          have hpos : pos < kinds.size := by
            refine Nat.lt_of_not_le fun hsize => ?_
            rw [kindAt_of_size_le hsize] at hne hhalted hunresolved
            have hfair : s.Every (Config.Fair L.full) := hs.mono fun _ hc => hc.toFair
            have hfinished : (after L limit s .endOfFile).Every _ :=
              (Choice.finished_after hfair hnet).mono fun _ hc => (finished_iff hnet).1 hc
            obtain ⟨a, ha⟩ := resolved_of_finished (hfull ▸ hhalted) hfinished hne
            rw [ha] at hunresolved
            cases hunresolved
          rw [hclosed.next_eq hpos]
          exact ih hhalted (hmargin.next hpos) (by omega)

/-- **With unknown callers looking ahead does not overrun**, provided that it does not with known
ones. -/
theorem forecastLocal_overrun (hnet : L.net = java) (hclosed : Closed kinds) (start : Nat)
    (full : Bool → Forecast) (hfull : ∀ overrun, overrun = false → (full overrun).overrun = false)
    (n : Nat) (hs : s.Every (Config.Halted L.full root bound))
    (hmargin : Margin kinds limit pos bound) (hn : kinds.size + 1 ≤ pos + n) {overrun : Bool}
    (hoverrun : overrun = false) :
    (forecastLocal L limit kinds start full n pos s overrun).overrun = false := by
  subst hoverrun
  induction n generalizing pos s bound with
  | zero =>
    have hpos := hmargin.pos_le
    omega
  | succ n ih =>
    unfold forecastLocal
    dsimp only
    split
    · split <;> rfl
    · rename_i reached long hstep
      obtain ⟨rfl, -, rfl⟩ := step_spec hs hnet hmargin hstep
      split
      · split <;> rfl
      · rename_i hunique
        split
        · split
          · rfl
          · exact hfull _ rfl
        · rename_i hconflicts
          have hpos : pos < kinds.size := by
            refine Nat.lt_of_not_le fun hsize => hconflicts ?_
            rw [kindAt_of_size_le hsize, conflicts, Bool.or_eq_true]
            have hfair : s.Every (Config.Fair L.full) := hs.mono fun _ hc => hc.toFair
            exact .inl (all_eq_true_of fun i c hc => (Choice.finished_after hfair hnet i c hc).2)
          rw [hclosed.next_eq hpos]
          exact ih (halted_after hs hnet hunique) (hmargin.next hpos) (by omega)

end

/-! ## The beginning -/

/-- Preferring operators keeps what does not depend on guards. -/
theorem ConfigSet.Every.preferOperators {I : Config → Prop} {s : ConfigSet} (hs : s.Every I)
    (hjoin : Joins I true) (hfree : ∀ c, I c → I { c with level := none }) (level : Nat) :
    (s.preferOperators level).Every I := by
  simp only [ConfigSet.preferOperators]
  refine hs.foldl (P := fun t : ConfigSet => t.Every I) ?_ fun t _ c ht hc => ?_
  · refine hs.foldl (P := fun t : ConfigSet => t.Every I) every_empty fun t _ c ht hc => ?_
    split
    · exact ht.add hjoin (hfree c hc)
    · exact ht
  · split
    · exact ht
    · split
      · exact ht
      · exact ht.add hjoin hc

/-- So it does where that counts only. -/
theorem ConfigSet.Every.preferOperators_ite {I : Config → Prop} {s : ConfigSet} (hs : s.Every I)
    (hjoin : Joins I true) (hfree : ∀ c, I c → I { c with level := none }) {isLoop : Bool}
    {level : Nat} : (if isLoop then s.preferOperators level else s).Every I := by
  split
  · exact hs.preferOperators hjoin hfree level
  · exact hs

namespace Choice

variable {C : Choice} {L : Outlook} {nexts : List Nat} {limit bound : Nat} {root : Rule}

/-- The configurations with which looking ahead begins are bounded by the number of the callers. -/
theorem bounded_first (full : Bool) (pending : Stacks) (hp : java.node C.place = .fork nexts)
    (hvalid : pending.All Place.Valid) (hpure : full = false → pending.Pure)
    (hnonempty : pending.Full) (hcovers : ∀ π, pending.Covers false π →
      π.length ≤ C.callers.length ∧ (full = true → π = C.callers))
    {x : Nat × Nat} (hx : x ∈ nexts.zipIdx 1) : (C.first pending x).Bounded full
      (base C.place C.callers).rule (C.callers.length + spanLimit) := by
  have hfair := fair_first (Place.valid_of_fork hp) hp hvalid hpure hx
  refine { hfair with inhabited := hnonempty, rise := fun π hπ => ?_, root := fun hfull π hπ => ?_ }
  · have hrise := hfair.valid.rise_lt (hvalid.of_covers hπ)
    have hlength := (hcovers π hπ).1
    omega
  · rw [(hcovers π hπ).2 hfull]
    exact rule_base_move C.place x.1 C.callers

/-- With unknown callers they are so whatever the callers are. -/
theorem bounded_unknown (hp : java.node C.place = .fork nexts) {x : Nat × Nat}
    (hx : x ∈ nexts.zipIdx 1) :
    (C.first .bottom x).Bounded false C.root (C.callers.length + spanLimit) := by
  refine bounded_first false .bottom hp trivial (fun _ => trivial) trivial (fun π hπ => ?_) hx
  obtain rfl := hπ.resolve_left Bool.false_ne_true
  exact ⟨Nat.zero_le _, by rintro ⟨⟩⟩

theorem overrun_firstConfigs (hnet : L.net = java) (hp : java.node C.place = .fork nexts)
    {pending : Stacks} (hlimit : 10000000 ≤ limit) (hbound : spanLimit * (bound + 1) ≤ limit)
    (hfirst : ∀ x ∈ nexts.zipIdx 1, (C.first pending x).Bounded L.full root bound) :
    (firstConfigs L limit C.place pending).overrun = false := by
  rw [configs_firstConfigs hnet hp]
  refine List.foldlRecOn (motive := fun t : Closure => t.overrun = false) _ _ rfl ?_
  intro t ht x hx
  have hx := hfirst x hx
  exact follow_overrun hnet hlimit hx.toFair (hx.light hbound) ht

/-- The bound with which looking ahead begins leaves enough room. -/
theorem margin (hpos : C.pos ≤ C.kinds.size) :
    Margin C.kinds (wayLimit C.callers.length (C.kinds.size + 2 - C.pos)) C.pos
      (C.callers.length + spanLimit) := by
  refine ⟨?_, hpos, ?_⟩
  · unfold wayLimit
    omega
  · unfold wayLimit spanLimit
    omega

/-- **Looking ahead never overruns**: whatever the tokens and the callers are, its bounds are never
what ends it. -/
theorem forecast_overrun (hclosed : Closed C.kinds) (hp : java.node C.place = .fork nexts)
    (hcallers : ∀ q ∈ C.callers, q.Valid) (hpos : C.pos ≤ C.kinds.size) :
    (forecast java C.kinds C.callers C.level C.place C.pos).overrun = false := by
  have hmargin := C.margin hpos
  have hspan : spanLimit ≤ C.callers.length + spanLimit := Nat.le_add_left ..
  have hunknown : ∀ x ∈ nexts.zipIdx 1, (C.first .bottom x).Bounded false C.root
      (C.callers.length + spanLimit) := fun x hx => bounded_unknown hp hx
  have hknown : ∀ x ∈ nexts.zipIdx 1, (C.first (.ofList C.callers) x).Bounded true
      (base C.place C.callers).rule (C.callers.length + spanLimit) := by
    intro x hx
    have hcovers : ∀ π, (Stacks.ofList C.callers).Covers false π →
        π.length ≤ C.callers.length ∧ (true = true → π = C.callers) := by
      intro π hπ
      rw [(Stacks.covers_ofList C.callers).1 hπ]
      exact ⟨Nat.le_refl _, fun _ => rfl⟩
    exact bounded_first true _ hp (Stacks.all_ofList hcallers) (by rintro ⟨⟩) (Stacks.full_ofList _)
      hcovers hx
  have hjoins : Joins (Config.Halted false C.root (C.callers.length + spanLimit)) true :=
    fun _ _ hc hd hkey => hc.join hd hkey
  simp only [forecast]
  refine forecastLocal_overrun (by rfl) hclosed _ _ (fun overrun hoverrun => ?_) _
    ((every_firstConfigs (keeps_bounded (by rfl) hspan) hp _ _ hunknown).preferOperators_ite hjoins
      fun c hc => { hc with level := by rintro _ ⟨⟩ })
    hmargin (by omega) (overrun_firstConfigs (by rfl) hp hmargin.limit_ge hmargin.first hunknown)
  refine forecastFull_overrun (by rfl) (by rfl) hclosed _
    (every_firstConfigs (keeps_bounded (by rfl) hspan) hp _ _ hknown) hmargin (by omega) ?_
  rw [hoverrun, Bool.false_or]
  exact overrun_firstConfigs (by rfl) hp hmargin.limit_ge hmargin.first hknown

end Choice

end JavaOutline
