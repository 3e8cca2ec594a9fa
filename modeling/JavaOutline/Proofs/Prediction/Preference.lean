import JavaOutline.Proofs.Prediction.Alternatives
import JavaOutline.Proofs.Prediction.Clashes
import JavaOutline.Proofs.Prediction.Exits

/-!
# One more operator

Whether an operator is applied to an operand or left to the caller of the operand's rule makes no
difference to what can be parsed. The decision is made for the operand: **wherever one more operator
leads to the end of the parse, it is applied** (`Choice.forecast_operator`). What has to be shut out
is that the end of the file is taken by another run, which only a file with a module does, and there
are no operators in modules (`Choice.shut`).
-/

namespace JavaOutline

open Network Closure ConfigSet

/-! ## The end of the file -/

/-- The nodes of a file from which the end of the file may be taken. -/
def endNodes : List Nat := [1, 20, 21]

/-- From the place the end of the file may be taken in the same rule. -/
def Place.Ending (p : Place) : Prop := p.rule = .compilationUnit ∧ p.offset ∈ endNodes

namespace Rule

/-- The rules of which a module consists. -/
def inModule (r : Rule) : Bool :=
  r ∈ [moduleDeclaration, moduleBody, moduleDirective, requiresModifier, qualifiedName, identifier]

/-- Is the end of the file taken from the nodes for it only, does nothing else lead to them, and are
modules all that is called there, or from a module? -/
def keepsModule (r : Rule) : Bool :=
  r.body.layout.zipIdx.all fun (n, i) =>
    (r != .compilationUnit || i ∈ endNodes || n.nexts.all (· ∉ endNodes)) &&
    match n with
    | .take ks _ => !ks.contains .endOfFile || (r == .compilationUnit && i ∈ endNodes)
    | .call r' _ next => r'.inModule ||
        (!r.inModule && (r != .compilationUnit || next ∉ endNodes))
    | _ => true

theorem keepsModule_eq_true (r : Rule) : r.keepsModule = true := by
  cases r <;> decide +kernel

end Rule

section
variable {p : Place} {next : Nat}

theorem ending_of_take (hp : p.Valid) {ks : KindSet} (h : java.node p = .take ks next)
    (hk : Kind.endOfFile ∈ ks) : p.Ending := by
  have hkeeps := p.rule.keepsModule_eq_true
  rw [Rule.keepsModule, List.all_eq_true] at hkeeps
  have hnode := hkeeps _ hp.mem_zipIdx
  rw [h, Bool.and_eq_true] at hnode
  unfold Place.Ending
  simpa [show ks.contains .endOfFile = true from hk] using hnode.2

/-- Nothing else leads to where the end of the file may be taken. -/
theorem ending_of_next (hnext : next ∈ (java.node p).nexts) (h : (p.move next).Ending) :
    p.Ending := by
  have hp : p.Valid := Place.valid_of_node fun hp => by
    rw [hp] at hnext
    cases hnext
  have hkeeps := p.rule.keepsModule_eq_true
  rw [Rule.keepsModule, List.all_eq_true] at hkeeps
  have hnode := hkeeps _ hp.mem_zipIdx
  simp only [Bool.and_eq_true, Bool.or_eq_true, bne_iff_ne, decide_eq_true_eq,
    List.all_eq_true] at hnode
  refine ⟨h.1, (hnode.1.resolve_right fun hall => ?_).resolve_left fun hne => hne h.1⟩
  exact hall next hnext h.2

/-- In a module, and where the end of the file may be taken behind a call, modules are called. -/
theorem inModule_of_call (hp : p.Valid) {r : Rule} {level : Nat}
    (h : java.node p = .call r level next)
    (hmodule : p.rule.inModule = true ∨ (p.move next).Ending) : r.inModule = true := by
  have hkeeps := p.rule.keepsModule_eq_true
  rw [Rule.keepsModule, List.all_eq_true] at hkeeps
  have hnode := hkeeps _ hp.mem_zipIdx
  rw [h, Bool.and_eq_true] at hnode
  simp only [Bool.or_eq_true, Bool.and_eq_true, Bool.not_eq_true', bne_iff_ne,
    decide_eq_true_eq] at hnode
  refine hnode.2.resolve_right fun hno => ?_
  rcases hmodule with hmodule | hmodule
  · exact absurd (hno.1.symm.trans hmodule) nofun
  · exact hno.2.elim (fun hne => hne hmodule.1) fun hnot => hnot hmodule.2

end

/-- Where the ways back end with the end of the file, one is in a module. -/
theorem Proper.inModule {r : Rule} {σ : List Place} (h : Proper r σ) {q : Place}
    (hlast : σ.getLast? = some q) (hq : q.Ending) : r.inModule = true := by
  induction h with
  | nil => cases hlast
  | @cons r p level next σ valid call rest ih =>
    refine inModule_of_call valid call ?_
    cases σ with
    | nil =>
      obtain rfl := Option.some.inj hlast
      exact .inr hq
    | cons ret σ =>
      rw [List.getLast?_cons_cons] at hlast
      exact .inl (ih hlast)

namespace Choice

variable {C : Choice}

theorem Onward.ending {p q : Place} (h : Onward p q) (hq : q.Ending) : p.Ending := by
  induction h with
  | refl => exact hq
  | step _ hnext ih => exact ih (ending_of_next hnext hq)

/-- **The end of the file is never taken in a decision that is made outside of modules.** -/
theorem shut (hsited : Sited C.place C.callers) (hmodule : C.place.rule.inModule = false)
    (hrule : C.place.rule ≠ .compilationUnit) : C.Shut := by
  intro p σ hstems ks next hp hk
  have hending := ending_of_take hstems.valid hp hk
  have hproper := hstems.proper
  rw [hending.1] at hproper
  obtain rfl := hproper.eq_nil
  have hbase : (base C.place C.callers).Ending := hstems.onward.ending hending
  cases hlast : C.callers.getLast? with
  | none =>
    rw [base, hlast] at hbase
    exact hrule hbase.1
  | some q =>
    rw [base, hlast] at hbase
    rw [hsited.proper.inModule hlast hbase] at hmodule
    cases hmodule

/-! ## One round with unknown callers -/

/-- The configurations that the token at `j` leads to, without knowing the callers. -/
abbrev ahead (C : Choice) (limit : Nat) (s : ConfigSet) (j : Nat) : ConfigSet :=
  after (C.unknown (some C.place.rule)) limit s (kindAt C.kinds j)

/-- What holds of the configurations at the position `j` while one more operator is in question. -/
structure Foreseen (C : Choice) (limit j : Nat) (s : ConfigSet) : Prop where
  /-- There is room for all that is pending. -/
  bounded : ∃ bound, s.Every (Config.Halted false C.root bound) ∧ Margin C.kinds limit j bound
  /-- All have come from the decision. -/
  stopped : s.Every (C.Stopped j)
  /-- Whoever the callers are, a run that applies one more operator is tracked, unless it has come to
  the end of the tokens without having read a whole file. -/
  tracked : ∀ σ, Sited C.place σ → ({ C with callers := σ } : Choice).Good 1 →
    (base C.place σ).rule = .compilationUnit ∨ j < C.kinds.size →
    ∃ c τ, ({ C with callers := σ } : Choice).Tracks false s j c τ ∧ Stops c τ ∧ c.alt = 1
  /-- Then a way that applies one more operator has left the rule. -/
  left : C.kinds.size ≤ j → C.root ≠ .compilationUnit →
    ∃ (i : Nat) (d : Config), s[i]? = some d ∧ d.alt = 1 ∧ d.Allows C.level ∧ d.left = true

namespace Foreseen

variable {limit j : Nat} {s : ConfigSet}

/-- No configuration is followed too far with the next token. -/
theorem light (h : C.Foreseen limit j s) :
    (s.moved (C.unknown (some C.place.rule)) (kindAt C.kinds j)).Every (Config.Light limit) := by
  obtain ⟨bound, hhalted, hmargin⟩ := h.bounded
  have hbounded := bounded_moved (L := C.unknown (some C.place.rule)) (k := kindAt C.kinds j) hhalted
    rfl
  exact hbounded.mono fun _ hc => hc.light hmargin.round

theorem fair (h : C.Foreseen limit j s) : s.Every (Config.Fair false) :=
  h.stopped.mono fun _ hc => hc.fair

theorem limit_ge (h : C.Foreseen limit j s) : 10000000 ≤ limit := by
  obtain ⟨bound, -, hmargin⟩ := h.bounded
  exact hmargin.limit_ge

/-- A run that is tracked is not lost with the next token, whoever the callers are. -/
theorem round (h : C.Foreseen limit j s) {σ : List Place} (hsited : Sited C.place σ)
    (hgood : ({ C with callers := σ } : Choice).Good 1)
    (hends : (base C.place σ).rule = .compilationUnit ∨ behind C.kinds j < C.kinds.size) :
    ∃ c τ, ({ C with callers := σ } : Choice).Tracks false (C.ahead limit s j) (behind C.kinds j) c τ ∧
      c.alt = 1 ∧ ((C.ahead limit s j).uniqueAlt? = none → Stops c τ) := by
  have hj : behind C.kinds j < C.kinds.size → j < C.kinds.size := by
    unfold behind
    split <;> omega
  obtain ⟨c, τ, htracks, hstop, halt⟩ := h.tracked σ hsited hgood (hends.imp_right hj)
  obtain ⟨c', τ', htracks', -, hsame, hstops⟩ := htracks.local_round
    (L := C.unknown (some C.place.rule)) hstop h.fair rfl rfl rfl h.limit_ge hends
    fun ks next hp i d hd hplace π rest hτ hπ => hplace ▸ (h.light i d hd).2.burden π hπ
  exact ⟨c', τ', htracks', hsame.trans halt, hstops⟩

/-- In front of the last token some way that applies one more operator leads on, and behind it such a
way has left the rule unless a whole file has been read. -/
theorem exists_ahead (h : C.Foreseen limit j s) (hclosed : Closed C.kinds) (hloop : C.AtLoop)
    (hsited : Sited C.place C.callers) (hgood : C.Good 1) (hj : j < C.kinds.size) :
    ∃ (i : Nat) (d : Config), (C.ahead limit s j)[i]? = some d ∧ d.alt = 1 ∧ d.Allows C.level ∧
      ((C.ahead limit s j).uniqueAlt? = none → C.kinds.size ≤ j + 1 → C.root ≠ .compilationUnit →
        d.left = true) := by
  have hbehind : behind C.kinds j = j + 1 := if_pos hj
  by_cases hends : C.root = .compilationUnit ∨ behind C.kinds j < C.kinds.size
  · obtain ⟨c, τ, htracks, halt, -⟩ := h.round hsited hgood hends
    obtain ⟨i, d, hd, -, hdalt, hdlevel, -⟩ := htracks.has
    refine ⟨i, d, hd, hdalt.trans halt, fun l hl => htracks.allows l (hdlevel ▸ hl), ?_⟩
    intro _ hsize hroot
    exact hends.elim (fun heq => absurd heq hroot) fun hlt => by omega
  · obtain ⟨hroot, hlast⟩ := not_or.1 hends
    obtain ⟨c, τ, htracks, hstop, halt⟩ := h.tracked C.callers hsited hgood (.inr hj)
    have hsize : j + 1 = C.kinds.size := by omega
    obtain ⟨i, d, hd, hdalt, hallows, hleft⟩ := htracks.exists_left
      (L := C.unknown (some C.place.rule)) hstop h.stopped rfl rfl rfl h.limit_ge hclosed h.light
      hsize hroot hloop
    exact ⟨i, d, hd, hdalt.trans halt, hallows, fun hnone _ _ => hleft hnone⟩

/-- Unless one alternative is left, all that is kept up with the next token. -/
theorem next (h : C.Foreseen limit j s) (hclosed : Closed C.kinds) (hloop : C.AtLoop)
    (hsited : Sited C.place C.callers) (hgood : C.Good 1) (hj : j < C.kinds.size)
    (hnone : (C.ahead limit s j).uniqueAlt? = none) :
    C.Foreseen limit (j + 1) (C.ahead limit s j) := by
  have hbehind : behind C.kinds j = j + 1 := if_pos hj
  obtain ⟨bound, hhalted, hmargin⟩ := h.bounded
  refine
    { bounded := ⟨_, halted_after (L := C.unknown (some C.place.rule)) hhalted rfl hnone,
        hmargin.next hj⟩
      stopped := ?_, tracked := fun σ hσ hσgood hends => ?_, left := fun hsize hroot => ?_ }
  · have hstopped : (C.ahead limit s j).Every (C.Stopped (behind C.kinds j)) :=
      stopped_after (L := C.unknown (some C.place.rule)) h.stopped rfl rfl hclosed fun _ => hnone
    rwa [hbehind] at hstopped
  · obtain ⟨c, τ, htracks, halt, hstops⟩ := h.round hσ hσgood (by rwa [hbehind])
    rw [hbehind] at htracks
    exact ⟨c, τ, htracks, hstops hnone, halt⟩
  · obtain ⟨i, d, hd, halt, hallows, hleft⟩ := h.exists_ahead hclosed hloop hsited hgood hj
    exact ⟨i, d, hd, halt, hallows, hleft hnone hsize hroot⟩

/-- A way that has ended at the end of the file could belong to a whole file, and then one more operator
could be applied in it. -/
theorem exists_callers (h : C.Foreseen limit j s) (hclosed : Closed C.kinds)
    (hplace : C.place = expressionLoop) (hgood : C.Good 1) (hshifts : ¬C.Shifts)
    (hj : C.kinds.size ≤ j) (hne : (C.ahead limit s j).isEmpty = false) :
    ∃ σ, Rooted .compilationUnit C.place σ ∧ ({ C with callers := σ } : Choice).Good 1 := by
  have hend : kindAt C.kinds j = .endOfFile := kindAt_of_size_le hj
  obtain ⟨i, hi⟩ := Std.TreeMap.isEmpty_eq_false_iff_exists_mem.1 hne
  have hd := Std.TreeMap.getElem?_eq_some_getElem hi
  generalize (C.ahead limit s j)[i] = d at hd
  have hall : (C.ahead limit s j).Every (C.Stopped (behind C.kinds j)) :=
    stopped_after (L := C.unknown (some C.place.rule)) h.stopped rfl rfl hclosed fun hno =>
      absurd hend hno
  have hstopped := (hall i d hd).2
  have hfinished : java.node d.place = .finish := by
    rw [ahead, hend] at hd
    exact (finished_iff (L := C.unknown (some C.place.rule)) rfl).1
      (finished_after (L := C.unknown (some C.place.rule)) h.fair rfl i d hd).2
  obtain ⟨hbottom, hreturns⟩ := hstopped.ended hfinished
  have hrooted : Rooted .compilationUnit d.place [] :=
    ⟨⟨hstopped.fair.valid, .nil _⟩, eq_compilationUnit_of_returns hreturns⟩
  have hcompletes : C.Completes := by
    refine hstopped.completes [] (by rw [hbottom]; exact .inl rfl) hrooted (.done hfinished ?_)
    unfold behind
    split <;> omega
  exact (hcompletes.good_or_shifts hplace hgood (hgood.pos_lt hplace)).resolve_right hshifts

/-- **With unknown callers one more operator is applied**, or what is chosen with known callers. -/
theorem forecastLocal_le (h : C.Foreseen limit j s) (hclosed : Closed C.kinds)
    (hsited : Sited C.place C.callers) (hplace : C.place = expressionLoop) (hgood : C.Good 1)
    (hshifts : ¬C.Shifts) (start : Nat) (full : Bool → Forecast)
    (hfull : ∀ overrun, ∃ a, (full overrun).verdict = .take a ∧ a ≤ 1) (n : Nat)
    (hn : C.kinds.size + 1 ≤ j + n) (overrun : Bool) :
    ∃ a, (forecastLocal (C.unknown (some C.place.rule)) limit C.kinds start full n j s
      overrun).verdict = .take a ∧ a ≤ 1 := by
  induction n generalizing j s overrun with
  | zero =>
    obtain ⟨bound, -, hmargin⟩ := h.bounded
    have hpos := hmargin.pos_le
    omega
  | succ n ih =>
    by_cases hj : j < C.kinds.size
    · have hloop := atLoop_of_eq hplace
      obtain ⟨i, d, hd, halt, hallows, -⟩ := h.exists_ahead hclosed hloop hsited hgood hj
      refine forecastLocal_round start full hfull n j s overrun hd hallows (Nat.le_of_eq halt)
        fun hnone _ overrun => ?_
      rw [hclosed.next_eq hj]
      exact ih (h.next hclosed hloop hsited hgood hj hnone) (by omega) overrun
    · have hj := Nat.le_of_not_lt hj
      have hend : kindAt C.kinds j = .endOfFile := kindAt_of_size_le hj
      cases hempty : (C.ahead limit s j).isEmpty with
      | true =>
        -- No run has read a whole file, so what has left the rule decides.
        have hroot : C.root ≠ .compilationUnit := by
          intro hroot
          obtain ⟨c, τ, htracks, -⟩ := h.round hsited hgood (.inl hroot)
          rw [isEmpty_eq_false htracks.has] at hempty
          cases hempty
        obtain ⟨i, d, hd, halt, hallows, hleft⟩ := h.left hj hroot
        obtain ⟨a, ha, hended⟩ := exists_endedAlt?_le hd hleft hallows java
        refine ⟨a, ?_, halt ▸ ha⟩
        unfold forecastLocal
        dsimp only
        rw [step_eq, if_pos hempty]
        dsimp only
        rw [show (C.unknown (some C.place.rule)).net = java from rfl,
          show (C.unknown (some C.place.rule)).level = C.level from rfl, hended]
      | false =>
        obtain ⟨σ, hrooted, hσgood⟩ := h.exists_callers hclosed hplace hgood hshifts hj hempty
        obtain ⟨c, τ, htracks, halt, -⟩ := h.round hrooted.toSited hσgood (.inl hrooted.base_rule)
        obtain ⟨i, d, hd, -, hdalt, hdlevel, -⟩ := htracks.has
        refine forecastLocal_round start full hfull n j s overrun hd
          (fun l hl => htracks.allows l (hdlevel ▸ hl)) (Nat.le_of_eq (hdalt.trans halt))
          fun _ hconflicts => ?_
        rw [hend, conflicts_endOfFile (L := C.unknown (some C.place.rule)) h.fair rfl] at hconflicts
        cases hconflicts

end Foreseen

/-! ## The decision -/

/-- All that holds where the decision whether to apply one more operator begins. -/
theorem foreseen_first (hsited : Sited C.place C.callers) (hloop : C.AtLoop)
    (hpos : C.pos < C.kinds.size) {nexts : List Nat} (hp : java.node C.place = .fork nexts) :
    C.Foreseen C.wayBound C.pos (preferOperators
      (firstConfigs (C.unknown (some C.place.rule)) C.wayBound C.place .bottom).configs C.level) := by
  refine
    { bounded := ⟨_, ?_, C.margin hpos.le⟩
      stopped := ?_
      tracked := fun σ hσ hgood _ => ?_
      left := fun hsize => absurd hpos (Nat.not_lt.2 hsize) }
  · have hkeeps : Keeps (C.unknown (some C.place.rule)) _ (Config.Halted false C.root _) :=
      keeps_bounded rfl (Nat.le_add_left spanLimit C.callers.length)
    exact (every_firstConfigs hkeeps hp C.wayBound .bottom fun _ hx =>
      bounded_unknown hp hx).preferOperators (fun _ _ hc hd hkey => hc.join hd hkey)
      (fun _ hc => { hc with level := nofun }) C.level
  · exact stopped_preferOperators (stopped_firstConfigs (L := C.unknown (some C.place.rule))
      hsited.valid hp rfl rfl C.wayBound) C.level
  · have hfound := found_atLoop (C := { C with callers := σ }) hσ (.inr hpos)
      (room_wayBound hpos.le (τ := []) (Nat.zero_le _)).1 hloop hgood
    obtain ⟨c, τ, htracks, hstops, -, halt⟩ := exists_tracks_inside
      (C := { C with callers := σ }) (L := C.unknown (some C.place.rule)) rfl rfl
      (firstInside (C := { C with callers := σ }) hσ hloop hp C.wayBound) hgood hfound
    exact ⟨c, τ, htracks, hstops, halt⟩

/-- **One more operator is applied wherever that leads to the end of the parse**, even if the caller
could apply it as well. -/
theorem forecast_operator (hsited : Sited C.place C.callers)
    (hnested : Nested C.place.rule C.level C.callers) (hpos : C.pos ≤ C.kinds.size)
    (hclosed : Closed C.kinds) (hshut : C.Shut) (hplace : C.place = expressionLoop)
    (hgood : C.Good 1) :
    (forecast java C.kinds C.callers C.level C.place C.pos).verdict = .take 1 := by
  obtain ⟨nexts, hp⟩ : ∃ nexts, java.node C.place = .fork nexts := by
    obtain ⟨nexts, next, hp, -⟩ := hgood
    exact ⟨nexts, hp⟩
  have hfull (overrun : Bool) : ∃ b, (C.full overrun).verdict = .take b ∧ b ≤ 1 := by
    obtain ⟨b, hverdict, -, hleast⟩ := full_good hsited hnested hpos hclosed hgood overrun
    exact ⟨b, hverdict, hleast hshut⟩
  obtain ⟨a, hverdict, ha⟩ : ∃ a, (forecast java C.kinds C.callers C.level C.place
      C.pos).verdict = .take a ∧ a ≤ 1 := by
    by_cases hshifts : C.Shifts
    · obtain ⟨overrun, heq⟩ := forecast_of_shifts hplace hpos hshifts
      rw [heq]
      exact hfull overrun
    · rw [forecast_of_atLoop (atLoop_of_eq hplace)]
      exact (foreseen_first hsited (atLoop_of_eq hplace) (hgood.pos_lt hplace) hp).forecastLocal_le
        hclosed hsited hplace hgood hshifts _ _ hfull _ C.le_tokens _
  rw [hverdict, Nat.le_antisymm ha (forecast_take hp hverdict).1]

end Choice

end JavaOutline
