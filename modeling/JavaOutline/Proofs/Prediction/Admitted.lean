import JavaOutline.Proofs.Network.Admission
import JavaOutline.Proofs.Prediction.Bounds

/-!
# A decision chooses an alternative that admits the next token

Where the next token cannot come at the beginning of an alternative, all its ways are stuck in front
of other tokens (`Bars`): none of them reaches the end of the rule, and none survives the token. So
looking ahead never chooses such an alternative (`Choice.forecast_admitted`), whether or not the
input can be parsed.
-/

namespace JavaOutline

open Network Closure ConfigSet

/-! ## Ways that a token bars -/

/-- No token of the kind can come next at the place, nor behind the first ways back where they are
reached without a token, and their end is not reached without one. -/
def Bars (k : Kind) : Place → List Place → Prop
  | p, [] => ¬ p.Admits k
  | p, ret :: ρ => k ∉ (java.look p).kinds ∧ ((java.look p).passes = true → Bars k ret ρ)

section
variable {k : Kind} {p q : Place} {ρ : List Place}

theorem Bars.kinds (h : Bars k p ρ) : k ∉ (java.look p).kinds := by
  cases ρ with
  | nil => exact fun hk => h (.inl hk)
  | cons ret ρ => exact h.1

theorem Bars.within (h : Bars k p ρ) (hq : (java.look q).Within (java.look p)) : Bars k q ρ := by
  cases ρ with
  | nil => exact fun hk => h (hk.imp (hq.kinds k) hq.passes)
  | cons ret ρ => exact ⟨fun hk => h.1 (hq.kinds k hk), fun hpass => h.2 (hq.passes hpass)⟩

theorem Bars.call {r : Rule} {level next : Nat} (hp : java.node p = .call r level next)
    (h : Bars k p ρ) : Bars k (.start r) (p.move next :: ρ) := by
  have hvalid : p.Valid := Place.valid_of_node (by rw [hp]; nofun)
  have hlook := look_call hvalid hp
  refine ⟨fun hk => h.kinds ?_, fun hpass => h.within ⟨fun k hk => ?_, fun hnext => ?_⟩⟩
  · rw [hlook]
    split
    · exact Look.mem_through.2 (.inl hk)
    · exact hk
  · rw [hlook, if_pos hpass]
    exact Look.mem_through.2 (.inr hk)
  · rw [hlook, if_pos hpass]
    simp only
    exact hnext

/-- A way that is barred does not end. -/
theorem Bars.back (hp : java.node p = .finish) (hvalid : p.Valid) (h : Bars k p ρ) :
    ∃ ret ρ', ρ = ret :: ρ' ∧ Bars k ret ρ' := by
  have hpass : (java.look p).passes = true := by rw [look_finish hvalid hp]
  cases ρ with
  | nil => exact absurd (.of_passes hpass) h
  | cons ret ρ => exact ⟨ret, ρ, rfl, h.2 hpass⟩

/-- **A step without a token keeps a way barred.** -/
theorem Bars.drift {π τ β : List Place} (hd : Drift p π q τ) (hvalid : p.Valid) (hπ : π = ρ ++ β)
    (h : Bars k p ρ) : ∃ ρ', τ = ρ' ++ β ∧ Bars k q ρ' := by
  cases hd with
  | call hp => exact ⟨_ :: ρ, by rw [hπ]; rfl, h.call hp⟩
  | guard hp =>
    refine ⟨ρ, hπ, h.within ?_⟩
    rw [look_guard hvalid hp]
    exact Look.within_guarded _
  | fork hp hnext => exact ⟨ρ, hπ, h.within (look_fork hvalid hp hnext)⟩
  | back hp =>
    obtain ⟨ret, ρ', rfl, hback⟩ := h.back hp hvalid
    obtain ⟨rfl, hτ⟩ := List.cons.inj hπ
    exact ⟨ρ', hτ, hback⟩

end

/-! ## Configurations that a token rules out -/

namespace Config

/-- All ways of the configuration back to the ways back `β` are barred. -/
structure Barred (k : Kind) (β : List Place) (c : Config) : Prop where
  stays : c.left = false
  bars : ∀ π, c.pending.Covers false π → ∃ ρ, π = ρ ++ β ∧ Bars k c.place ρ

/-- The configuration is in front of another token, in the rule in which looking ahead began or in one
that was called there. -/
structure RuledOut (k : Kind) (c : Config) : Prop where
  stays : c.left = false
  blocked : ∃ ks next, java.node c.place = .take ks next ∧ k ∉ ks

section
variable {k : Kind} {β : List Place} {c c' : Config}

theorem Barred.step (h : c.Barred k β) (hvalid : c.place.Valid) (hon : c.LeadsOn c')
    (hleft : c'.left = c.left) : c'.Barred k β := by
  refine ⟨hleft.trans h.stays, fun τ hτ => ?_⟩
  obtain ⟨π, hπ, hd⟩ := hon.drift τ hτ
  obtain ⟨ρ, hρ, hbars⟩ := h.bars π hπ
  exact hbars.drift hd hvalid hρ

/-- A way that is barred does not come to the end of the rule in which looking ahead began. -/
theorem Barred.not_bottom (h : c.Barred k β) (hvalid : c.place.Valid)
    (hp : java.node c.place = .finish) : c.pending.hasBottom ≠ true := by
  intro hbottom
  obtain ⟨ρ, hρ, hbars⟩ := h.bars [] (Stacks.hasBottom_iff.1 hbottom)
  obtain ⟨ret, ρ', rfl, -⟩ := hbars.back hp hvalid
  cases hρ

theorem Barred.ruledOut (h : c.Barred k β) (hvalid : c.place.Valid) (hfull : c.pending.Full)
    {ks : KindSet} {next : Nat} (hp : java.node c.place = .take ks next) : c.RuledOut k := by
  obtain ⟨π, hπ⟩ := hfull.exists_covers
  obtain ⟨ρ, -, hbars⟩ := h.bars π hπ
  have hk := hbars.kinds
  rw [look_take hvalid hp] at hk
  exact ⟨h.stays, ks, next, hp, hk⟩

end

end Config

section
variable {L : Outlook} {A : Nat → Prop} {k : Kind} {β : List Place} {s : ConfigSet}

/-- The configuration belongs to an alternative in `A`, or the next token is of the kind `k` and rules
it out. -/
def Config.Settles (A : Nat → Prop) (k : Kind) (full : Bool) (c : Config) : Prop :=
  c.Fair full ∧ (A c.alt ∨ c.RuledOut k)

theorem Config.Settles.join {full : Bool} {c d : Config} (hc : c.Settles A k full)
    (hd : d.Settles A k full) (hkey : c.key = d.key) : (c.join (!full) d).Settles A k full := by
  obtain ⟨-, halt, -⟩ := hc.1.key_inj hd.1.toFine hkey
  refine ⟨hc.1.join hd.1, ?_⟩
  rcases hc.2 with hA | hout
  · exact .inl hA
  · rcases hd.2 with hA | hout'
    · exact .inl (by rw [← halt] at hA; exact hA)
    · refine .inr ⟨?_, hout.blocked⟩
      rw [Config.join, hout.stays, hout'.stays]
      rfl

/-- Ways of other alternatives than those in `A` stay barred until the next token rules them out. -/
theorem keeps_settles (hnet : L.net = java) :
    Keeps L (fun c _ => c.Fair L.full ∧ c.pending.Full ∧ (A c.alt ∨ c.Barred k β))
      (Config.Settles A k L.full) := by
  have hfair := keeps_fair hnet
  have hstep {c c' : Config} (hc : c.Fair L.full ∧ c.pending.Full ∧ (A c.alt ∨ c.Barred k β))
      (hon : c.LeadsOn c') (hc' : c'.Fair L.full) (halt : c'.alt = c.alt)
      (hleft : c'.left = c.left) :
      c'.Fair L.full ∧ c'.pending.Full ∧ (A c'.alt ∨ c'.Barred k β) :=
    ⟨hc', hon.full hc.2.1, hc.2.2.imp (fun hA => halt ▸ hA)
      fun hbarred => hbarred.step hc.1.valid hon hleft⟩
  exact
    { net := hnet
      joins := fun _ _ hc hd hkey => hc.join hd hkey
      take := fun hp hc => ⟨hc.1, hc.2.2.imp id fun h => h.ruledOut hc.1.valid hc.2.1 hp⟩
      call := fun {c d r l next} hp hc =>
        hstep hc (Config.leadsOn_call hp) (hfair.call (d := d) hp hc.1) rfl rfl
      guard := fun {c d l next} hp hc hok =>
        hstep hc (Config.leadsOn_guard hp rfl rfl) (hfair.guard (d := d) hp hc.1 hok) rfl rfl
      collect := fun {c l next} hfull hp hc =>
        hstep hc (Config.leadsOn_guard hp rfl rfl) (hfair.collect hfull hp hc.1) rfl rfl
      fork := fun {c d nexts next} hp hnext hc =>
        hstep hc (Config.leadsOn_fork hp hnext) (hfair.fork (d := d) hp hnext hc.1) rfl rfl
      finish := fun {c d} hp hbottom _ hc =>
        ⟨hc.1.bottom,
          .inl (hc.2.2.resolve_right fun h => h.not_bottom hc.1.valid hp hbottom)⟩
      out := fun {c d ret} hp hbottom hfull hret hc => by
        have hnot (h : c.Barred k β) : False :=
          h.not_bottom hc.1.valid hp (by rw [hbottom]; rfl)
        exact ⟨hfair.out (d := d) hp hbottom hfull hret hc.1, hc.2.1,
          .inl (hc.2.2.resolve_right hnot)⟩
      back := fun {c d ret below} hp hmem hc =>
        hstep hc (Config.leadsOn_back hp hmem) (hfair.back (d := d) hp hmem hc.1) rfl rfl }

/-- What has ended belongs to an alternative in `A`. -/
theorem settled_ended (hs : s.Every (Config.Settles A k L.full)) (hnet : L.net = java) {a level : Nat}
    (h : s.endedAlt? L.net level = some a) : A a := by
  obtain ⟨c, hc, rfl, hended⟩ := exists_of_endedAlt? h
  refine (hs.of_mem_values hc).2.resolve_right fun hout => ?_
  rcases hended with hleft | hfinished
  · rw [hout.stays] at hleft
    cases hleft
  · obtain ⟨ks, next, hp, -⟩ := hout.blocked
    rw [finished_iff hnet, hp] at hfinished
    cases hfinished

/-- **The next token leads only to alternatives in `A`.** -/
theorem settled_step (hs : s.Every (Config.Settles A k L.full)) (hnet : L.net = java) {limit : Nat}
    {reached : ConfigSet} {long : Bool} (h : s.step L limit k = some (reached, long)) :
    reached.Within A := by
  refine step_within_of_moved (fun j c hc => ?_) (fun c hc => ?_) h
  · have hmoved : (s.moved L k).Every fun c => A c.alt := by
      refine hs.moved hnet (fun _ _ hc _ _ => hc) fun c ks next hc hp hk => ?_
      refine hc.2.resolve_right fun hout => ?_
      obtain ⟨ks', next', hp', hno⟩ := hout.blocked
      cases hp.symm.trans hp'
      exact hno hk
    exact (hmoved j c hc).2
  · obtain ⟨⟨j, hj⟩, hfinished⟩ := mem_ended hc
    refine (hs j c hj).2.2.resolve_right fun hout => ?_
    obtain ⟨ks, next, hp, -⟩ := hout.blocked
    rw [finished_iff hnet, hp] at hfinished
    cases hfinished

end

/-! ## The choice -/

namespace Choice

variable {C : Choice} {L : Outlook} {nexts : List Nat}

/-- An alternative is admitted if its beginning admits the next token. -/
def Admitted (C : Choice) (a : Nat) : Prop :=
  ∃ nexts next, java.node C.place = .fork nexts ∧ (next, a) ∈ nexts.zipIdx 1 ∧
    (C.place.move next).Admits (kindAt C.kinds C.pos)

theorem settles_firstConfigs (hnet : L.net = java) (hp : java.node C.place = .fork nexts)
    (pending : Stacks) (hvalid : pending.All Place.Valid) (hpure : L.full = false → pending.Pure)
    (hfull : pending.Full) (β : List Place) (hβ : ∀ π, pending.Covers false π → π = β)
    (limit : Nat) : (firstConfigs L limit C.place pending).configs.Every
      (Config.Settles C.Admitted (kindAt C.kinds C.pos) L.full) := by
  refine every_firstConfigs (keeps_settles hnet (β := β)) hp limit pending fun x hx => ?_
  refine ⟨fair_first (Place.valid_of_fork hp) hp hvalid hpure hx, hfull, ?_⟩
  by_cases hk : (C.place.move x.1).Admits (kindAt C.kinds C.pos)
  · exact .inl ⟨nexts, x.1, hp, hx, hk⟩
  · exact .inr ⟨rfl, fun π hπ => ⟨[], hβ π hπ, hk⟩⟩

section
variable {limit n : Nat} {s : ConfigSet} {overrun : Bool} {a : Nat}

theorem forecastFull_admitted (hnet : L.net = java)
    (hs : s.Every (Config.Settles C.Admitted (kindAt C.kinds C.pos) L.full))
    (h : (forecastFull L limit C.kinds n C.pos s overrun).verdict = .take a) : C.Admitted a := by
  cases n with
  | zero => cases h
  | succ n =>
    exact forecastFull_take_of_step (fun _ ha => settled_ended hs hnet ha)
      (fun _ _ hstep => settled_step hs hnet hstep)
      (fun pos s overrun _ hs => forecastFull_take n pos s overrun hs) h

theorem forecastLocal_admitted (hnet : L.net = java)
    (hs : s.Every (Config.Settles C.Admitted (kindAt C.kinds C.pos) L.full)) {start : Nat}
    {full : Bool → Forecast}
    (hfull : ∀ overrun a, (full overrun).verdict = .take a → C.Admitted a)
    (h : (forecastLocal L limit C.kinds start full n C.pos s overrun).verdict = .take a) :
    C.Admitted a := by
  cases n with
  | zero => cases h
  | succ n =>
    exact forecastLocal_take_of_step hfull (fun _ ha => settled_ended hs hnet ha)
      (fun _ _ hstep => settled_step hs hnet hstep)
      (fun pos s overrun _ hs => forecastLocal_take start full hfull n pos s overrun hs) h

end

/-- **Looking ahead chooses an alternative that admits the next token.** -/
theorem forecast_admitted (hp : java.node C.place = .fork nexts)
    (hcallers : ∀ q ∈ C.callers, q.Valid) {a : Nat}
    (h : (forecast java C.kinds C.callers C.level C.place C.pos).verdict = .take a) :
    C.Admitted a := by
  have hjoins : Joins (Config.Settles C.Admitted (kindAt C.kinds C.pos) false) true :=
    fun _ _ hc hd hkey => hc.join hd hkey
  have hfree : ∀ c : Config, c.Settles C.Admitted (kindAt C.kinds C.pos) false →
      Config.Settles C.Admitted (kindAt C.kinds C.pos) false { c with level := none } :=
    fun c hc => ⟨fair_free hc.1, hc.2.imp id fun hout => ⟨hout.stays, hout.blocked⟩⟩
  have hbottom : ∀ π, Stacks.bottom.Covers false π → π = [] := 
    fun π hπ => hπ.resolve_left Bool.false_ne_true
  simp only [forecast] at h
  refine forecastLocal_admitted (by rfl) ((settles_firstConfigs (by rfl) hp .bottom trivial
    (fun _ => trivial) trivial [] hbottom _).preferOperators_ite hjoins hfree) (fun overrun b hb => ?_) h
  exact forecastFull_admitted (by rfl) (settles_firstConfigs (by rfl) hp (.ofList C.callers)
    (Stacks.all_ofList hcallers) (by rintro ⟨⟩) (Stacks.full_ofList _) C.callers
    (fun π => (Stacks.covers_ofList C.callers).1) _) hb

end Choice

end JavaOutline
