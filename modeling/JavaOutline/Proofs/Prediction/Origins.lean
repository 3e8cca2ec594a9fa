import JavaOutline.Proofs.Prediction.Bounds

/-!
# Where configurations with unknown callers come from

With unknown callers the parser follows ways that no run of its own parse takes. But all of them are
ways on from the decision: from wherever a file can be read to its end by one of them, a file could be
read to its end from the decision on, with some callers (`Choice.Possible`). A way that has not left
the rule of the decision is still in it, behind the decision, and a way that has ended is at the end of
a rule that nothing calls.
-/

namespace JavaOutline

open Network Closure ConfigSet

/-! ## Ways back -/

theorem Rooted.of_move {root : Rule} {p : Place} {next : Nat} {σ : List Place} (hp : p.Valid)
    (h : Rooted root (p.move next) σ) : Rooted root p σ :=
  ⟨⟨hp, h.proper⟩, (rule_base_move ..).symm.trans h.base_rule⟩

/-- Who has been called from a place can be called from there by other ways back. -/
theorem Proper.swap {r : Rule} {ret : Place} {σ τ : List Place} (h : Proper r (ret :: σ))
    (hτ : Proper ret.rule τ) : Proper r (ret :: τ) := by
  cases h with
  | cons valid call _ => exact .cons valid call hτ

namespace Choice

variable {C : Choice} {L : Outlook} {limit j : Nat} {s : ConfigSet} {c d : Config}

/-- A file can be read to its end from the decision on, with some callers. -/
def Completes (C : Choice) : Prop :=
  ∃ σ, Rooted .compilationUnit C.place σ ∧ Accepts C.kinds C.place σ C.pos

/-- A configuration with unknown callers that has come from the decision to the position `j`. -/
structure Possible (C : Choice) (j : Nat) (c : Config) : Prop where
  fair : c.Fair false
  sited : ∀ π, c.pending.Covers false π → Sited c.place π
  stays : c.left = false → ∀ π, c.pending.Covers false π → Onward C.place (base c.place π)
  completes : ∀ τ, c.pending.Covers true τ → Rooted .compilationUnit c.place τ →
    Accepts C.kinds c.place τ j → C.Completes

/-- The same for a configuration that has been followed: it has ended only with a rule that nothing
calls. -/
structure Stopped (C : Choice) (j : Nat) (c : Config) : Prop extends C.Possible j c where
  ended : java.node c.place = .finish →
    c.pending = .bottom ∧ java.returns c.place.rule = []

/-! ## One step of a way -/

theorem Possible.join (hc : C.Possible j c) (hd : C.Possible j d) (hkey : c.key = d.key) :
    C.Possible j (c.join true d) := by
  obtain ⟨hplace, -⟩ := hc.fair.key_inj hd.fair.toFine hkey
  refine ⟨hc.fair.join hd.fair, fun π hπ => ?_, fun hleft π hπ => ?_, fun τ hτ => ?_⟩
  · rcases Stacks.covers_of_merge hπ with hπ | hπ
    · exact (congrArg (Sited · π) hplace).mpr (hd.sited π hπ)
    · exact hc.sited π hπ
  · obtain ⟨hcleft, hdleft⟩ := Bool.or_eq_false_iff.1 hleft
    rcases Stacks.covers_of_merge hπ with hπ | hπ
    · exact (congrArg (fun p => Onward C.place (base p π)) hplace).mpr (hd.stays hdleft π hπ)
    · exact hc.stays hcleft π hπ
  · rcases Stacks.covers_merge.1 hτ with hτ | hτ
    · intro hrooted haccepts
      exact hd.completes τ hτ (hplace ▸ hrooted) (hplace ▸ haccepts)
    · exact hc.completes τ hτ

theorem Stopped.join (hc : C.Stopped j c) (hd : C.Stopped j d) (hkey : c.key = d.key) :
    C.Stopped j (c.join true d) := by
  obtain ⟨hplace, -⟩ := hc.fair.key_inj hd.fair.toFine hkey
  refine ⟨hc.toPossible.join hd.toPossible hkey, fun hp => ?_⟩
  obtain ⟨hcbottom, hreturns⟩ := hc.ended hp
  refine ⟨?_, hreturns⟩
  rw [Config.join, hcbottom, (hd.ended (hplace ▸ hp)).1]
  rfl

/-- A step within the rule. -/
theorem Possible.move (hc : C.Possible j c) {next : Nat} (hplace : d.place = c.place.move next)
    (hpending : d.pending = c.pending) (hleft : d.left = c.left) (hfair : d.Fair false)
    (hnext : next ∈ (java.node c.place).nexts)
    (hdrift : ∀ σ, Drift c.place σ (c.place.move next) σ) : C.Possible j d := by
  refine ⟨hfair, fun π hπ => ?_, fun hno π hπ => ?_, fun τ hτ hrooted haccepts => ?_⟩
  · rw [hplace]
    exact (hc.sited π (hpending ▸ hπ)).drift (hdrift π)
  · rw [hplace]
    exact (hc.stays (hleft ▸ hno) π (hpending ▸ hπ)).move hnext
  · rw [hplace] at hrooted haccepts
    exact hc.completes τ (hpending ▸ hτ) (hrooted.of_move hc.fair.valid) (.drift (hdrift τ) haccepts)

/-- **Each step of a way with unknown callers is one of a run with some callers.** -/
theorem keeps_possible (hnet : L.net = java) (hfull : L.full = false) :
    Keeps L (fun c _ => C.Possible j c) (C.Stopped j) := by
  have hfair := hfull ▸ keeps_fair hnet
  exact
    { net := hnet
      joins := fun c d hc hd hkey => by
        rw [hfull]
        exact hc.join hd hkey
      take := fun hp hc => ⟨hc, fun hp' => by cases hp.symm.trans hp'⟩
      call := fun {c d r l next} hp hc => by
        refine ⟨hfair.call (d := d) hp hc.fair, fun π hπ => ?_, fun hleft π hπ => ?_,
          fun τ hτ hrooted haccepts => ?_⟩
        · obtain ⟨σ, rfl, hσ⟩ := Stacks.covers_push.1 hπ
          exact (hc.sited σ hσ).drift (.call hp)
        · obtain ⟨σ, rfl, hσ⟩ := Stacks.covers_push.1 hπ
          rw [base_cons]
          exact (hc.stays hleft σ hσ).move (by simp [hp, Node.nexts])
        · obtain ⟨σ, rfl, hσ⟩ := Stacks.covers_push.1 hτ
          have hback : Rooted .compilationUnit (c.place.move next) σ :=
            ⟨hrooted.back, by rw [← hrooted.base_rule, base_cons]⟩
          exact hc.completes σ hσ (hback.of_move hc.fair.valid) (.drift (.call hp) haccepts)
      guard := fun {c d l next} hp hc hok =>
        hc.move rfl rfl rfl (hfair.guard (d := d) hp hc.fair hok) (by simp [hp, Node.nexts])
          fun _ => .guard hp
      collect := fun {c l next} _ hp hc =>
        hc.move rfl rfl rfl (hfair.collect hfull hp hc.fair) (by simp [hp, Node.nexts])
          fun _ => .guard hp
      fork := fun {c d nexts next} hp hnext hc =>
        hc.move rfl rfl rfl (hfair.fork (d := d) hp hnext hc.fair)
          (by simpa [hp, Node.nexts] using hnext) fun _ => .fork hp hnext
      finish := fun {c d} hp hbottom hreturns hc => by
        have heq : c.pending = .bottom :=
          ((hc.fair.pure rfl).hasBottom).resolve_right fun hno => by
            rw [hbottom] at hno
            cases hno
        rw [← heq]
        exact ⟨hc, fun _ => ⟨heq, hreturns hfull heq⟩⟩
      out := fun {c d ret} hp hbottom _ hret hc => by
        have hout := hfair.out (d := d) hp hbottom hfull hret hc.fair
        refine ⟨hout, fun π hπ => ?_, by rintro ⟨⟩, fun τ hτ hrooted haccepts => ?_⟩
        · rw [Config.leaveTo, hbottom] at hπ
          obtain rfl := hπ.resolve_left Bool.false_ne_true
          exact ⟨hout.valid, .nil _⟩
        · obtain ⟨p, next, hvalid, hcall, hplace⟩ := mem_returns_iff.1 hret
          have hproper : Proper c.place.rule (ret.place :: τ) := by
            have h : Proper ret.place.rule τ := hrooted.proper
            rw [hplace] at h ⊢
            exact .cons hvalid hcall h
          refine hc.completes (ret.place :: τ) (by rw [hbottom]; exact .inl rfl)
            ⟨⟨hc.fair.valid, hproper⟩, ?_⟩ (.drift (.back hp) haccepts)
          rw [base_cons]
          exact hrooted.base_rule
      back := fun {c d ret below} hp hmem hc => by
        refine ⟨hfair.back (d := d) hp hmem hc.fair, fun π hπ => ?_, fun hleft π hπ => ?_,
          fun τ hτ hrooted haccepts => ?_⟩
        · exact (hc.sited _ (Stacks.covers_of_mem_tops hmem hπ)).back
        · have hstays := hc.stays hleft _ (Stacks.covers_of_mem_tops hmem hπ)
          rwa [base_cons] at hstays
        · obtain ⟨π, -, -, hπ⟩ := Stacks.covers_true.1 hτ
          have hproper := (hc.sited _ (Stacks.covers_of_mem_tops hmem hπ)).proper.swap hrooted.proper
          refine hc.completes _ (Stacks.covers_of_mem_tops hmem hτ) ⟨⟨hc.fair.valid, hproper⟩, ?_⟩
            (.drift (.back hp) haccepts)
          rw [base_cons]
          exact hrooted.base_rule }

/-! ## One token further -/

theorem Possible.take (hc : C.Possible j c) {ks : KindSet} {next : Nat}
    (hp : java.node c.place = .take ks next) (hk : kindAt C.kinds j ∈ ks) :
    C.Possible (behind C.kinds j) (c.move next) := by
  have hfair : (c.move next).Fair false := { hc.fair with valid := hc.fair.valid.take hp }
  refine ⟨hfair, fun π hπ => (hc.sited π hπ).take hp, fun hleft π hπ => ?_,
    fun τ hτ hrooted haccepts => ?_⟩
  · exact (hc.stays hleft π hπ).move (by simp [hp, Node.nexts])
  · exact hc.completes τ hτ (hrooted.of_move hc.fair.valid) (.take hp hk haccepts)

/-- Unless one alternative is left in front of the end of the file, all configurations behind a token
come from the decision, if those in front of it do. -/
theorem stopped_after (hs : s.Every (C.Stopped j)) (hnet : L.net = java) (hfull : L.full = false)
    (hclosed : Closed C.kinds)
    (hunique : kindAt C.kinds j ≠ .endOfFile →
      (after L limit s (kindAt C.kinds j)).uniqueAlt? = none) :
    (after L limit s (kindAt C.kinds j)).Every (C.Stopped (behind C.kinds j)) := by
  have hmoved : (s.moved L (kindAt C.kinds j)).Every (C.Possible (behind C.kinds j)) :=
    hs.moved hnet (fun _ _ hc hd hkey => by rw [hfull]; exact hc.join hd hkey)
      fun _ _ _ hc hp hk => hc.toPossible.take hp hk
  have hended (c : Config) (hc : c ∈ s.ended L (kindAt C.kinds j)) :
      C.Stopped (behind C.kinds j) c := by
    -- Without known callers only what has ended at the end of the file counts.
    obtain ⟨⟨i, hi⟩, -⟩ := mem_ended hc
    have hend : kindAt C.kinds j = .endOfFile := by
      unfold ConfigSet.ended at hc
      rw [hfull, Bool.false_or] at hc
      split at hc
      · rename_i heq
        exact beq_iff_eq.1 heq
      · cases hc
    have hbehind : behind C.kinds j = j := if_neg (Nat.not_lt.2 (hclosed j hend))
    rw [hbehind]
    exact (hs i c hi).2
  rcases followed_cases L limit (s.moved L (kindAt C.kinds j))
    ((ended L s (kindAt C.kinds j)).isEmpty && kindAt C.kinds j != .endOfFile) with
    ⟨heq, hone, a, ha⟩ | heq
  · rw [after_eq_moved heq hone, ha] at hunique
    rw [Bool.and_eq_true, bne_iff_ne] at hone
    cases hunique hone.2
  · have hkeeps : Keeps { L with guards := false } _ (C.Stopped (behind C.kinds j)) :=
      keeps_possible hnet hfull
    have hall : (kept L (kindAt C.kinds j)
        (followAll L limit (s.moved L (kindAt C.kinds j)))).Every _ := (hkeeps.followAll hmoved).kept
    rw [ConfigSet.after, heq]
    split
    · exact hall.foldl_add hkeeps.joins hended
    · exact hall

/-- With unknown callers all configurations with which looking ahead begins come from the decision. -/
theorem stopped_firstConfigs (hvalid : C.place.Valid) {nexts : List Nat}
    (hp : java.node C.place = .fork nexts) (hnet : L.net = java) (hfull : L.full = false)
    (limit : Nat) : (firstConfigs L limit C.place .bottom).configs.Every (C.Stopped C.pos) := by
  refine every_firstConfigs (keeps_possible hnet hfull) hp limit .bottom fun x hx => ?_
  have hpure : false = false → Stacks.bottom.Pure := fun _ => trivial
  have hall : Stacks.bottom.All Place.Valid := trivial
  have hfair : (C.first .bottom x).Fair false := fair_first hvalid hp hall hpure hx
  refine ⟨hfair, fun π hπ => ?_, fun _ π hπ => ?_, fun τ _ hrooted haccepts => ?_⟩
  · obtain rfl := hπ.resolve_left nofun
    exact ⟨hfair.valid, .nil _⟩
  · obtain rfl := hπ.resolve_left nofun
    exact .step .refl (by simpa [hp, Node.nexts] using List.fst_mem_of_mem_zipIdx hx)
  · exact ⟨τ, hrooted.of_move hvalid, .drift (.fork hp (List.fst_mem_of_mem_zipIdx hx)) haccepts⟩

/-- Preferring operators keeps that. -/
theorem stopped_preferOperators (hs : s.Every (C.Stopped j)) (level : Nat) :
    (s.preferOperators level).Every (C.Stopped j) :=
  hs.preferOperators (fun _ _ hc hd hkey => hc.join hd hkey) (fun _ hc =>
    ⟨⟨{ hc.fair with level := nofun }, hc.sited, hc.stays, hc.completes⟩, hc.ended⟩) level

end Choice

end JavaOutline
