import JavaOutline.Proofs.Prediction.Configs

/-!
# What a set of configurations says about the alternatives

The ways in which a set of configurations settles the decision: one alternative is left
(`alt_eq_of_uniqueAlt?`), the guards strike out others (`mem_guarded?`), or all alternatives that go
on share their places and stacks (`exists_of_resolved?`, `resolved?_isSome`).
-/

namespace JavaOutline

namespace ConfigSet

variable {s : ConfigSet} {c : Config} {k a level : Nat} {alts as : List Nat}

/-! ## One alternative left -/

theorem mem_alts (h : s[k]? = some c) : c.alt ∈ s.alts := by
  rw [alts, Std.TreeMap.foldl_eq_foldl_toList]
  refine foldl_of_mem (Q := fun _ => True) (fun _ _ _ _ => trivial)
    (Std.TreeMap.mem_toList_iff_getElem?_eq_some.2 h) (fun as _ => ?_) (fun as d _ _ hc => ?_) trivial
  · split
    · rename_i hmem
      exact List.contains_iff_mem.1 hmem
    · exact List.mem_cons_self
  · split
    · exact hc
    · exact List.mem_cons_of_mem _ hc

/-- If only one alternative is left, all configurations belong to it. -/
theorem alt_eq_of_uniqueAlt? (h : s.uniqueAlt? = some a) (hc : s[k]? = some c) : c.alt = a := by
  have hmem := mem_alts hc
  unfold uniqueAlt? at h
  split at h
  · rename_i b hb
    cases h
    rw [hb] at hmem
    exact List.mem_singleton.1 hmem
  · cases h

/-! ## Guards -/

theorem le_foldl_max (ns : List Nat) (m : Nat) :
    m ≤ ns.foldl max m ∧ ∀ n ∈ ns, n ≤ ns.foldl max m := by
  induction ns generalizing m with
  | nil => exact ⟨Nat.le_refl m, nofun⟩
  | cons n ns ih =>
    obtain ⟨hm, hns⟩ := ih (max m n)
    refine ⟨by rw [List.foldl_cons]; omega, List.forall_mem_cons.2 ⟨?_, hns⟩⟩
    rw [List.foldl_cons]
    omega

/-- An alternative is not struck out if the guards of one of its ways allow it. -/
theorem mem_guarded? (hc : s[k]? = some c) (hallows : c.Allows level) (hmem : c.alt ∈ alts)
    (h : s.guarded? alts level = some as) : c.alt ∈ as := by
  simp only [guarded?] at h
  split at h
  · cases h
  · cases h
    refine List.mem_map.2 ⟨(c.alt, s.guardOf c.alt), List.mem_filter.2 ⟨List.mem_map.2
      ⟨c.alt, hmem, rfl⟩, ?_⟩, rfl⟩
    dsimp only
    split
    · rfl
    · rename_i n hn
      have hlevel : c.level ∈ (s.values.filter fun d => d.alt == c.alt).map (·.level) :=
        List.mem_map.2 ⟨c, List.mem_filter.2 ⟨mem_values_iff.2 ⟨k, hc⟩, by simp⟩, rfl⟩
      simp only [guardOf] at hn
      split at hn
      · cases hn
      · rename_i hfree
        cases hl : c.level with
        | none =>
          rw [hl] at hlevel
          exact absurd (List.contains_iff_mem.2 hlevel) hfree
        | some l =>
          rw [hl] at hlevel
          have hle := (le_foldl_max (((s.values.filter fun d => d.alt == c.alt).map
            (·.level)).filterMap id) 0).2 l (List.mem_filterMap.2 ⟨_, hlevel, rfl⟩)
          rw [decide_eq_true_eq, ← Option.some.inj hn]
          exact Nat.le_trans (hallows l hl) hle

/-! ## Alternatives that share a place and all stacks there -/

/-- The groups of `byStacks`. -/
def groups (cs : List Config) : List (Stacks × List Nat) :=
  cs.foldl (fun gs c =>
    if gs.any fun g => g.1 == c.pending then
      gs.map fun g => if g.1 == c.pending then (g.1, c.alt :: g.2) else g
    else (c.pending, [c.alt]) :: gs) []

/-- Configurations with the same stacks are in one group. -/
theorem groups_eq_singleton {cs : List Config} {pending : Stacks} (hc : c ∈ cs)
    (h : ∀ d ∈ cs, d.pending = pending) : ∃ as, as ≠ [] ∧ groups cs = [(pending, as)] := by
  have hstep (as : List Nat) (d : Config) (hd : d ∈ cs) :
      (if [(pending, as)].any fun g => g.1 == d.pending then
        [(pending, as)].map fun g => if g.1 == d.pending then (g.1, d.alt :: g.2) else g
        else (d.pending, [d.alt]) :: [(pending, as)]) = [(pending, d.alt :: as)] := by
    simp [h d hd]
  refine foldl_of_mem (P := fun gs : List (Stacks × List Nat) => ∃ as, as ≠ [] ∧
    gs = [(pending, as)]) (Q := fun gs => gs = [] ∨ ∃ as, as ≠ [] ∧ gs = [(pending, as)])
    (fun gs d hd hgs => .inr ?_) hc (fun gs hgs => ?_) (fun gs d hd _ hgs => ?_) (.inl rfl)
  · rcases hgs with rfl | ⟨as, -, rfl⟩
    · exact ⟨[d.alt], nofun, by simp [h d hd]⟩
    · exact ⟨d.alt :: as, nofun, hstep as d hd⟩
  · rcases hgs with rfl | ⟨as, -, rfl⟩
    · exact ⟨[c.alt], nofun, by simp [h c hc]⟩
    · exact ⟨c.alt :: as, nofun, hstep as c hc⟩
  · obtain ⟨as, -, rfl⟩ := hgs
    exact ⟨d.alt :: as, nofun, hstep as d hd⟩

/-- Every configuration is in the group of its stacks. -/
theorem exists_mem_groups {cs : List Config} (hc : c ∈ cs) :
    ∃ g ∈ groups cs, g.1 = c.pending ∧ c.alt ∈ g.2 := by
  refine foldl_of_mem (P := fun gs : List (Stacks × List Nat) =>
    ∃ g ∈ gs, g.1 = c.pending ∧ c.alt ∈ g.2) (Q := fun _ => True) (fun _ _ _ _ => trivial) hc
    (fun gs _ => ?_) (fun gs d _ _ h => ?_) trivial
  · split
    · rename_i hany
      obtain ⟨g, hg, heq⟩ := List.any_eq_true.1 hany
      refine ⟨(g.1, c.alt :: g.2), List.mem_map.2 ⟨g, hg, if_pos heq⟩, beq_iff_eq.1 heq,
        List.mem_cons_self⟩
    · exact ⟨_, List.mem_cons_self, rfl, List.mem_singleton_self _⟩
  · obtain ⟨g, hg, hpending, halt⟩ := h
    split
    · refine ⟨_, List.mem_map.2 ⟨g, hg, rfl⟩, ?_⟩
      split
      · exact ⟨hpending, List.mem_cons_of_mem _ halt⟩
      · exact ⟨hpending, halt⟩
    · exact ⟨g, List.mem_cons_of_mem _ hg, hpending, halt⟩

/-- All of a group have its stacks. -/
theorem exists_of_mem_groups {cs : List Config} {g : Stacks × List Nat} (hg : g ∈ groups cs)
    (ha : a ∈ g.2) : ∃ d ∈ cs, d.alt = a ∧ d.pending = g.1 := by
  have hall : ∀ g ∈ groups cs, ∀ a ∈ g.2, ∃ d ∈ cs, d.alt = a ∧ d.pending = g.1 := by
    refine List.foldlRecOn (motive := fun gs : List (Stacks × List Nat) => ∀ g ∈ gs, ∀ a ∈ g.2,
      ∃ d ∈ cs, d.alt = a ∧ d.pending = g.1) cs _ nofun fun gs hgs c hc => ?_
    split
    · intro g hg a ha
      obtain ⟨g', hg', rfl⟩ := List.mem_map.1 hg
      split at ha
      · rename_i heq
        rw [if_pos heq]
        rcases List.mem_cons.1 ha with rfl | ha
        · exact ⟨c, hc, rfl, (beq_iff_eq.1 heq).symm⟩
        · exact hgs g' hg' a ha
      · rename_i heq
        rw [if_neg heq]
        exact hgs g' hg' a ha
    · intro g hg a ha
      rcases List.mem_cons.1 hg with rfl | hg
      · exact ⟨c, hc, (List.mem_singleton.1 ha).symm, rfl⟩
      · exact hgs g hg a ha
  exact hall g hg a ha

theorem place_eq_of_mem_byPlace {cs : List Config} (hcs : cs ∈ s.byPlace) {d : Config}
    (hc : c ∈ cs) (hd : d ∈ cs) : c.place = d.place := by
  have hchain := List.isChain_of_mem_splitBy hcs
  have hpairwise : cs.Pairwise fun c d : Config => c.place = d.place := by
    have : IsTrans Config fun c d : Config => c.place = d.place := ⟨fun _ _ _ h h' => h.trans h'⟩
    exact List.isChain_iff_pairwise.1 (hchain.imp fun _ _ h => beq_iff_eq.1 h)
  have : Std.Symm fun c d : Config => c.place = d.place := ⟨fun _ _ h => h.symm⟩
  exact List.Pairwise.forall_of_forall (R := fun c d : Config => c.place = d.place)
    (fun _ _ => rfl) hpairwise hc hd

/-- Every alternative is among the rivals at its place with its stacks. -/
theorem exists_mem_rivals (hc : s[k]? = some c) : ∃ as ∈ s.rivals, c.alt ∈ as ∧
    ∀ a ∈ as, ∃ (j : Nat) (d : Config), s[j]? = some d ∧ d.alt = a ∧ d.place = c.place ∧
      d.pending = c.pending := by
  have hmem : c ∈ s.byPlace.flatten := by
    rw [byPlace, List.flatten_splitBy]
    exact mem_values_iff.2 ⟨k, hc⟩
  obtain ⟨cs, hcs, hc⟩ := List.mem_flatten.1 hmem
  obtain ⟨g, hg, hpending, halt⟩ := exists_mem_groups hc
  refine ⟨g.2.eraseDups, List.mem_flatMap.2 ⟨cs, hcs, List.mem_map.2 ⟨g, hg, rfl⟩⟩,
    List.mem_eraseDups.2 halt, fun a ha => ?_⟩
  obtain ⟨d, hd, hdalt, hdpending⟩ := exists_of_mem_groups hg (List.mem_eraseDups.1 ha)
  have hvalues : d ∈ s.values := by
    rw [← List.flatten_splitBy (fun c d : Config => c.place == d.place) s.values]
    exact List.mem_flatten_of_mem hcs hd
  obtain ⟨j, hj⟩ := mem_values_iff.1 hvalues
  exact ⟨j, d, hj, hdalt, place_eq_of_mem_byPlace hcs hd hc, hdpending.trans hpending⟩

theorem foldl_min_le (ns : List Nat) (m : Nat) :
    ns.foldl min m ≤ m ∧ ∀ n ∈ ns, ns.foldl min m ≤ n := by
  induction ns generalizing m with
  | nil => exact ⟨Nat.le_refl m, nofun⟩
  | cons n ns ih =>
    obtain ⟨hle, hmem⟩ := ih (min m n)
    refine ⟨Nat.le_trans hle (Nat.min_le_left m n), List.forall_mem_cons.2 ⟨?_, hmem⟩⟩
    exact Nat.le_trans hle (Nat.min_le_right m n)

theorem le_of_least? {ns : List Nat} {n m : Nat} (h : least? ns = some n) (hm : m ∈ ns) :
    n ≤ m := by
  cases ns with
  | nil => cases hm
  | cons x xs =>
    obtain rfl := Option.some.inj h
    rcases List.mem_cons.1 hm with rfl | hm
    · exact (foldl_min_le xs m).1
    · exact (foldl_min_le xs x).2 m hm

/-- Where a configuration has left the rule with operators that are allowed, no alternative behind its
own is chosen. -/
theorem exists_endedAlt?_le (hc : s[k]? = some c) (hleft : c.left = true)
    (hallows : c.Allows level) (N : Network) : ∃ a ≤ c.alt, s.endedAlt? N level = some a := by
  have hmem : c.alt ∈ (((s.values.filter fun c => c.left ||
      (finished N c && c.pending.hasBottom)).filter (·.allows level)).map (·.alt)) := by
    refine List.mem_map_of_mem (List.mem_filter.2 ⟨List.mem_filter.2 ⟨?_, ?_⟩, ?_⟩)
    · exact mem_values_iff.2 ⟨k, hc⟩
    · rw [hleft, Bool.true_or]
    · exact Config.allows_iff.2 hallows
  simp only [ConfigSet.endedAlt?]
  split
  · rename_i a ha
    exact ⟨a, le_of_least? ha hmem, rfl⟩
  · rename_i hnone
    generalize List.map _ _ = as at hmem hnone
    cases as with
    | nil => cases hmem
    | cons n ns => cases hnone

/-- The alternative that is left shares place and stacks with every configuration, and comes before
its alternative. -/
theorem exists_of_resolved? (h : s.resolved? = some a) (hc : s[k]? = some c) :
    a ≤ c.alt ∧ ∃ (j : Nat) (d : Config), s[j]? = some d ∧ d.alt = a ∧ d.place = c.place ∧
      d.pending = c.pending := by
  obtain ⟨as, has, halt, hall⟩ := exists_mem_rivals hc
  unfold resolved? at h
  split at h
  · rename_i b hb
    cases h
    cases hleast : least? as with
    | none =>
      cases as with
      | nil => cases halt
      | cons n ns => cases hleast
    | some n =>
      have hn : n ∈ (s.rivals.filterMap least?).eraseDups :=
        List.mem_eraseDups.2 (List.mem_filterMap.2 ⟨as, has, hleast⟩)
      rw [hb, List.mem_singleton] at hn
      exact ⟨hn ▸ le_of_least? hleast halt, hall a (hn ▸ least?_mem hleast)⟩
  · cases h

/-- If all configurations share a place and all stacks there, one alternative is left. -/
theorem resolved?_isSome (p : Place) (pending : Stacks) (hc : s[k]? = some c)
    (h : ∀ (j : Nat) (d : Config), s[j]? = some d → d.place = p ∧ d.pending = pending) :
    ∃ a, s.resolved? = some a := by
  have hvalues : ∀ d ∈ s.values, d.place = p ∧ d.pending = pending := fun d hd => by
    obtain ⟨j, hj⟩ := mem_values_iff.1 hd
    exact h j d hj
  have hne : s.values ≠ [] := List.ne_nil_of_mem (mem_values_iff.2 ⟨k, hc⟩)
  have hplace : s.byPlace = [s.values] := by
    refine List.splitBy_of_isChain hne (List.Pairwise.isChain ?_)
    refine List.Pairwise.imp_of_mem (R := fun _ _ => True) (fun {c d} hc hd _ => ?_)
      (List.pairwise_of_forall fun _ _ => trivial)
    rw [beq_iff_eq, (hvalues c hc).1, (hvalues d hd).1]
  obtain ⟨as, has, hgroups⟩ := groups_eq_singleton (mem_values_iff.2 ⟨k, hc⟩)
    fun d hd => (hvalues d hd).2
  have hrivals : s.rivals = [as.eraseDups] := by
    rw [rivals, hplace, List.flatMap_singleton]
    exact congrArg (List.map fun g : Stacks × List Nat => g.2.eraseDups) hgroups
  obtain ⟨n, ns, hns⟩ : ∃ n ns, as.eraseDups = n :: ns := by
    obtain ⟨n, hn⟩ := List.exists_mem_of_ne_nil as has
    exact List.exists_cons_of_ne_nil (List.ne_nil_of_mem (List.mem_eraseDups.2 hn))
  refine ⟨ns.foldl min n, ?_⟩
  rw [resolved?, hrivals, hns]
  rfl

end ConfigSet

end JavaOutline
