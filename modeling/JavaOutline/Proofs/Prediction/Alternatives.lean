import Mathlib.Data.List.SplitBy
import JavaOutline.Prediction.Forecast

/-!
# Looking ahead chooses one of the alternatives

However far the parser looks ahead, and whatever it finds, the alternative that it chooses is one
of those of the decision (`forecast_take`). The argument follows the configurations: those with
which looking ahead begins carry the number of an alternative each (`firstConfigs_within`), every
later one takes over the number of an earlier one (`Closure.follow_within`, `ConfigSet.step_within`),
and a choice is always the number of some configuration.
-/

namespace JavaOutline

namespace ConfigSet

/-- All configurations of the set belong to alternatives in `A`. -/
def Within (A : Nat → Prop) (s : ConfigSet) : Prop :=
  ∀ (k : Nat) (c : Config), s[k]? = some c → A c.alt

variable {A : Nat → Prop} {s : ConfigSet}

theorem within_empty : Within A ∅ := by
  intro k c h
  simp at h

/-- `Within` in terms of the list of configurations. -/
theorem Within.of_mem_toList (h : Within A s) {k : Nat} {c : Config} (hmem : (k, c) ∈ s.toList) :
    A c.alt :=
  h k c (Std.TreeMap.mem_toList_iff_getElem?_eq_some.1 hmem)

/-- The values of a map are the second components of its list. -/
theorem values_eq (s : ConfigSet) : s.values = s.toList.map (·.2) := by
  unfold Std.TreeMap.values Std.TreeMap.toList Std.DTreeMap.values Std.DTreeMap.Const.toList
  rw [Std.DTreeMap.Internal.Impl.values_eq_map_snd,
    Std.DTreeMap.Internal.Impl.Const.toList_eq_toListModel_map, List.map_map]
  rfl

/-- `Within` in terms of the values. -/
theorem Within.of_mem_values (h : Within A s) {c : Config} (hmem : c ∈ s.values) : A c.alt := by
  rw [values_eq, List.mem_map] at hmem
  obtain ⟨⟨k, d⟩, hkd, rfl⟩ := hmem
  exact h.of_mem_toList hkd

/-- A configuration of an alternative in `A` may be added. -/
theorem Within.add (h : Within A s) {c : Config} (hc : A c.alt) (wild : Bool) :
    Within A (s.add wild c) := by
  intro k d hd
  rw [ConfigSet.add, Std.TreeMap.getElem?_alter] at hd
  split at hd
  · split at hd
    · cases hd
      exact hc
    · rename_i e he
      cases hd
      exact h _ e he
  · exact h k d hd

/-- What every configuration in `A` preserves, going through the whole set preserves. -/
theorem Within.foldl {δ : Type} {P : δ → Prop} {f : δ → Nat → Config → δ} {init : δ}
    (h : Within A s) (hinit : P init) (hf : ∀ d k c, P d → A c.alt → P (f d k c)) :
    P (s.foldl f init) := by
  rw [Std.TreeMap.foldl_eq_foldl_toList]
  refine List.foldlRecOn s.toList _ hinit fun d hd b hb => ?_
  exact hf d b.1 b.2 hd (h.of_mem_toList hb)

/-- A part of a set stays within what the set is within. -/
theorem Within.filter (h : Within A s) (f : Nat → Config → Bool) : Within A (s.filter f) := by
  intro k c hc
  rw [← Std.TreeMap.mem_toList_iff_getElem?_eq_some, Std.TreeMap.toList_filter,
    List.mem_filter] at hc
  exact h.of_mem_toList hc.1

end ConfigSet

/-! ## Following a way -/

namespace Closure

variable {A : Nat → Prop} {L : Outlook}

/-- One more configuration of an alternative in `A`. -/
theorem add_within {s : Closure} {c : Config} (hs : s.configs.Within A) (hc : A c.alt) :
    (s.add L c).configs.Within A :=
  hs.add hc _

/-- A way never changes its alternative, so all configurations that it leads to are of that one,
provided that this holds where it leaves the rule. -/
theorem followWith_within {leave : Config → Closure → Closure}
    (hleave : ∀ c s, s.configs.Within A → A c.alt → (leave c s).configs.Within A) (n : Nat)
    (c : Config) (depth : Option Nat) (s : Closure) (hs : s.configs.Within A) (hc : A c.alt) :
    (followWith L leave n c depth s).configs.Within A := by
  induction n generalizing c depth s with
  | zero => exact hs
  | succ n ih =>
    unfold followWith
    split
    · exact add_within hs hc
    · exact ih _ _ _ hs hc
    · split
      · split
        · split
          · exact ih _ _ _ hs hc
          · exact hs
        · exact ih _ _ _ hs hc
      · exact ih _ _ _ hs hc
    · -- All ways on from a fork are followed one after the other.
      exact List.foldlRecOn (motive := fun t : Closure => t.configs.Within A) _ _ hs
        fun t ht next _ => ih _ _ t ht hc
    · split
      · split
        · exact add_within hs hc
        · split
          · exact add_within hs hc
          · refine List.foldlRecOn (motive := fun t : Closure => t.configs.Within A) _ _ hs
              fun t ht ret _ => ?_
            dsimp only
            split
            · exact ht
            · exact hleave _ _ ht hc
      · refine List.foldlRecOn (motive := fun t : Closure => t.configs.Within A) _ _ ?_
          fun t ht ret _ => ih _ _ t ht hc
        split
        · exact add_within hs hc
        · exact hs

/-- All configurations that a way leads to are of its own alternative. -/
theorem follow_within (limit : Nat) (c : Config) (depth : Option Nat) (s : Closure)
    (hs : s.configs.Within A) (hc : A c.alt) : (follow L limit c depth s).configs.Within A := by
  have hout (m : Nat) : ∀ (c : Config) (depth : Option Nat) (s : Closure), s.configs.Within A →
      A c.alt → (followOut L limit m c depth s).configs.Within A := by
    induction m with
    | zero =>
      have hstop : ∀ (c : Config) (s : Closure), s.configs.Within A → A c.alt →
          ({ s with overrun := true } : Closure).configs.Within A := fun _ _ hs _ => hs
      exact followWith_within hstop limit
    | succ m ih => exact followWith_within (fun c s => ih c none s) limit
  exact hout limit c depth s hs hc

end Closure

/-! ## Taking a token and choosing -/

namespace ConfigSet

variable {A : Nat → Prop} {L : Outlook} {s : ConfigSet}

theorem Within.moved (hs : s.Within A) (k : Kind) : (s.moved L k).Within A := by
  refine hs.foldl within_empty fun t _ c ht hc => ?_
  split
  · split
    · refine ht.add ?_ _
      exact hc
    · exact ht
  · exact ht

theorem Within.ended (hs : s.Within A) {k : Kind} {c : Config} (hc : c ∈ s.ended L k) :
    A c.alt := by
  unfold ConfigSet.ended at hc
  split at hc
  · exact hs.of_mem_values (List.mem_filter.1 hc).1
  · cases hc

theorem Within.followed (hs : s.Within A) (limit : Nat) (unique : Bool) :
    (s.followed L limit unique).configs.Within A := by
  unfold ConfigSet.followed
  split
  · exact hs
  · exact hs.foldl (P := fun t : Closure => t.configs.Within A) within_empty
      fun t _ c ht hc => Closure.follow_within _ _ _ t ht hc

/-- What a token leads to is of the alternatives of what is behind the token or has ended. -/
theorem step_within_of_moved {limit : Nat} {k : Kind} {reached : ConfigSet} {long : Bool}
    (hmoved : (s.moved L k).Within A) (hended : ∀ c ∈ s.ended L k, A c.alt)
    (h : s.step L limit k = some (reached, long)) : reached.Within A := by
  have hclosure := hmoved.followed (L := L) limit ((s.ended L k).isEmpty && k != .endOfFile)
  simp only [step] at h
  generalize ConfigSet.followed L limit _ (s.moved L k) = closure at h hclosure
  have hreached : Within A (if (k == .endOfFile) = true
      then closure.configs.filter fun _ c => finished L.net c else closure.configs) := by
    split
    · exact hclosure.filter _
    · exact hclosure
  generalize (if (k == .endOfFile) = true
    then closure.configs.filter fun _ c => finished L.net c else closure.configs) = t
    at h hreached
  -- What has ended in front of the token may be added at last.
  have hlast : Within A (if (!(s.ended L k).isEmpty && (!L.full || !t.any fun _ c =>
      finished L.net c)) = true then (s.ended L k).foldl (add (!L.full)) t else t) := by
    split
    · exact List.foldlRecOn (motive := Within A) _ _ hreached
        fun t ht c hc => ht.add (hended c hc) _
    · exact hreached
  obtain ⟨-, h⟩ := Option.ite_none_left_eq_some.1 h
  obtain ⟨rfl, -⟩ := Prod.mk.inj (Option.some.inj h)
  exact hlast

/-- Taking a token keeps the alternatives. -/
theorem step_within {limit : Nat} {k : Kind} {reached : ConfigSet} {long : Bool}
    (hs : s.Within A) (h : s.step L limit k = some (reached, long)) : reached.Within A :=
  step_within_of_moved (hs.moved k) (fun _ hc => hs.ended hc) h

/-- An alternative of a set is that of one of its configurations. -/
theorem Within.alts (hs : s.Within A) : ∀ a ∈ s.alts, A a := by
  refine hs.foldl (P := fun as : List Nat => ∀ a ∈ as, A a) (by simp) fun as _ c has hc => ?_
  split
  · exact has
  · exact List.forall_mem_cons.2 ⟨hc, has⟩

/-- The only alternative of a set is one of its alternatives. -/
theorem Within.uniqueAlt? (hs : s.Within A) {a : Nat} (h : s.uniqueAlt? = some a) : A a := by
  unfold ConfigSet.uniqueAlt? at h
  split at h
  · rename_i b halts
    cases h
    exact hs.alts a (by simp [halts])
  · cases h

end ConfigSet

/-- The least number of a list belongs to it. -/
theorem least?_mem {ns : List Nat} {a : Nat} (h : least? ns = some a) : a ∈ ns := by
  cases ns with
  | nil => cases h
  | cons n ns =>
    cases h
    refine List.foldlRecOn (motive := fun m => m ∈ n :: ns) ns _ (List.mem_cons_self ..)
      fun m hm b hb => ?_
    rcases Nat.le_total m b with hle | hle
    · rwa [Nat.min_eq_left hle]
    · rw [Nat.min_eq_right hle]
      exact List.mem_cons_of_mem _ hb

namespace ConfigSet

variable {A : Nat → Prop} {N : Network} {s : ConfigSet} {a level : Nat}

/-- Grouping configurations by their stacks keeps their alternatives. -/
theorem byStacks_within {cs : List Config} (hcs : ∀ c ∈ cs, A c.alt) :
    ∀ as ∈ byStacks cs, ∀ a ∈ as, A a := by
  have hgroups : ∀ g ∈ cs.foldl (fun (groups : List (Stacks × List Nat)) c =>
      if groups.any fun g => g.1 == c.pending then
        groups.map fun g => if g.1 == c.pending then (g.1, c.alt :: g.2) else g
      else (c.pending, [c.alt]) :: groups) [], ∀ a ∈ g.2, A a := by
    refine List.foldlRecOn (motive := fun gs : List (Stacks × List Nat) => ∀ g ∈ gs, ∀ a ∈ g.2, A a)
      cs _ (by simp) fun gs hgs c hc => ?_
    split
    · intro g hg
      obtain ⟨g', hg', rfl⟩ := List.mem_map.1 hg
      split
      · exact List.forall_mem_cons.2 ⟨hcs c hc, hgs g' hg'⟩
      · exact hgs g' hg'
    · exact List.forall_mem_cons.2 ⟨by simpa using hcs c hc, hgs⟩
  intro as has a ha
  obtain ⟨g, hg, rfl⟩ := List.mem_map.1 has
  exact hgroups g hg a (List.mem_eraseDups.1 ha)

/-- Alternatives that share a place are alternatives of the set. -/
theorem Within.rivals (hs : s.Within A) : ∀ as ∈ s.rivals, ∀ a ∈ as, A a := by
  intro as has
  obtain ⟨cs, hcs, has⟩ := List.mem_flatMap.1 has
  refine byStacks_within (fun c hc => hs.of_mem_values ?_) as has
  rw [← List.flatten_splitBy (fun c d : Config => c.place == d.place) s.values]
  exact List.mem_flatten_of_mem hcs hc

theorem Within.resolved? (hs : s.Within A) (h : s.resolved? = some a) : A a := by
  unfold ConfigSet.resolved? at h
  split at h
  · rename_i b hb
    cases h
    have ha : a ∈ (s.rivals.filterMap least?).eraseDups := by simp [hb]
    obtain ⟨as, has, hleast⟩ := List.mem_filterMap.1 (List.mem_eraseDups.1 ha)
    exact hs.rivals as has a (least?_mem hleast)
  · cases h

/-- Guards only strike out alternatives. -/
theorem guarded?_subset {alts as : List Nat} (h : s.guarded? alts level = some as) :
    ∀ a ∈ as, a ∈ alts := by
  simp only [guarded?] at h
  split at h
  · cases h
  · cases h
    intro a ha
    obtain ⟨g, hg, rfl⟩ := List.mem_map.1 ha
    obtain ⟨b, hb, rfl⟩ := List.mem_map.1 (List.mem_filter.1 hg).1
    exact hb

/-- The alternative that has ended is that of a configuration that has left the rule or is at its
end. -/
theorem exists_of_endedAlt? (h : s.endedAlt? N level = some a) :
    ∃ c ∈ s.values, c.alt = a ∧ (c.left = true ∨ finished N c = true) := by
  have hpart : ∀ g : Config → Bool, a ∈ ((s.values.filter fun c => c.left ||
      (finished N c && c.pending.hasBottom)).filter g).map (·.alt) →
      ∃ c ∈ s.values, c.alt = a ∧ (c.left = true ∨ finished N c = true) := by
    intro g ha
    obtain ⟨c, hc, rfl⟩ := List.mem_map.1 ha
    obtain ⟨hmem, hended⟩ := List.mem_filter.1 (List.mem_filter.1 hc).1
    rw [Bool.or_eq_true, Bool.and_eq_true] at hended
    exact ⟨c, hmem, rfl, hended.imp id And.left⟩
  simp only [ConfigSet.endedAlt?] at h
  split at h
  · rename_i b hb
    cases h
    exact hpart _ (least?_mem hb)
  · exact hpart _ (least?_mem h)

theorem Within.endedAlt? (hs : s.Within A) (h : s.endedAlt? N level = some a) : A a := by
  obtain ⟨c, hc, rfl, -⟩ := exists_of_endedAlt? h
  exact hs.of_mem_values hc

/-- Preferring operators keeps the alternatives. -/
theorem Within.preferOperators (hs : s.Within A) : (s.preferOperators level).Within A := by
  simp only [ConfigSet.preferOperators]
  refine hs.foldl ?_ fun t _ c ht hc => ?_
  · refine hs.foldl within_empty fun t _ c ht hc => ?_
    split
    · refine ht.add ?_ _
      exact hc
    · exact ht
  · split
    · exact ht
    · split
      · exact ht
      · exact ht.add hc _

end ConfigSet

/-! ## The whole decision -/

open ConfigSet

section
variable {A : Nat → Prop} {L : Outlook} {limit : Nat} {kinds : Array Kind}

/-- Looking ahead begins with the alternatives of the fork. -/
theorem firstConfigs_within {p : Place} {nexts : List Nat} (hp : L.net.node p = .fork nexts)
    (pending : Stacks) : (firstConfigs L limit p pending).configs.Within
      fun a => 1 ≤ a ∧ a ≤ nexts.length := by
  unfold firstConfigs
  rw [hp]
  refine List.foldlRecOn (motive := fun t : Closure => t.configs.Within _) _ _ within_empty
    fun t ht b hb => Closure.follow_within _ _ _ _ ht ?_
  obtain ⟨hle, hlt, -⟩ := List.mem_zipIdx hb
  exact ⟨hle, by dsimp only; omega⟩

/-- With known callers, the choice is an alternative that has ended, or one to which the next token
leads. -/
theorem forecastFull_take_of_step {n pos : Nat} {configs : ConfigSet} {overrun : Bool}
    (hended : ∀ a, configs.endedAlt? L.net L.level = some a → A a)
    (hstep : ∀ reached long, configs.step L limit (kindAt kinds pos) = some (reached, long) →
      reached.Within A)
    (hrest : ∀ pos (s : ConfigSet) overrun a, s.Within A →
      (forecastFull L limit kinds n pos s overrun).verdict = .take a → A a) {a : Nat}
    (h : (forecastFull L limit kinds (n + 1) pos configs overrun).verdict = .take a) : A a := by
  simp only [forecastFull] at h
  split at h
  · split at h
    · rename_i b hb
      cases h
      exact hended a hb
    · cases h
  · rename_i reached long hreached
    have hreached := hstep reached long hreached
    split at h
    · rename_i b hb
      cases h
      exact hreached.uniqueAlt? hb
    · split at h
      · rename_i b hb
        cases h
        exact hreached.resolved? hb
      · exact hrest _ reached _ a hreached h

/-- With known callers, the choice is an alternative of one of the configurations. -/
theorem forecastFull_take (n pos : Nat) (configs : ConfigSet) (overrun : Bool)
    (hs : configs.Within A) {a : Nat}
    (h : (forecastFull L limit kinds n pos configs overrun).verdict = .take a) : A a := by
  induction n generalizing pos configs overrun a with
  | zero => cases h
  | succ n ih =>
    exact forecastFull_take_of_step (fun _ ha => hs.endedAlt? ha)
      (fun _ _ hstep => step_within hs hstep) (fun pos s overrun _ hs => ih pos s overrun hs) h

/-- Without known callers, the choice is an alternative that has ended, or one to which the next token
leads, provided that it is so with known ones. -/
theorem forecastLocal_take_of_step {start n pos : Nat} {full : Bool → Forecast}
    {configs : ConfigSet} {overrun : Bool}
    (hfull : ∀ overrun a, (full overrun).verdict = .take a → A a)
    (hended : ∀ a, configs.endedAlt? L.net L.level = some a → A a)
    (hstep : ∀ reached long, configs.step L limit (kindAt kinds pos) = some (reached, long) →
      reached.Within A)
    (hrest : ∀ pos (s : ConfigSet) overrun a, s.Within A →
      (forecastLocal L limit kinds start full n pos s overrun).verdict = .take a → A a) {a : Nat}
    (h : (forecastLocal L limit kinds start full (n + 1) pos configs overrun).verdict = .take a) :
    A a := by
  simp only [forecastLocal] at h
  split at h
  · split at h
    · rename_i b hb
      cases h
      exact hended a hb
    · cases h
  · rename_i reached long hreached
    have hreached := hstep reached long hreached
    split at h
    · rename_i b hb
      split at h
      · cases h
      · cases h
        exact hreached.uniqueAlt? hb
    · split at h
      · split at h
        · rename_i b hb
          cases h
          have hmem := guarded?_subset hb a (List.mem_singleton.2 rfl)
          obtain ⟨as, has, ha⟩ := List.mem_flatten.1 (List.mem_eraseDups.1 hmem)
          exact hreached.rivals as has a ha
        · exact hfull _ a h
      · exact hrest _ reached _ a hreached h

/-- Without known callers, the choice is an alternative of one of the configurations, provided that
it is so with known ones. -/
theorem forecastLocal_take (start : Nat) (full : Bool → Forecast)
    (hfull : ∀ overrun a, (full overrun).verdict = .take a → A a) (n pos : Nat)
    (configs : ConfigSet) (overrun : Bool) (hs : configs.Within A) {a : Nat}
    (h : (forecastLocal L limit kinds start full n pos configs overrun).verdict = .take a) :
    A a := by
  induction n generalizing pos configs overrun a with
  | zero => cases h
  | succ n ih =>
    exact forecastLocal_take_of_step hfull (fun _ ha => hs.endedAlt? ha)
      (fun _ _ hstep => step_within hs hstep) (fun pos s overrun _ hs => ih pos s overrun hs) h

end

/-- **Looking ahead chooses one of the alternatives** of the fork at which it begins. -/
theorem forecast_take {N : Network} {kinds : Array Kind} {callers : List Place} {level : Nat}
    {p : Place} {pos : Nat} {nexts : List Nat} {a : Nat} (hp : N.node p = .fork nexts)
    (h : (forecast N kinds callers level p pos).verdict = .take a) :
    1 ≤ a ∧ a ≤ nexts.length := by
  simp only [forecast] at h
  refine forecastLocal_take (A := fun a => 1 ≤ a ∧ a ≤ nexts.length) _ _ ?_ _ _ _ _ ?_ h
  · intro overrun b hb
    exact forecastFull_take _ _ _ _ (firstConfigs_within hp _) hb
  · split
    · exact (firstConfigs_within hp _).preferOperators
    · exact firstConfigs_within hp _

end JavaOutline
