import JavaOutline.Proofs.Network.Tables
import JavaOutline.Proofs.Prediction.Followers

/-!
# Alternatives that clash

The bounds for the ways that are followed depend on the number of callers and of tokens. They are
never reached, so they do not matter: what is found without reaching a bound is found with every
larger one (`Closure.follow_extends`, `ConfigSet.step_of_le`, `firstConfigs_of_le`). So it can be
evaluated with small bounds which alternatives cannot be told apart without knowing the callers,
whatever the rest of the text is (`clashes`, `forecastLocal_of_clashes`). For one more operator of a
level that allows shifts it is enough that two `<` or two `>` come next
(`Choice.forecast_of_shifts`).
-/

namespace JavaOutline

open Network Closure ConfigSet

namespace Closure

/-- What the second function does is what the first does, wherever that reaches no bound. -/
def Extends (f g : Closure → Closure) : Prop :=
  ∀ s, (f s).overrun = false → s.overrun = false ∧ g s = f s

namespace Extends

variable {f f' g g' : Closure → Closure}

/-- What leaves alone whether a bound has been reached needs no bound. -/
theorem of_overrun (h : ∀ s, (f s).overrun = s.overrun) : Extends f f :=
  fun s hs => ⟨h s ▸ hs, rfl⟩

/-- Where a bound is always reached there is nothing to do. -/
theorem of_overrun_eq_true (h : ∀ s, (f s).overrun = true) : Extends f g := by
  intro s hs
  rw [h s] at hs
  cases hs

/-- One after the other. -/
theorem comp (hg : Extends g g') (hf : Extends f f') :
    Extends (fun s => g (f s)) (fun s => g' (f' s)) := by
  intro s hs
  obtain ⟨hfs, hgs⟩ := hg _ hs
  obtain ⟨ho, hfs'⟩ := hf _ hfs
  exact ⟨ho, (congrArg g' hfs').trans hgs⟩

/-- One for each entry of a list. -/
theorem foldl {α : Type} {f g : Closure → α → Closure}
    (h : ∀ a, Extends (f · a) (g · a)) (l : List α) :
    Extends (fun s => l.foldl f s) (fun s => l.foldl g s) := by
  induction l with
  | nil => exact of_overrun fun _ => rfl
  | cons a l ih => exact ih.comp (h a)

/-- In both cases of a condition that looks at what has been found. -/
theorem ite {b : Closure → Bool} (hf : Extends f f') (hg : Extends g g') :
    Extends (fun s => if b s then f s else g s) (fun s => if b s then f' s else g' s) := by
  intro s
  dsimp only
  split
  · exact hf s
  · exact hg s

end Extends

variable (L : Outlook)

/-- A configuration is added without regard to bounds. -/
theorem add_extends (c : Config) : Extends (fun s => s.add L c) (fun s => s.add L c) :=
  .of_overrun fun _ => rfl

/-- **A way that is followed to its end is followed so with every larger bound.** -/
theorem followWith_extends {leave leave' : Config → Closure → Closure}
    (hleave : ∀ c, Extends (leave c) (leave' c)) {n m : Nat} (h : n ≤ m) (c : Config)
    (depth : Option Nat) :
    Extends (followWith L leave n c depth) (followWith L leave' m c depth) := by
  induction n generalizing m c depth with
  | zero => exact .of_overrun_eq_true fun _ => rfl
  | succ n ih =>
    obtain ⟨m, rfl⟩ : ∃ k, m = k + 1 := ⟨m - 1, by omega⟩
    have ih := fun c depth => ih (m := m) (by omega) c depth
    show Extends (fun s => followWith L leave (n + 1) c depth s)
      (fun s => followWith L leave' (m + 1) c depth s)
    simp only [followWith]
    split
    · exact add_extends L c
    · exact ih _ _
    · split
      · split
        · split
          · exact ih _ _
          · exact .of_overrun fun _ => rfl
        · exact ih _ _
      · exact ih _ _
    · exact .foldl (fun next => ih _ _) _
    · split
      · split
        · exact add_extends L c
        · split
          · exact add_extends L c
          · refine .foldl (fun ret => ?_) _
            exact .ite (.of_overrun fun _ => rfl) ((hleave _).comp (.of_overrun fun _ => rfl))
      · refine (Extends.foldl (fun top => ih _ _) _).comp ?_
        split
        · exact add_extends L _
        · exact .of_overrun fun _ => rfl

/-- The same for a way that goes on in unknown callers. -/
theorem followOut_extends {limit limit' n m : Nat} (hlimit : limit ≤ limit') (h : n ≤ m)
    (c : Config) (depth : Option Nat) :
    Extends (followOut L limit n c depth) (followOut L limit' m c depth) := by
  induction n generalizing m c depth with
  | zero =>
    cases m <;> exact followWith_extends L (fun c => .of_overrun_eq_true fun _ => rfl) hlimit c depth
  | succ n ih =>
    obtain ⟨m, rfl⟩ : ∃ k, m = k + 1 := ⟨m - 1, by omega⟩
    exact followWith_extends L (fun c => ih (by omega) c none) hlimit c depth

/-- The same with one bound for both. -/
theorem follow_extends {limit limit' : Nat} (h : limit ≤ limit') (c : Config)
    (depth : Option Nat) : Extends (follow L limit c depth) (follow L limit' c depth) :=
  followOut_extends L h h c depth

end Closure

section
variable {L : Outlook} {limit limit' : Nat} (hlimit : limit ≤ limit')
include hlimit

/-- Configurations that are followed to their ends are followed so with every larger bound. -/
theorem ConfigSet.followed_of_le {unique : Bool} {s : ConfigSet}
    (h : (followed L limit unique s).overrun = false) :
    followed L limit' unique s = followed L limit unique s := by
  unfold followed at h ⊢
  split
  · rfl
  · rename_i hone
    rw [if_neg hone, Std.TreeMap.foldl_eq_foldl_toList] at h
    rw [Std.TreeMap.foldl_eq_foldl_toList, Std.TreeMap.foldl_eq_foldl_toList]
    have hextends (entry : Nat × Config) :=
      follow_extends { L with guards := false } hlimit entry.2 (some 0)
    exact (Extends.foldl hextends s.toList _ h).2

/-- A step that reaches no bound is the same with every larger bound. -/
theorem ConfigSet.step_of_le {s t : ConfigSet} {k : Kind} (h : s.step L limit k = some (t, false)) :
    s.step L limit' k = some (t, false) := by
  have hover : (followed L limit ((ended L s k).isEmpty && k != .endOfFile)
      (moved L s k)).overrun = false := by
    rw [step_eq] at h
    split at h
    · cases h
    · exact (Prod.mk.inj (Option.some.inj h)).2
  rw [← h, step_eq, step_eq, after, after, followed_of_le hlimit hover]

/-- What looking ahead begins with is the same with every larger bound. -/
theorem firstConfigs_of_le {p : Place} {nexts : List Nat} (hp : L.net.node p = .fork nexts)
    {pending : Stacks} (h : (firstConfigs L limit p pending).overrun = false) :
    firstConfigs L limit' p pending = firstConfigs L limit p pending := by
  rw [firstConfigs, hp] at h ⊢
  rw [firstConfigs, hp]
  have hreset : Extends (fun s => { s with visited := ∅ }) (fun s => { s with visited := ∅ }) :=
    .of_overrun fun _ => rfl
  have hextends (x : Nat × Nat) := (follow_extends L hlimit
    ⟨p.move x.1, x.2, none, pending, false, false⟩ (some 0)).comp hreset
  exact (Extends.foldl hextends (nexts.zipIdx 1) _ h).2

end

/-! ## Clashes -/

/-- Can the alternatives not be told apart without knowing the callers, after some of these
tokens, whatever comes behind them? -/
def clashes (L : Outlook) (limit : Nat) : ConfigSet → List Kind → Bool
  | _, [] => false
  | s, k :: ks =>
    k != .endOfFile &&
    match s.step L limit k with
    | some (t, false) => (uniqueAlt? t).isNone &&
      if conflicts L.net t then (guarded? t (rivals t).flatten.eraseDups L.level).isNone
      else clashes L limit t ks
    | _ => false

/-- **Alternatives that clash are told apart with known callers.** -/
theorem forecastLocal_of_clashes {L : Outlook} {limit limit' : Nat} (hlimit : limit ≤ limit')
    {kinds : Array Kind} (start : Nat) (full : Bool → Forecast) {ks : List Kind} {s : ConfigSet}
    (h : clashes L limit s ks = true) {n pos : Nat} (hn : ks.length ≤ n)
    (hks : ∀ i k, ks[i]? = some k → kindAt kinds (pos + i) = k) (overrun : Bool) :
    ∃ o, (forecastLocal L limit' kinds start full n pos s overrun).verdict = (full o).verdict := by
  induction ks generalizing s n pos overrun with
  | nil => cases h
  | cons k ks ih =>
    obtain ⟨n, rfl⟩ : ∃ m, n = m + 1 := ⟨n - 1, by simp only [List.length_cons] at hn; omega⟩
    have hk : kindAt kinds pos = k := hks 0 k rfl
    rw [clashes, Bool.and_eq_true] at h
    obtain ⟨hfile, h⟩ := h
    split at h
    · rename_i t hstep
      rw [Bool.and_eq_true, Option.isNone_iff_eq_none] at h
      obtain ⟨hone, h⟩ := h
      simp only [forecastLocal, hk, step_of_le hlimit hstep, hone]
      split at h
      · rename_i hconflicts
        rw [Option.isNone_iff_eq_none] at h
        rw [if_pos hconflicts, h]
        exact ⟨_, rfl⟩
      · rename_i hconflicts
        rw [if_neg hconflicts, if_neg (by simpa using hfile)]
        refine ih h (Nat.le_of_succ_le_succ hn) (fun i k' hk' => ?_) _
        rw [Nat.add_assoc, Nat.add_comm 1]
        exact hks (i + 1) k' hk'
    · cases h

/-- Two of these operators clash with what could follow an expression, where shifts are allowed. -/
theorem clashes_shifts : [Kind.lt, Kind.gt].all (fun k =>
    let L : Outlook := ⟨.plain, false, true, 12, some .expression⟩
    let first := firstConfigs L 20 expressionLoop .bottom
    !first.overrun && clashes L 20 (preferOperators first.configs 12) [k, k]) = true := by
  decide +kernel

/-- **Whether to shift is decided with known callers.** -/
theorem Choice.forecast_of_shifts {C : Choice} (hplace : C.place = expressionLoop)
    (hpos : C.pos ≤ C.kinds.size) (h : C.Shifts) :
    ∃ o, (forecast java C.kinds C.callers C.level C.place C.pos).verdict =
      (C.full o).verdict := by
  obtain ⟨hlevel, k, hk, hfirst, hsecond⟩ := h
  have hclash := List.all_eq_true.1 clashes_shifts k hk
  rw [← java_eq_plain] at hclash
  obtain ⟨hover, hclash⟩ := Bool.and_eq_true_iff.1 hclash
  rw [Bool.not_eq_true'] at hover
  have hunknown : C.unknown (some C.place.rule) = ⟨java, false, true, 12, some .expression⟩ := by
    rw [unknown, hlevel, hplace]
    rfl
  have hlimit : 20 ≤ C.wayBound := by
    unfold wayBound wayLimit
    omega
  have hfirsts := firstConfigs_of_le (L := ⟨java, false, true, 12, some .expression⟩) hlimit
    node_expressionLoop hover
  rw [forecast_of_atLoop (atLoop_of_eq hplace), hunknown, hplace, hfirsts, hlevel]
  refine forecastLocal_of_clashes hlimit _ _ hclash (by unfold tokens; simp; omega)
    (fun i k' hk' => ?_) _
  match i with
  | 0 => exact hfirst.trans (Option.some.inj hk')
  | 1 => exact hsecond.trans (Option.some.inj hk')

end JavaOutline
