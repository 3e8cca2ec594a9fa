import JavaOutline.Proofs.Network.Runs
import JavaOutline.Proofs.Prediction.Alternatives
import JavaOutline.Proofs.Prediction.Stacks

/-!
# Sets of configurations

A set holds its configurations under keys, and those with one key are joined. For places of the
network the key determines the place, the alternative and the level (`Config.Fine.key_inj`). So a
property that joining keeps holds of the whole set if it holds of all that are added
(`ConfigSet.Every`), and a stack that has been added stays (`ConfigSet.Has`).
-/

namespace JavaOutline

open Network

/-- What one element establishes and the others preserve holds in the end. -/
theorem foldl_of_mem {α β : Type} {f : β → α → β} {P Q : β → Prop} {xs : List α}
    (hQ : ∀ b, ∀ x ∈ xs, Q b → Q (f b x)) {x : α} (hx : x ∈ xs) (hself : ∀ b, Q b → P (f b x))
    (hP : ∀ b, ∀ y ∈ xs, Q b → P b → P (f b y)) {b : β} (hb : Q b) : P (xs.foldl f b) := by
  induction xs generalizing b with
  | nil => cases hx
  | cons y ys ih =>
    have hQ' (b : β) (x : α) (hx : x ∈ ys) := hQ b x (List.mem_cons_of_mem _ hx)
    have hP' (b : β) (x : α) (hx : x ∈ ys) := hP b x (List.mem_cons_of_mem _ hx)
    have hstep := hQ b y List.mem_cons_self hb
    rcases List.mem_cons.1 hx with rfl | hx
    · have hboth := List.foldlRecOn (motive := fun b => Q b ∧ P b) ys f ⟨hstep, hself b hb⟩
        fun b hb x hx => ⟨hQ' b x hx hb.1, hP' b x hx hb.1 hb.2⟩
      exact hboth.2
    · exact ih hQ' hx hP' hstep

/-! ## Keys -/

namespace Rule

/-- Do the offsets, levels and alternatives of the rule fit into keys? -/
def isKeyed (r : Rule) : Bool :=
  r.body.layout.length ≤ 1024 && r.body.layout.all fun
    | .guard level _ => level < 31
    | .fork nexts => nexts.length < 64
    | _ => true

theorem isKeyed_eq_true (r : Rule) : r.isKeyed = true := by
  cases r <;> decide +kernel

theorem index_inj {r r' : Rule} (h : r.index = r'.index) : r = r' := by
  rw [← Rule.ofNat_ctorIdx r, ← Rule.ofNat_ctorIdx r']
  exact congrArg Rule.ofNat h

end Rule

namespace Place.Valid

variable {p q : Place}

theorem offset_lt (hp : p.Valid) : p.offset < 1024 := by
  have h := p.rule.isKeyed_eq_true
  simp only [Rule.isKeyed, Bool.and_eq_true, decide_eq_true_eq] at h
  exact Nat.lt_of_lt_of_le hp h.1

theorem level_lt (hp : p.Valid) {level next : Nat} (h : java.node p = .guard level next) :
    level < 31 := by
  have hkeyed := p.rule.isKeyed_eq_true
  simp only [Rule.isKeyed, Bool.and_eq_true, List.all_eq_true] at hkeyed
  have hlevel := hkeyed.2 _ hp.mem_layout
  rw [h] at hlevel
  exact of_decide_eq_true hlevel

theorem length_lt (hp : p.Valid) {nexts : List Nat} (h : java.node p = .fork nexts) :
    nexts.length < 64 := by
  have hkeyed := p.rule.isKeyed_eq_true
  simp only [Rule.isKeyed, Bool.and_eq_true, List.all_eq_true] at hkeyed
  have hlength := hkeyed.2 _ hp.mem_layout
  rw [h] at hlength
  exact of_decide_eq_true hlength

theorem key_inj (hp : p.Valid) (hq : q.Valid) (h : p.key = q.key) : p = q := by
  have hp := hp.offset_lt
  have hq := hq.offset_lt
  rw [Place.key, Place.key] at h
  have hrule : p.rule = q.rule := Rule.index_inj (by omega)
  have hoffset : p.offset = q.offset := by omega
  cases p
  cases q
  exact congr (congrArg Place.mk hrule) hoffset

end Place.Valid

namespace Config

/-- The configuration is one of the network, small enough for its key. -/
structure Fine (c : Config) : Prop where
  valid : c.place.Valid
  alt : c.alt < 64
  level : ∀ l, c.level = some l → l < 31
  pending : c.pending.All Place.Valid

variable {c d : Config}

/-- A number for the guards of the way, below 32. -/
def grade (c : Config) : Nat :=
  match c.level with
  | none => 0
  | some n => n + 1

theorem key_eq (c : Config) : c.key = (c.place.key * 64 + c.alt) * 32 + c.grade := rfl

theorem Fine.grade_lt (hc : c.Fine) : c.grade < 32 := by
  unfold grade
  split
  · omega
  · rename_i n hn
    have hlevel := hc.level n hn
    omega

theorem level_of_grade (h : c.grade = d.grade) : c.level = d.level := by
  unfold grade at h
  split at h <;> split at h <;> simp_all

/-- Keys tell configurations apart. -/
theorem Fine.key_inj (hc : c.Fine) (hd : d.Fine) (h : c.key = d.key) :
    c.place = d.place ∧ c.alt = d.alt ∧ c.level = d.level := by
  have hcalt := hc.alt
  have hdalt := hd.alt
  have hcgrade := hc.grade_lt
  have hdgrade := hd.grade_lt
  rw [key_eq, key_eq] at h
  exact ⟨hc.valid.key_inj hd.valid (by omega), by omega, level_of_grade (by omega)⟩

theorem Fine.join (hc : c.Fine) (hd : d.Fine) (wild : Bool) : (c.join wild d).Fine :=
  ⟨hc.valid, hc.alt, hc.level, hd.pending.merge hc.pending⟩

/-- The guards on a way allow operators of a level. -/
def Allows (level : Nat) (c : Config) : Prop := ∀ l, c.level = some l → level ≤ l

theorem allows_iff {level : Nat} : c.allows level = true ↔ c.Allows level := by
  unfold allows Allows
  split <;> simp_all

end Config

/-! ## Sets of configurations -/

namespace ConfigSet

/-- All configurations of the set are kept under their keys and satisfy `I`. -/
def Every (I : Config → Prop) (s : ConfigSet) : Prop :=
  ∀ (k : Nat) (c : Config), s[k]? = some c → c.key = k ∧ I c

/-- Two configurations that satisfy `I` may be joined if they have the same key. -/
def Joins (I : Config → Prop) (wild : Bool) : Prop :=
  ∀ c d : Config, I c → I d → c.key = d.key → I (c.join wild d)

/-- Some configuration of the set stands for a way that has come as far as `c`, with the ways back
`τ`. -/
def Has (wild : Bool) (s : ConfigSet) (c : Config) (τ : List Place) : Prop :=
  ∃ (k : Nat) (d : Config), s[k]? = some d ∧ d.place = c.place ∧ d.alt = c.alt ∧
    d.level = c.level ∧ (c.outermost = true → d.outermost = true) ∧ d.pending.Covers wild τ

section
variable {I J : Config → Prop} {wild : Bool} {s : ConfigSet} {c d : Config} {τ : List Place}

theorem every_empty : Every I ∅ := by
  intro k c h
  simp at h

theorem Every.mono (hs : s.Every I) (h : ∀ c, I c → J c) : s.Every J :=
  fun k c hc => ⟨(hs k c hc).1, h c (hs k c hc).2⟩

theorem Every.add (hs : s.Every I) (hjoin : Joins I wild) (hc : I c) : (s.add wild c).Every I := by
  intro k d hd
  rw [ConfigSet.add, Std.TreeMap.getElem?_alter] at hd
  split at hd
  · rename_i hk
    have hk := Std.LawfulEqCmp.eq_of_compare hk
    split at hd
    · cases hd
      exact ⟨hk, hc⟩
    · rename_i e he
      cases hd
      obtain ⟨hkey, hI⟩ := hs _ e he
      exact ⟨hkey.trans hk, hjoin e c hI hc hkey⟩
  · exact hs k d hd

theorem Every.filter (hs : s.Every I) (f : Nat → Config → Bool) :
    Every (fun c => I c ∧ f c.key c = true) (s.filter f) := by
  intro k c hc
  rw [← Std.TreeMap.mem_toList_iff_getElem?_eq_some, Std.TreeMap.toList_filter,
    List.mem_filter] at hc
  obtain ⟨hkey, hI⟩ := hs k c (Std.TreeMap.mem_toList_iff_getElem?_eq_some.1 hc.1)
  exact ⟨hkey, hI, hkey ▸ hc.2⟩

/-- What every configuration preserves, going through the whole set preserves. -/
theorem Every.foldl {δ : Type} {P : δ → Prop} {f : δ → Nat → Config → δ} {init : δ}
    (hs : s.Every I) (hinit : P init) (hf : ∀ d k c, P d → I c → P (f d k c)) :
    P (s.foldl f init) := by
  rw [Std.TreeMap.foldl_eq_foldl_toList]
  refine List.foldlRecOn s.toList _ hinit fun d hd b hb => ?_
  exact hf d b.1 b.2 hd (hs b.1 b.2 (Std.TreeMap.mem_toList_iff_getElem?_eq_some.1 hb)).2

theorem mem_values_iff : c ∈ s.values ↔ ∃ k : Nat, s[k]? = some c := by
  rw [values_eq, List.mem_map]
  constructor
  · rintro ⟨⟨k, d⟩, hmem, rfl⟩
    exact ⟨k, Std.TreeMap.mem_toList_iff_getElem?_eq_some.1 hmem⟩
  · rintro ⟨k, hk⟩
    exact ⟨(k, c), Std.TreeMap.mem_toList_iff_getElem?_eq_some.2 hk, rfl⟩

theorem Every.of_mem_values (hs : s.Every I) (hc : c ∈ s.values) : I c := by
  obtain ⟨k, hk⟩ := mem_values_iff.1 hc
  exact (hs k c hk).2

/-- Some configuration of the set satisfies a test. -/
theorem any_iff {f : Nat → Config → Bool} :
    s.any f = true ↔ ∃ (k : Nat) (c : Config), s[k]? = some c ∧ f k c = true := by
  have hlist (xs : List (Nat × Config)) : Id.run (do
      for x in xs do
        if f x.1 x.2 then return true
      return false) = xs.any fun x => f x.1 x.2 := by
    induction xs with
    | nil => rfl
    | cons x xs ih =>
      simp only [List.forIn_cons, List.any_cons]
      cases hf : f x.1 x.2 with
      | true => simp
      | false => simpa using ih
  have hany : s.any f = s.toList.any fun x => f x.1 x.2 := by
    rw [← hlist, ← Std.TreeMap.forIn_eq_forIn_toList]
    rfl
  rw [hany, List.any_eq_true]
  constructor
  · rintro ⟨x, hx, hf⟩
    exact ⟨x.1, x.2, Std.TreeMap.mem_toList_iff_getElem?_eq_some.1 hx, hf⟩
  · rintro ⟨k, c, hc, hf⟩
    exact ⟨(k, c), Std.TreeMap.mem_toList_iff_getElem?_eq_some.2 hc, hf⟩

/-- All configurations of the set satisfy a test. -/
theorem all_eq_true_of {f : Nat → Config → Bool}
    (h : ∀ (k : Nat) (c : Config), s[k]? = some c → f k c = true) : s.all f = true := by
  have hlist (xs : List (Nat × Config)) : Id.run (do
      for x in xs do
        if f x.1 x.2 = false then return false
      return true) = xs.all fun x => f x.1 x.2 := by
    induction xs with
    | nil => rfl
    | cons x xs ih =>
      simp only [List.forIn_cons, List.all_cons]
      cases hf : f x.1 x.2 with
      | false => simp
      | true => simpa using ih
  have hall : s.all f = s.toList.all fun x => f x.1 x.2 := by
    rw [← hlist, ← Std.TreeMap.forIn_eq_forIn_toList]
    rfl
  rw [hall, List.all_eq_true]
  exact fun x hx => h x.1 x.2 (Std.TreeMap.mem_toList_iff_getElem?_eq_some.1 hx)

/-- What a set stands for it still stands for with one more configuration. -/
theorem Has.add (h : Has wild s d τ) : Has wild (s.add wild c) d τ := by
  obtain ⟨k, e, he, hplace, halt, hlevel, hout, hcovers⟩ := h
  by_cases hk : compare c.key k = .eq
  · have hk := Std.LawfulEqCmp.eq_of_compare hk
    subst hk
    refine ⟨c.key, e.join wild c, ?_, hplace, halt, hlevel, fun ho => ?_, ?_⟩
    · rw [ConfigSet.add, Std.TreeMap.getElem?_alter_self, he]
    · simp [Config.join, hout ho]
    · exact Stacks.covers_merge.2 (.inr hcovers)
  · refine ⟨k, e, ?_, hplace, halt, hlevel, hout, hcovers⟩
    rw [ConfigSet.add, Std.TreeMap.getElem?_alter, if_neg hk, he]

/-- A set stands for the configuration that has been added to it. -/
theorem has_add (hs : s.Every Config.Fine) (hc : c.Fine) (hτ : c.pending.Covers wild τ) :
    Has wild (s.add wild c) c τ := by
  cases he : s[c.key]? with
  | none =>
    refine ⟨c.key, c, ?_, rfl, rfl, rfl, id, hτ⟩
    rw [ConfigSet.add, Std.TreeMap.getElem?_alter_self, he]
  | some e =>
    obtain ⟨hkey, hfine⟩ := hs _ e he
    obtain ⟨hplace, halt, hlevel⟩ := hfine.key_inj hc hkey
    refine ⟨c.key, e.join wild c, ?_, hplace, halt, hlevel, fun ho => ?_, ?_⟩
    · rw [ConfigSet.add, Std.TreeMap.getElem?_alter_self, he]
    · simp [Config.join, ho]
    · exact Stacks.covers_merge.2 (.inl hτ)

end

end ConfigSet

end JavaOutline
