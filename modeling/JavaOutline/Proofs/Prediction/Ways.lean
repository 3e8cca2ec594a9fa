import JavaOutline.Proofs.Network.Looking
import JavaOutline.Proofs.Prediction.Configs

/-!
# Following all ways without a token

Two facts about `Closure.follow`. What each step of a way keeps holds of every configuration that is
collected (`Keeps.follow`). And no way is missed (`follow_spec`): a property that leads on from
place to place (`Progressive`) leads to a configuration that is collected, although ways that leave
the rule are followed only once for each place to which they return (`mark`) and the search has a
bound.
-/

namespace JavaOutline

open Network

/-- The configuration is one of the network, and with unknown callers the empty stack is alone wherever
it belongs to the stacks of the configuration. -/
structure Config.Fair (full : Bool) (c : Config) : Prop extends Config.Fine c where
  pure : full = false → c.pending.Pure

/-- The same configuration with no way back but the one that is unknown. -/
theorem Config.Fair.bottom {full : Bool} {c : Config} (hc : c.Fair full) :
    ({ c with pending := .bottom } : Config).Fair full :=
  { hc with pending := trivial, pure := fun _ => trivial }

theorem Config.Fair.join {full : Bool} {c d : Config} (hc : c.Fair full) (hd : d.Fair full) :
    (c.join (!full) d).Fair full where
  toFine := hc.toFine.join hd.toFine _
  pure hfull := by
    subst hfull
    exact (hd.pure rfl).merge (hc.pure rfl)

/-- The level of the guards of a way behind one more guard. -/
def Config.collect (c : Config) (level : Nat) : Nat :=
  match c.level with
  | none => level
  | some l => min l level

theorem Config.collect_eq_or (c : Config) (level : Nat) :
    c.collect level = level ∨ c.level = some (c.collect level) := by
  unfold collect
  split
  · exact .inl rfl
  · rename_i l hl
    rw [hl]
    rcases Nat.le_total l level with hle | hle
    · exact .inr (congrArg some (Nat.min_eq_left hle).symm)
    · exact .inl (Nat.min_eq_right hle)

theorem Config.collect_le (c : Config) (level : Nat) :
    c.collect level ≤ level ∧ ∀ l, c.level = some l → c.collect level ≤ l := by
  unfold collect
  split
  · rename_i hnone
    refine ⟨Nat.le_refl level, fun l hl => ?_⟩
    rw [hnone] at hl
    cases hl
  · rename_i l hl
    refine ⟨Nat.min_le_right l level, fun l' hl' => ?_⟩
    rw [hl] at hl'
    cases hl'
    exact Nat.min_le_left l level

/-- The way goes on behind a call in a caller that is unknown. -/
def Config.leaveTo (L : Outlook) (c : Config) (ret : Return) : Config :=
  { c with
    place := ret.place
    left := true
    outermost := c.outermost || (L.loop == some c.place.rule && ret.level == 0) }

namespace Closure

/-! ## What holds along all ways -/

/-- `J` is kept by each step of a way, and `I` holds of the configurations with which it stops. With
unknown callers a way stops at the end of a rule only if nothing calls the rule. -/
structure Keeps (L : Outlook) (J : Config → Option Nat → Prop) (I : Config → Prop) : Prop where
  net : L.net = java
  joins : ConfigSet.Joins I (!L.full)
  take {c : Config} {d : Option Nat} {ks : KindSet} {next : Nat} :
    java.node c.place = .take ks next → J c d → I c
  call {c : Config} {d : Option Nat} {r : Rule} {l next : Nat} :
    java.node c.place = .call r l next → J c d →
      J { c with place := .start r, pending := c.pending.push (c.place.move next) } (d.map (· + 1))
  guard {c : Config} {d : Option Nat} {l next : Nat} : java.node c.place = .guard l next → J c d →
    (L.guards = true → d = some 0 → L.full = true ∧ L.level ≤ l) → J (c.move next) d
  collect {c : Config} {l next : Nat} : L.full = false → java.node c.place = .guard l next →
    J c (some 0) → J { c.move next with level := some (c.collect l) } (some 0)
  fork {c : Config} {d : Option Nat} {nexts : List Nat} {next : Nat} :
    java.node c.place = .fork nexts → next ∈ nexts → J c d → J (c.move next) d
  finish {c : Config} {d : Option Nat} : java.node c.place = .finish → c.pending.hasBottom = true →
    (L.full = false → c.pending = .bottom → java.returns c.place.rule = []) → J c d →
    I { c with pending := .bottom }
  out {c : Config} {d : Option Nat} {ret : Return} : java.node c.place = .finish →
    c.pending = .bottom → L.full = false → ret ∈ java.returns c.place.rule → J c d →
    J (c.leaveTo L ret) none
  back {c : Config} {d : Option Nat} {ret : Place} {below : Stacks} :
    java.node c.place = .finish → (ret, below) ∈ c.pending.tops → J c d →
    J { c with place := ret, pending := below } (leaveDepth d)

section
variable {L : Outlook} {J : Config → Option Nat → Prop} {I : Config → Prop}
  {leave : Config → Closure → Closure}

theorem Keeps.followWith (h : Keeps L J I)
    (hleave : ∀ c s, s.configs.Every I → J c none → (leave c s).configs.Every I) (n : Nat)
    (c : Config) (d : Option Nat) (s : Closure) (hs : s.configs.Every I) (hc : J c d) :
    (followWith L leave n c d s).configs.Every I := by
  induction n generalizing c d s with
  | zero => exact hs
  | succ n ih =>
    have hadd {c : Config} {s : Closure} (hs : s.configs.Every I) (hc : I c) :
        (s.add L c).configs.Every I := ConfigSet.Every.add hs h.joins hc
    unfold Closure.followWith
    rw [h.net]
    split
    · rename_i hp
      exact hadd hs (h.take hp hc)
    · rename_i hp
      exact ih _ _ _ hs (h.call hp hc)
    · rename_i l next hp
      split
      · rename_i hguard
        rw [Bool.and_eq_true, beq_iff_eq] at hguard
        obtain ⟨hguards, rfl⟩ := hguard
        split
        · rename_i hfull
          split
          · rename_i hlevel
            exact ih _ _ _ hs (h.guard hp hc fun _ _ => ⟨hfull, hlevel⟩)
          · exact hs
        · rename_i hfull
          exact ih _ _ _ hs (h.collect (by simpa using hfull) hp hc)
      · rename_i hguard
        rw [Bool.and_eq_true, beq_iff_eq] at hguard
        exact ih _ _ _ hs (h.guard hp hc fun hg hd => absurd ⟨hg, hd⟩ hguard)
    · rename_i nexts hp
      refine List.foldlRecOn (motive := fun t : Closure => t.configs.Every I) _ _ hs
        fun t ht next hnext => ih _ _ t ht (h.fork hp ?_ hc)
      split at hnext
      · exact List.mem_of_mem_drop hnext
      · exact hnext
    · rename_i hp
      split
      · rename_i hbottom
        have hstop (hret : L.full = false → java.returns c.place.rule = []) : I c := by
          have hI := h.finish hp (by rw [hbottom]; rfl) (fun hfull _ => hret hfull) hc
          rwa [← hbottom] at hI
        split
        · rename_i hfull
          exact hadd hs (hstop fun hno => by cases hfull.symm.trans hno)
        · rename_i hfull
          split
          · rename_i hnone
            exact hadd hs (hstop fun _ => hnone)
          · refine List.foldlRecOn (motive := fun t : Closure => t.configs.Every I) _ _ hs
              fun t ht ret hret => ?_
            dsimp only
            split
            · exact ht
            · exact hleave _ _ ht (h.out hp hbottom (by simpa using hfull) hret hc)
      · rename_i hother
        refine List.foldlRecOn (motive := fun t : Closure => t.configs.Every I) _ _ ?_
          fun t ht ret hret => ih _ _ t ht (h.back hp hret hc)
        split
        · rename_i hbottom
          exact hadd hs (h.finish hp hbottom (fun _ heq => absurd heq hother) hc)
        · exact hs

/-- **All configurations that a way leads to satisfy `I`.** -/
theorem Keeps.follow (h : Keeps L J I) (limit : Nat) (c : Config) (d : Option Nat) (s : Closure)
    (hs : s.configs.Every I) (hc : J c d) : (follow L limit c d s).configs.Every I := by
  have hout (m : Nat) : ∀ (c : Config) (d : Option Nat) (s : Closure), s.configs.Every I →
      J c d → (followOut L limit m c d s).configs.Every I := by
    induction m with
    | zero =>
      have hstop (c : Config) (s : Closure) (hs : s.configs.Every I) (_ : J c none) :
          ({ s with overrun := true } : Closure).configs.Every I := hs
      exact h.followWith hstop limit
    | succ m ih => exact h.followWith (fun c s => ih c none s) limit
  exact hout limit c d s hs hc

theorem keeps_fair (hnet : L.net = java) :
    Keeps L (fun c _ => c.Fair L.full) (Config.Fair L.full) where
  net := hnet
  joins _ _ hc hd _ := hc.join hd
  take _ hc := hc
  call hp hc :=
    { valid := .start _, alt := hc.alt, level := hc.level
      pending := ⟨(hc.valid.call hp).1, hc.pending, trivial⟩
      pure := fun hfull => ⟨hc.pure hfull, rfl, trivial⟩ }
  guard hp hc _ := { hc with valid := (hc.valid.guard hp).valid }
  collect {c l next} _ hp hc := by
    refine { hc with valid := (hc.valid.guard hp).valid, level := fun l' heq => ?_ }
    obtain rfl := Option.some.inj heq
    rcases c.collect_eq_or l with hl | hl
    · rw [hl]
      exact hc.valid.level_lt hp
    · exact hc.level _ hl
  fork hp hnext hc := { hc with valid := (hc.valid.fork hp hnext).valid }
  finish _ _ _ hc := hc.bottom
  out {c d ret} hp hbottom hfull hret hc := by
    obtain ⟨p, next, hvalid, hcall, hplace⟩ := mem_returns_iff.1 hret
    refine { hc with valid := ?_ }
    rw [Config.leaveTo, hplace]
    exact (hvalid.call hcall).1
  back hp hmem hc :=
    { hc with
      valid := (hc.pending.of_mem_tops hmem).1
      pending := (hc.pending.of_mem_tops hmem).2
      pure := fun hfull => (hc.pure hfull).of_mem_tops hmem }

end

/-! ## Following all ways -/

/-- `G` describes ways by their depth, by whether they have left the rule for a caller that allows every
operator, by their place and by the ways back, first those that are known and then those that are
not. Each of these ways stops or goes on by a step that is followed. With unknown callers the last of
them ends with a rule that nothing calls. -/
structure Progressive (L : Outlook)
    (G : Option Nat → Bool → Place → List Place → List Place → Prop) : Prop where
  net : L.net = java
  sited {d : Option Nat} {o : Bool} {p : Place} {π rest : List Place} :
    G d o p π rest → Sited p (π ++ rest)
  closed {d : Option Nat} {o : Bool} {p : Place} :
    L.full = false → java.node p = .finish → G d o p [] [] → java.returns p.rule = []
  call {d : Option Nat} {o : Bool} {p : Place} {π rest : List Place} {r : Rule} {l next : Nat} :
    java.node p = .call r l next → G d o p π rest →
      G (d.map (· + 1)) o (.start r) (p.move next :: π) rest
  guard {d : Option Nat} {o : Bool} {p : Place} {π rest : List Place} {l next : Nat} :
    java.node p = .guard l next → G d o p π rest →
      (L.guards = true → d = some 0 → L.level ≤ l) ∧ G d o (p.move next) π rest
  fork {d : Option Nat} {o : Bool} {p : Place} {π rest : List Place} {nexts : List Nat} :
    java.node p = .fork nexts → G d o p π rest → ∃ next ∈ nexts, G d o (p.move next) π rest
  operand {d : Option Nat} {o : Bool} {p ret : Place} {π rest : List Place} {nexts : List Nat} :
    java.node p = .fork nexts → p.rule.body.operatorLoop? = some p.offset → LeadsTo p ret →
      G d o p (ret :: π) rest → ∃ next ∈ nexts.drop 1, G d o (p.move next) (ret :: π) rest
  back {d : Option Nat} {o : Bool} {p ret : Place} {π rest : List Place} :
    java.node p = .finish → G d o p (ret :: π) rest → G (leaveDepth d) o ret π rest
  out {d : Option Nat} {o : Bool} {p : Place} {ret : Return} {rest : List Place} :
    L.full = false → java.node p = .finish → ret ∈ java.returns p.rule →
      G d o p [] (ret.place :: rest) →
      G none (o || (L.loop == some p.rule && ret.level == 0)) ret.place [] rest
  known {d : Option Nat} {o : Bool} {p : Place} {π rest : List Place} :
    L.full = true → G d o p π rest → rest = []

/-- What tells apart the ways that have been followed into unknown callers. -/
def mark (c : Config) : Nat := 2 * c.key + c.outermost.toNat

theorem mark_inj {c d : Config} (hc : c.Fine) (hd : d.Fine) (h : mark c = mark d) :
    c.place = d.place ∧ c.alt = d.alt ∧ c.level = d.level ∧ c.outermost = d.outermost := by
  rw [mark, mark] at h
  have hcout := Bool.toNat_lt c.outermost
  have hdout := Bool.toNat_lt d.outermost
  obtain ⟨hplace, halt, hlevel⟩ := hc.key_inj hd (by omega)
  refine ⟨hplace, halt, hlevel, ?_⟩
  cases hc' : c.outermost <;> cases hd' : d.outermost <;>
    simp only [hc', hd', Bool.toNat_true, Bool.toNat_false] at h ⊢ <;> omega

/-- The places behind all calls of the network. -/
def behindCalls : List Place :=
  Rule.all.flatMap fun r => r.body.layout.filterMap fun
    | .call _ _ next => some ⟨r, next⟩
    | _ => none

theorem mem_behindCalls {r : Rule} {ret : Return} (h : ret ∈ java.returns r) :
    ret.place ∈ behindCalls := by
  obtain ⟨p, next, hp, hcall, hplace⟩ := mem_returns_iff.1 h
  refine List.mem_flatMap.2 ⟨p.rule, p.rule.mem_all, List.mem_filterMap.2 ⟨_, hp.mem_layout, ?_⟩⟩
  rw [hcall, hplace]
  rfl

/-- All marks that there can be. -/
def marks (places : List Place) : List Nat :=
  places.flatMap fun p => (List.range 4096).map (p.key * 4096 + ·)

theorem mark_mem_marks {c : Config} (hc : c.Fine) {places : List Place} (h : c.place ∈ places) :
    mark c ∈ marks places := by
  have halt := hc.alt
  have hgrade := hc.grade_lt
  have hout := Bool.toNat_lt c.outermost
  refine List.mem_flatMap.2 ⟨c.place, h, List.mem_map.2
    ⟨c.alt * 64 + c.grade * 2 + c.outermost.toNat, List.mem_range.2 (by omega), ?_⟩⟩
  rw [mark, Config.key_eq]
  omega

theorem length_marks (places : List Place) : (marks places).length = places.length * 4096 := by
  induction places with
  | nil => rfl
  | cons p places ih =>
    rw [marks, List.flatMap_cons, List.length_append, ← marks, ih, List.length_map,
      List.length_range, List.length_cons]
    omega

theorem length_behindCalls : behindCalls.length ≤ 2000 := by decide +kernel

/-- The number of marks of ways that have not been followed. -/
def unvisited (s : Closure) : Nat := (marks behindCalls).countP fun k => !s.visited.contains k

section
variable (L : Outlook) (G : Option Nat → Bool → Place → List Place → List Place → Prop)

/-- Some configuration of the set stands for a way of the alternative that has stopped, and if
`allowed`, its guards allow it. -/
def Found (s : ConfigSet) (alt : Nat) (allowed : Prop) : Prop :=
  ∃ (c : Config) (d : Option Nat) (π rest : List Place), s.Has (!L.full) c (π ++ rest) ∧
    c.alt = alt ∧ (allowed → c.Allows L.level) ∧ G d c.outermost c.place π rest ∧
    ((∃ ks next, java.node c.place = .take ks next) ∨
      java.node c.place = .finish ∧ π = [] ∧ rest = [])

/-- A way of the alternative into an unknown caller has been followed from which fewer than `m` ways
back remain. -/
def Opened (s : Closure) (alt : Nat) (allowed : Prop) (m : Nat) : Prop :=
  ∃ (c : Config) (rest : List Place), c.Fine ∧ c.alt = alt ∧ (allowed → c.Allows L.level) ∧
    mark c ∈ s.visited ∧ G none c.outermost c.place [] rest ∧ rest.length < m

/-- A way of the alternative has been found, or it has been followed into an unknown caller. -/
def Reaches (s : Closure) (alt : Nat) (allowed : Prop) (m : Nat) : Prop :=
  Found L G s.configs alt allowed ∨ Opened L G s alt allowed m

/-- The one closure has come from the other by following ways to their ends. -/
structure Grows (s t : Closure) : Prop where
  has : ∀ c τ, s.configs.Has (!L.full) c τ → t.configs.Has (!L.full) c τ
  visited : ∀ k, k ∈ s.visited → k ∈ t.visited
  fair : s.configs.Every (Config.Fair L.full) → t.configs.Every (Config.Fair L.full)
  settled : ∀ (c : Config) (rest : List Place), c.Fine → mark c ∈ t.visited → mark c ∉ s.visited →
    G none c.outermost c.place [] rest → Reaches L G t c.alt (c.Allows L.level) rest.length

end

section
variable {L : Outlook} {G : Option Nat → Bool → Place → List Place → List Place → Prop}
  {s t u : Closure} {a m m' : Nat} {allowed allowed' : Prop}

theorem Found.mono {s t : ConfigSet} (h : Found L G s a allowed)
    (hhas : ∀ c τ, s.Has (!L.full) c τ → t.Has (!L.full) c τ) : Found L G t a allowed := by
  obtain ⟨c, d, π, rest, hc, h⟩ := h
  exact ⟨c, d, π, rest, hhas c _ hc, h⟩

theorem Reaches.mono (h : Reaches L G s a allowed m) (hallowed : allowed' → allowed)
    (hm : m ≤ m') : Reaches L G s a allowed' m' := by
  rcases h with ⟨c, d, π, rest, hhas, halt, hlevel, h⟩ |
    ⟨c, rest, hc, halt, hlevel, hvisited, hG, hlt⟩
  · exact .inl ⟨c, d, π, rest, hhas, halt, fun ha => hlevel (hallowed ha), h⟩
  · exact .inr ⟨c, rest, hc, halt, fun ha => hlevel (hallowed ha), hvisited, hG,
      Nat.lt_of_lt_of_le hlt hm⟩

/-- What has been reached stays reached. -/
theorem Grows.reaches (h : Grows L G s t) (hs : Reaches L G s a allowed m) :
    Reaches L G t a allowed m := by
  rcases hs with hfound | ⟨c, rest, hc, halt, hlevel, hvisited, hG⟩
  · exact .inl (hfound.mono h.has)
  · exact .inr ⟨c, rest, hc, halt, hlevel, h.visited _ hvisited, hG⟩

theorem Grows.refl (s : Closure) : Grows L G s s :=
  ⟨fun _ _ h => h, fun _ h => h, id, fun _ _ _ hnew hold => absurd hnew hold⟩

theorem Grows.trans (hst : Grows L G s t) (htu : Grows L G t u) : Grows L G s u where
  has c τ h := htu.has c τ (hst.has c τ h)
  visited k h := htu.visited k (hst.visited k h)
  fair h := htu.fair (hst.fair h)
  settled c rest hc hnew hold hG := by
    by_cases ht : mark c ∈ t.visited
    · exact htu.reaches (hst.settled c rest hc ht hold hG)
    · exact htu.settled c rest hc hnew ht hG

theorem grows_add {c : Config} (hc : c.Fair L.full) : Grows L G s (s.add L c) where
  has _ _ h := h.add
  visited _ h := h
  fair h := h.add (fun _ _ hc hd _ => hc.join hd) hc
  settled _ _ _ hnew hold := absurd hnew hold

theorem Grows.unvisited_le (h : Grows L G s t) : unvisited t ≤ unvisited s := by
  refine List.countP_mono_left fun k _ hk => ?_
  simp only [Bool.not_eq_true', ← Bool.not_eq_true, Std.TreeMap.contains_iff_mem] at hk ⊢
  exact fun hs => hk (h.visited k hs)

/-- All configurations are fair, and no more than `m` marks are left. -/
structure Ready (L : Outlook) (m : Nat) (s : Closure) : Prop where
  fair : s.configs.Every (Config.Fair L.full)
  unvisited : unvisited s ≤ m

theorem Ready.grows (h : Ready L m s) (hst : Grows L G s t) : Ready L m t :=
  ⟨hst.fair h.fair, Nat.le_trans hst.unvisited_le h.unvisited⟩

section
variable {α : Type} {f : Closure → α → Closure} {xs : List α}

theorem Grows.foldl (hf : ∀ x ∈ xs, ∀ t, Ready L m t → Grows L G t (f t x)) (hs : Ready L m s) :
    Grows L G s (xs.foldl f s) := by
  induction xs generalizing s with
  | nil => exact .refl s
  | cons x xs ih =>
    obtain ⟨hx, hxs⟩ := List.forall_mem_cons.1 hf
    have hstep := hx s hs
    exact hstep.trans (ih hxs (hs.grows hstep))

/-- What one of the ways reaches is reached when all of them have been followed. -/
theorem reaches_foldl (hf : ∀ x ∈ xs, ∀ t, Ready L m t → Grows L G t (f t x)) (hs : Ready L m s)
    {x : α} (hx : x ∈ xs) (hreach : ∀ t, Ready L m t → Reaches L G (f t x) a allowed m') :
    Reaches L G (xs.foldl f s) a allowed m' :=
  foldl_of_mem (fun t y hy ht => ht.grows (hf y hy t ht)) hx hreach
    (fun t y hy ht hreach => (hf y hy t ht).reaches hreach) hs

end

/-- What following a configuration has to do: all ways that begin with it are found or go on into an
unknown caller. -/
def Spec (L : Outlook) (G : Option Nat → Bool → Place → List Place → List Place → Prop) (n : Nat)
    (c : Config) (d : Option Nat) (s t : Closure) : Prop :=
  Grows L G s t ∧ ∀ π rest, c.pending.Covers false π → G d c.outermost c.place π rest →
    c.place.burden π < n → Reaches L G t c.alt (c.Allows L.level) rest.length

/-- A way that has stopped is found. -/
theorem reaches_add {c : Config} {d : Option Nat} {π rest : List Place} (hG : Progressive L G)
    (hs : s.configs.Every (Config.Fair L.full)) (hc : c.Fair L.full)
    (hπ : c.pending.Covers false π) (h : G d c.outermost c.place π rest)
    (hstop : (∃ ks next, java.node c.place = .take ks next) ∨
      java.node c.place = .finish ∧ π = [] ∧ rest = []) :
    Reaches L G (s.add L c) c.alt (c.Allows L.level) m := by
  have hcovers : c.pending.Covers (!L.full) (π ++ rest) := by
    cases hfull : L.full with
    | false => exact Stacks.covers_true.2 ⟨π, rest, rfl, hπ⟩
    | true =>
      rw [hG.known hfull h, List.append_nil]
      exact hπ
  exact .inl ⟨c, d, π, rest, ConfigSet.has_add (hs.mono fun _ h => h.toFine) hc.toFine hcovers, rfl,
    id, h, hstop⟩

theorem unvisited_insert_lt {k : Nat} (hk : k ∈ marks behindCalls) (hs : k ∉ s.visited) :
    unvisited { s with visited := s.visited.insert k () } < unvisited s := by
  refine countP_lt_countP (fun j _ hj => ?_) hk ?_ ?_
  · simp only [Bool.not_eq_true', ← Bool.not_eq_true, Std.TreeMap.contains_iff_mem,
      Std.TreeMap.mem_insert, not_or] at hj ⊢
    exact hj.2
  · simp
  · simpa [← Std.TreeMap.contains_iff_mem] using hs

/-- Going on in an unknown caller, unless that has been done before. -/
theorem spec_leaveTo {leave : Config → Closure → Closure}
    (hleave : ∀ c s, c.Fair L.full → s.configs.Every (Config.Fair L.full) → unvisited s < m →
      Spec L G spanLimit c none s (leave c s))
    {c : Config} {ret : Return} (hc : (c.leaveTo L ret).Fair L.full)
    (hbottom : c.pending = .bottom) (hret : ret ∈ java.returns c.place.rule) (hs : Ready L m s) :
    let t := if s.visited.contains (mark (c.leaveTo L ret)) then s
      else leave (c.leaveTo L ret)
        { s with visited := s.visited.insert (mark (c.leaveTo L ret)) () }
    Grows L G s t ∧ ∀ rest, G none (c.leaveTo L ret).outermost ret.place [] rest →
      Reaches L G t c.alt (c.Allows L.level) (rest.length + 1) := by
  generalize hk : mark (c.leaveTo L ret) = k
  dsimp only
  split
  · rename_i hvisited
    rw [Std.TreeMap.contains_iff_mem] at hvisited
    exact ⟨.refl s, fun rest h => .inr
      ⟨c.leaveTo L ret, rest, hc.toFine, rfl, id, hk ▸ hvisited, h, Nat.lt_succ_self _⟩⟩
  · rename_i hnew
    rw [Std.TreeMap.contains_iff_mem] at hnew
    have hmem : k ∈ marks behindCalls := hk ▸ mark_mem_marks hc.toFine (mem_behindCalls hret)
    have hlt := unvisited_insert_lt hmem hnew
    obtain ⟨hgrows, hreach⟩ := hleave (c.leaveTo L ret) { s with visited := s.visited.insert k () } hc
      hs.fair (Nat.lt_of_lt_of_le hlt hs.unvisited)
    have hself (rest : List Place) (h : G none (c.leaveTo L ret).outermost ret.place [] rest) :=
      hreach [] rest (by rw [Config.leaveTo, hbottom]; exact .inr rfl) h hc.valid.fits.2
    refine ⟨⟨hgrows.has, fun j hj => hgrows.visited j ?_, hgrows.fair, fun e rest he hvis hno h => ?_⟩,
      fun rest h => (hself rest h).mono id (Nat.le_succ _)⟩
    · exact Std.TreeMap.mem_insert.2 (.inr hj)
    · by_cases heq : mark e = k
      · obtain ⟨hplace, halt, hlevel, hout⟩ := mark_inj he hc.toFine (heq.trans hk.symm)
        rw [hplace, hout] at h
        rw [halt]
        refine (hself rest h).mono (fun hallows l hl => hallows l ?_) (Nat.le_refl _)
        rw [hlevel, hl]
      · refine hgrows.settled e rest he hvis (fun hold => ?_) h
        rcases Std.TreeMap.mem_insert.1 hold with hold | hold
        · exact heq (Std.LawfulEqCmp.eq_of_compare hold).symm
        · exact hno hold

theorem not_operandOnly {c : Config} {π : List Place} (hnet : L.net = java)
    (h : operandOnly L.net c = true) (hπ : c.pending.Covers false π) :
    c.place.rule.body.operatorLoop? = some c.place.offset ∧
      ∃ ret π', π = ret :: π' ∧ LeadsTo c.place ret := by
  rw [hnet] at h
  simp only [operandOnly, Bool.and_eq_true, Bool.not_eq_true', beq_iff_eq, List.all_eq_true] at h
  obtain ⟨⟨⟨hloop, hbottom⟩, -⟩, htops⟩ := h
  rw [java_operatorLoop?] at hloop
  refine ⟨hloop, ?_⟩
  cases π with
  | nil =>
    rw [← Stacks.hasBottom_iff, hbottom] at hπ
    cases hπ
  | cons ret π =>
    obtain ⟨below, hmem, -⟩ := Stacks.covers_cons hπ
    exact ⟨ret, π, rfl, .of_leadsTo (htops _ hmem).2⟩

/-- Following a configuration with the bound `n` does what it has to do. -/
def Follows (L : Outlook) (G : Option Nat → Bool → Place → List Place → List Place → Prop)
    (leave : Config → Closure → Closure) (m n : Nat) : Prop :=
  ∀ (c : Config) (d : Option Nat) (s : Closure), c.Fair L.full → Ready L m s →
    Spec L G n c d s (followWith L leave n c d s)

section
variable {leave : Config → Closure → Closure} {n : Nat} {c : Config} {d : Option Nat}

/-- A step without a token leaves less to follow. -/
theorem burden_lt (hc : c.Fair L.full) {q : Place} {π τ : List Place} (hd : Drift c.place π q τ)
    (hn : c.place.burden π < n + 1) : q.burden τ < n :=
  Nat.lt_of_lt_of_le (hd.decreases hc.valid).1 (Nat.le_of_lt_succ hn)

/-- A guard is looked at only in the call in which looking ahead began. -/
theorem Follows.guard (h : Follows L G leave m n) (hG : Progressive L G) {l next : Nat}
    (hp : java.node c.place = .guard l next) (hc : c.Fair L.full) (hs : Ready L m s) :
    Spec L G (n + 1) c d s (followWith L leave (n + 1) c d s) := by
  have hfair := keeps_fair hG.net
  have hmove (hok : L.guards = true → d = some 0 → L.full = true ∧ L.level ≤ l) :
      Spec L G (n + 1) c d s (Closure.followWith L leave n (c.move next) d s) := by
    obtain ⟨hgrows, hreach⟩ := h (c.move next) d s (hfair.guard (d := d) hp hc hok) hs
    exact ⟨hgrows, fun π rest hπ h hn => hreach π rest hπ (hG.guard hp h).2
      (burden_lt hc (.guard hp) hn)⟩
  unfold Closure.followWith
  rw [hG.net, hp]
  dsimp only
  split
  · rename_i hguard
    rw [Bool.and_eq_true, beq_iff_eq] at hguard
    obtain ⟨hguards, rfl⟩ := hguard
    split
    · rename_i hfull
      split
      · rename_i hlevel
        exact hmove fun _ _ => ⟨hfull, hlevel⟩
      · rename_i hlevel
        exact ⟨.refl s, fun π rest _ h _ => absurd ((hG.guard hp h).1 hguards rfl) hlevel⟩
    · rename_i hfull
      obtain ⟨hgrows, hreach⟩ := h { c.move next with level := some (c.collect l) } (some 0) s
        (hfair.collect (by simpa using hfull) hp hc) hs
      refine ⟨hgrows, fun π rest hπ h hn => ?_⟩
      obtain ⟨hlevel, hnext⟩ := hG.guard hp h
      refine (hreach π rest hπ hnext (burden_lt hc (.guard hp) hn)).mono (fun hallows l' heq => ?_)
        (Nat.le_refl _)
      obtain rfl := Option.some.inj heq
      rcases c.collect_eq_or l with hl | hl
      · rw [hl]
        exact hlevel hguards rfl
      · exact hallows _ hl
  · rename_i hguard
    rw [Bool.and_eq_true, beq_iff_eq] at hguard
    exact hmove fun hg hd => absurd ⟨hg, hd⟩ hguard

/-- At a fork all ways on are followed, or all but one that comes to the same as another. -/
theorem Follows.fork (h : Follows L G leave m n) (hG : Progressive L G) {nexts : List Nat}
    (hp : java.node c.place = .fork nexts) (hc : c.Fair L.full) (hs : Ready L m s) :
    Spec L G (n + 1) c d s (followWith L leave (n + 1) c d s) := by
  have hnexts (next : Nat) (hnext : next ∈ if operandOnly java c then nexts.drop 1 else nexts) :
      next ∈ nexts := by
    split at hnext
    · exact List.mem_of_mem_drop hnext
    · exact hnext
  have hstep (next : Nat) (hnext : next ∈ nexts) (t : Closure) (ht : Ready L m t) :=
    h (c.move next) d t ((keeps_fair hG.net).fork (d := d) hp hnext hc) ht
  have hf (next : Nat) (hnext : next ∈ if operandOnly java c then nexts.drop 1 else nexts)
      (t : Closure) (ht : Ready L m t) := (hstep next (hnexts next hnext) t ht).1
  unfold Closure.followWith
  rw [hG.net, hp]
  refine ⟨Grows.foldl hf hs, fun π rest hπ h hn => ?_⟩
  have hon : ∃ next ∈ if operandOnly java c then nexts.drop 1 else nexts,
      G d c.outermost (c.place.move next) π rest := by
    split
    · rename_i honly
      obtain ⟨hloop, ret, π', rfl, hret⟩ := not_operandOnly hG.net (hG.net ▸ honly) hπ
      exact hG.operand hp hloop hret h
    · exact hG.fork hp h
  obtain ⟨next, hnext, hon⟩ := hon
  exact reaches_foldl hf hs hnext fun t ht => (hstep next (hnexts next hnext) t ht).2 π rest hπ hon
    (burden_lt hc (.fork hp (hnexts next hnext)) hn)

/-- At the end of a rule whose callers are unknown the way goes on behind all calls of the rule, and
at the end of the parse it stops. -/
theorem spec_out (hG : Progressive L G)
    (hleave : ∀ c s, c.Fair L.full → s.configs.Every (Config.Fair L.full) → unvisited s < m →
      Spec L G spanLimit c none s (leave c s))
    (hp : java.node c.place = .finish) (hbottom : c.pending = .bottom) (hc : c.Fair L.full)
    (hs : Ready L m s) : Spec L G (n + 1) c d s (followWith L leave (n + 1) c d s) := by
  -- The only way back is the one that is unknown.
  have hempty {π : List Place} (hπ : c.pending.Covers false π) : π = [] := by
    rw [hbottom] at hπ
    exact hπ.resolve_left nofun
  have hstop (hrest : ∀ d π rest, c.pending.Covers false π → G d c.outermost c.place π rest →
      rest = []) : Spec L G (n + 1) c d s (s.add L c) :=
    ⟨grows_add hc, fun π rest hπ h _ => reaches_add hG hs.fair hc hπ h
      (.inr ⟨hp, hempty hπ, hrest d π rest hπ h⟩)⟩
  have hret {d : Option Nat} {π rest : List Place} {ret : Place} (hπ : c.pending.Covers false π)
      (h : G d c.outermost c.place π (ret :: rest)) :
      ∃ level, ⟨level, ret⟩ ∈ java.returns c.place.rule := by
    have hsited := hG.sited h
    rw [hempty hπ, List.nil_append] at hsited
    exact hsited.mem_returns
  unfold Closure.followWith
  rw [hG.net, hp, hbottom]
  dsimp only
  split
  · rename_i hfull
    exact hstop fun d π rest _ h => hG.known hfull h
  · rename_i hfull
    have hfull : L.full = false := by simpa using hfull
    split
    · rename_i hnone
      refine hstop fun d π rest hπ h => ?_
      cases rest with
      | nil => rfl
      | cons ret rest =>
        obtain ⟨level, hmem⟩ := hret hπ h
        rw [hnone] at hmem
        cases hmem
    · rename_i hsome
      have hstep (ret : Return) (hmem : ret ∈ java.returns c.place.rule) (t : Closure)
          (ht : Ready L m t) := spec_leaveTo hleave
        ((keeps_fair hG.net).out (d := d) hp hbottom hfull hmem hc) hbottom hmem ht
      rw [← hbottom]
      refine ⟨Grows.foldl (fun ret hmem t ht => (hstep ret hmem t ht).1) hs,
        fun π rest hπ h hn => ?_⟩
      cases rest with
      | nil =>
        rw [hempty hπ] at h
        exact absurd (hG.closed hfull hp h) hsome
      | cons ret rest =>
        obtain ⟨level, hmem⟩ := hret hπ h
        refine reaches_foldl (fun ret hmem t ht => (hstep ret hmem t ht).1) hs hmem
          fun t ht => (hstep _ hmem t ht).2 rest ?_
        rw [hempty hπ] at h
        exact hG.out hfull hp hmem h

/-- At the end of a rule with known ways back all of them are followed. With unknown callers none of
them is the one that is unknown. -/
theorem Follows.back (h : Follows L G leave m n) (hG : Progressive L G)
    (hp : java.node c.place = .finish) (hbottom : c.pending ≠ .bottom) (hc : c.Fair L.full)
    (hs : Ready L m s) : Spec L G (n + 1) c d s (followWith L leave (n + 1) c d s) := by
  have hfair := keeps_fair hG.net
  unfold Closure.followWith
  rw [hG.net, hp]
  dsimp only
  split
  · exact absurd ‹_› hbottom
  generalize hs₁ : (if c.pending.hasBottom = true then s.add L { c with pending := .bottom }
    else s) = s₁
  have hgrows₁ : Grows L G s s₁ := by
    rw [← hs₁]
    split
    · exact grows_add hc.bottom
    · exact .refl s
  have hstep (ret : Place × Stacks) (hmem : ret ∈ c.pending.tops) (t : Closure)
      (ht : Ready L m t) := h _ (leaveDepth d) t (hfair.back (d := d) hp hmem hc) ht
  have hf (ret : Place × Stacks) (hmem : ret ∈ c.pending.tops) (t : Closure)
      (ht : Ready L m t) := (hstep ret hmem t ht).1
  have hfold := Grows.foldl hf (hs.grows hgrows₁)
  refine ⟨hgrows₁.trans hfold, fun π rest hπ h hn => ?_⟩
  cases π with
  | nil =>
    have hhas := Stacks.hasBottom_iff.2 hπ
    have hfull : L.full = true := by
      cases hfull : L.full with
      | true => rfl
      | false =>
        rcases (hc.pure hfull).hasBottom with heq | hno
        · exact absurd heq hbottom
        · rw [hno] at hhas
          cases hhas
    refine hfold.reaches ?_
    rw [← hs₁, if_pos hhas]
    exact reaches_add hG hs.fair hc.bottom (.inr rfl) h
      (.inr ⟨hp, rfl, hG.known hfull h⟩)
  | cons ret π =>
    obtain ⟨below, hmem, hbelow⟩ := Stacks.covers_cons hπ
    exact reaches_foldl hf (hs.grows hgrows₁) hmem fun t ht => (hstep _ hmem t ht).2 π rest
      hbelow (hG.back hp h) (burden_lt hc (.back hp) hn)

/-- All ways of a configuration are followed, whatever the bound on their length. -/
theorem follows (hG : Progressive L G)
    (hleave : ∀ c s, c.Fair L.full → s.configs.Every (Config.Fair L.full) → unvisited s < m →
      Spec L G spanLimit c none s (leave c s)) (n : Nat) : Follows L G leave m n := by
  induction n with
  | zero =>
    intro c d s _ _
    exact ⟨⟨fun _ _ h => h, fun _ h => h, id, fun _ _ _ hnew hold => absurd hnew hold⟩,
      fun _ _ _ _ h => absurd h (Nat.not_lt_zero _)⟩
  | succ n ih =>
    intro c d s hc hs
    cases hp : java.node c.place with
    | guard l next => exact ih.guard hG hp hc hs
    | fork nexts => exact ih.fork hG hp hc hs
    | finish =>
      by_cases hbottom : c.pending = .bottom
      · exact spec_out hG hleave hp hbottom hc hs
      · exact ih.back hG hp hbottom hc hs
    | take ks next =>
      unfold Closure.followWith
      rw [hG.net, hp]
      exact ⟨grows_add hc, fun π rest hπ h _ =>
        reaches_add hG hs.fair hc hπ h (.inl ⟨ks, next, hp⟩)⟩
    | call r l next =>
      unfold Closure.followWith
      rw [hG.net, hp]
      obtain ⟨hgrows, hreach⟩ :=
        ih _ (d.map (· + 1)) s ((keeps_fair hG.net).call (d := d) hp hc) hs
      refine ⟨hgrows, fun π rest hπ h hn => ?_⟩
      exact hreach (c.place.move next :: π) rest (Stacks.covers_push.2 ⟨π, rfl, hπ⟩) (hG.call hp h)
        (burden_lt hc (.call hp) hn)

end

theorem followOut_spec (hG : Progressive L G) {limit : Nat} (hlimit : spanLimit ≤ limit) (m : Nat)
    (c : Config) (d : Option Nat) (s : Closure) (hc : c.Fair L.full) (hs : Ready L m s) :
    Spec L G limit c d s (followOut L limit m c d s) := by
  induction m generalizing c d s with
  | zero => exact follows hG (fun _ _ _ _ h => absurd h (Nat.not_lt_zero _)) limit c d s hc hs
  | succ m ih =>
    refine follows hG (fun c s hc hs hm => ?_) limit c d s hc hs
    obtain ⟨hgrows, hreach⟩ := ih c none s hc ⟨hs, Nat.le_of_lt_succ hm⟩
    exact ⟨hgrows, fun π rest hπ h hn => hreach π rest hπ h (Nat.lt_of_lt_of_le hn hlimit)⟩

/-- All ways into unknown callers that have been followed have been followed to their ends. -/
def Settled (L : Outlook) (G : Option Nat → Bool → Place → List Place → List Place → Prop)
    (s : Closure) : Prop :=
  ∀ (c : Config) (rest : List Place), c.Fine → mark c ∈ s.visited →
    G none c.outermost c.place [] rest → Reaches L G s c.alt (c.Allows L.level) rest.length

theorem Settled.grows (h : Settled L G s) (hst : Grows L G s t) : Settled L G t := by
  intro c rest hc hmark hG
  by_cases hs : mark c ∈ s.visited
  · exact hst.reaches (h c rest hc hs hG)
  · exact hst.settled c rest hc hmark hs hG

/-- Ways into unknown callers come to an end, because fewer and fewer ways back remain. -/
theorem Settled.found (h : Settled L G s) (hs : Reaches L G s a allowed m) :
    Found L G s.configs a allowed := by
  induction m using Nat.strongRecOn generalizing a allowed with
  | ind m ih =>
    rcases hs with hfound | ⟨c, rest, hc, rfl, hlevel, hmark, hG, hlt⟩
    · exact hfound
    · exact ih rest.length hlt ((h c rest hc hmark hG).mono hlevel (Nat.le_refl _))

theorem unvisited_le (s : Closure) : unvisited s ≤ 10000000 := by
  have hcalls := length_behindCalls
  have hlength := length_marks behindCalls
  have hle : unvisited s ≤ _ := List.countP_le_length
  omega

/-- **All ways are found.** Whatever way begins with a configuration, following the configuration
finds where the way stops. -/
theorem follow_spec (hG : Progressive L G) {limit : Nat} (hlimit : 10000000 ≤ limit) {c : Config}
    (d : Option Nat) (hc : c.Fair L.full) (hs : s.configs.Every (Config.Fair L.full))
    (hsettled : Settled L G s) :
    Grows L G s (follow L limit c d s) ∧ ∀ π rest, c.pending.Covers false π →
      G d c.outermost c.place π rest → c.place.burden π < limit →
      Found L G (follow L limit c d s).configs c.alt (c.Allows L.level) := by
  have hready : Ready L limit s := ⟨hs, Nat.le_trans (unvisited_le s) hlimit⟩
  have hspan : spanLimit ≤ limit := Nat.le_trans (by decide) hlimit
  obtain ⟨hgrows, hreach⟩ := followOut_spec hG hspan limit c d s hc hready
  exact ⟨hgrows, fun π rest hπ h hn => (hsettled.grows hgrows).found (hreach π rest hπ h hn)⟩

end

end Closure

end JavaOutline
