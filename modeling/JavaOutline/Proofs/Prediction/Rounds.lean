import JavaOutline.Proofs.Prediction.Steps
import JavaOutline.Proofs.Prediction.Verdicts

/-!
# Rounds of looking ahead

One round takes a token and follows all ways behind it. A run by which an alternative goes on is
still tracked after the round, with unknown callers (`Choice.Tracks.local_round`) and with known
ones (`Choice.Tracks.full_round`). With known callers nothing else is tracked: every configuration
belongs to a run (`Choice.Sound`).
-/

namespace JavaOutline

open Network Closure

namespace ConfigSet

variable {L : Outlook} {limit : Nat} {s t : ConfigSet} {c : Config} {τ : List Place} {k : Kind}

/-- At the end of the file only what has ended counts. -/
def kept (L : Outlook) (k : Kind) (s : ConfigSet) : ConfigSet :=
  if k == .endOfFile then s.filter fun _ c => finished L.net c else s

/-- The configurations that the next token leads to. -/
def after (L : Outlook) (limit : Nat) (s : ConfigSet) (k : Kind) : ConfigSet :=
  let t := kept L k (followed L limit ((ended L s k).isEmpty && k != .endOfFile)
    (moved L s k)).configs
  if !(ended L s k).isEmpty && (!L.full || !t.any fun _ c => finished L.net c) then
    (ended L s k).foldl (add (!L.full)) t
  else t

theorem step_eq (L : Outlook) (limit : Nat) (s : ConfigSet) (k : Kind) :
    s.step L limit k = if (after L limit s k).isEmpty then none
      else some (after L limit s k,
        (followed L limit ((ended L s k).isEmpty && k != .endOfFile) (moved L s k)).overrun) :=
  rfl

theorem isEmpty_eq_false {wild : Bool} (h : s.Has wild c τ) : s.isEmpty = false := by
  obtain ⟨j, d, hd, -⟩ := h
  have hmem : j ∈ s := by
    rw [← Std.TreeMap.isSome_getElem?_iff_mem, hd]
    rfl
  exact Std.TreeMap.isEmpty_eq_false_of_contains (Std.TreeMap.contains_iff_mem.2 hmem)

theorem finished_iff (hnet : L.net = java) :
    finished L.net c = true ↔ java.node c.place = .finish := by
  rw [finished, hnet, beq_iff_eq]

/-- The configurations that have ended are those at the end of a rule. -/
theorem mem_ended (hc : c ∈ s.ended L k) : (∃ j : Nat, s[j]? = some c) ∧ finished L.net c = true := by
  unfold ended at hc
  split at hc
  · obtain ⟨hmem, hfinished⟩ := List.mem_filter.1 hc
    exact ⟨mem_values_iff.1 hmem, hfinished⟩
  · cases hc

/-- At the end of the file all configurations at the end of a rule have ended. -/
theorem mem_ended_endOfFile {i : Nat} (hnet : L.net = java) (hc : s[i]? = some c)
    (hp : java.node c.place = .finish) : c ∈ ended L s .endOfFile := by
  rw [ended, if_pos (by simp), List.mem_filter, mem_values_iff]
  exact ⟨⟨i, hc⟩, (finished_iff hnet).2 hp⟩

theorem Has.filter {wild : Bool} (h : s.Has wild c τ) {f : Place → Bool} (hf : f c.place = true) :
    Has wild (s.filter fun _ d => f d.place) c τ := by
  obtain ⟨j, d, hd, hplace, h⟩ := h
  refine ⟨j, d, ?_, hplace, h⟩
  rw [← Std.TreeMap.mem_toList_iff_getElem?_eq_some, Std.TreeMap.toList_filter, List.mem_filter]
  exact ⟨Std.TreeMap.mem_toList_iff_getElem?_eq_some.2 hd, by dsimp only; rw [hplace, hf]⟩

theorem Has.foldl_add {wild : Bool} (h : s.Has wild c τ) (cs : List Config) :
    Has wild (cs.foldl (ConfigSet.add wild) s) c τ :=
  List.foldlRecOn (motive := fun t : ConfigSet => t.Has wild c τ) cs _ h fun _ ht _ _ => ht.add

theorem Every.foldl_add {I : Config → Prop} {wild : Bool} (hs : s.Every I) (hjoin : Joins I wild)
    {cs : List Config} (hcs : ∀ c ∈ cs, I c) : Every I (cs.foldl (ConfigSet.add wild) s) :=
  List.foldlRecOn (motive := fun t : ConfigSet => t.Every I) cs _ hs
    fun _ ht c hc => ht.add hjoin (hcs c hc)

/-- A single alternative is left where it is, several are followed. -/
theorem followed_cases (L : Outlook) (limit : Nat) (s : ConfigSet) (unique : Bool) :
    (s.followed L limit unique).configs = s ∧ unique = true ∧ (∃ a, s.uniqueAlt? = some a) ∨
      (s.followed L limit unique).configs = followAll L limit s := by
  unfold followed
  split
  · rename_i h
    rw [Bool.and_eq_true, Option.isSome_iff_exists] at h
    exact .inl ⟨rfl, h⟩
  · exact .inr rfl

/-- At the end of the file all of them are followed. -/
theorem followed_endOfFile (L : Outlook) (limit : Nat) (s : ConfigSet) (unique : Bool) :
    (s.followed L limit (unique && Kind.endOfFile != .endOfFile)).configs =
      followAll L limit s := by
  rcases followed_cases L limit s (unique && Kind.endOfFile != .endOfFile) with ⟨-, hno, -⟩ | heq
  · simp at hno
  · exact heq

/-- Where a run has ended, something has ended. -/
theorem any_finished {wild : Bool} (h : s.Has wild c τ) (hnet : L.net = java)
    (hp : java.node c.place = .finish) : (s.any fun _ c => finished L.net c) = true := by
  obtain ⟨i, d, hd, hplace, -⟩ := h
  exact any_iff.2 ⟨i, d, hd, (finished_iff hnet).2 (hplace ▸ hp)⟩

theorem Every.kept {I : Config → Prop} (hs : s.Every I) : (kept L k s).Every I := by
  unfold ConfigSet.kept
  split
  · exact (hs.filter _).mono fun _ h => h.1
  · exact hs

/-- What holds of the configurations behind the token that count and of what has ended holds of all
that the token leads to. -/
theorem Every.after {I : Config → Prop} (hjoin : Joins I (!L.full))
    (hkept : ∀ unique, (ConfigSet.kept L k (followed L limit unique (s.moved L k)).configs).Every I)
    (hended : ∀ c ∈ s.ended L k, I c) : (after L limit s k).Every I := by
  rw [ConfigSet.after]
  split
  · exact (hkept _).foldl_add hjoin hended
  · exact hkept _

/-- Where a single alternative is left, its configurations are those behind the token. -/
theorem after_eq_moved
    (heq : (followed L limit ((ended L s k).isEmpty && k != .endOfFile) (s.moved L k)).configs =
      s.moved L k)
    (hunique : ((ended L s k).isEmpty && k != .endOfFile) = true) :
    after L limit s k = s.moved L k := by
  rw [Bool.and_eq_true, bne_iff_ne] at hunique
  have hkept (t : ConfigSet) : kept L k t = t := if_neg (by simpa using hunique.2)
  rw [ConfigSet.after, hkept, heq, hunique.1]
  rfl

theorem Has.after (h : (kept L k (followed L limit ((ended L s k).isEmpty && k != .endOfFile)
    (s.moved L k)).configs).Has (!L.full) c τ) : (after L limit s k).Has (!L.full) c τ := by
  rw [ConfigSet.after]
  split
  · exact h.foldl_add _
  · exact h

end ConfigSet

/-! ## A round with unknown callers -/

namespace Choice

variable {C : Choice} {L : Outlook} {limit j : Nat} {s : ConfigSet} {c : Config} {τ : List Place}

open ConfigSet

/-- A run that is tracked is still there behind the next token. -/
theorem Tracks.moved (h : C.Tracks L.full s j c τ) (hs : s.Every (Config.Fair L.full))
    (hnet : L.net = java) {ks : KindSet} {next : Nat} (hp : java.node c.place = .take ks next) :
    C.Tracks L.full (s.moved L (kindAt C.kinds j)) (behind C.kinds j) (c.move next) τ where
  has := h.has.moved hs hnet hp (h.accepts.of_take hp).1
  allows := h.allows
  sited := h.sited.take hp
  rooted := (rule_base_move ..).trans h.rooted
  accepts := (h.accepts.of_take hp).2
  good := h.good

theorem fair_moved {k : Kind} (hs : s.Every (Config.Fair L.full)) (hnet : L.net = java) :
    (s.moved L k).Every (Config.Fair L.full) :=
  hs.moved hnet (fun _ _ hc hd _ => hc.join hd)
    fun _ _ _ hc hp _ => { hc with valid := hc.valid.take hp }

theorem fair_followed {k : Kind} (hs : s.Every (Config.Fair L.full)) (hnet : L.net = java)
    (unique : Bool) : (followed L limit unique (s.moved L k)).configs.Every (Config.Fair L.full) := by
  have hkeeps : Keeps { L with guards := false } _ _ := keeps_fair hnet
  have hmoved : (s.moved L k).Every (Config.Fair L.full) := fair_moved hs hnet
  rcases followed_cases L limit (s.moved L k) unique with ⟨heq, -⟩ | heq
  · rw [heq]
    exact hmoved
  · rw [heq]
    exact hkeeps.followAll hmoved

theorem fair_after {k : Kind} (hs : s.Every (Config.Fair L.full)) (hnet : L.net = java) :
    (after L limit s k).Every (Config.Fair L.full) := by
  refine Every.after (fun _ _ hc hd _ => hc.join hd) (fun unique => (fair_followed hs hnet _).kept)
    fun c hc => ?_
  obtain ⟨⟨j, hj⟩, -⟩ := mem_ended hc
  exact (hs j c hj).2

/-- At the end of the file only what has ended is left. -/
theorem finished_after (hs : s.Every (Config.Fair L.full)) (hnet : L.net = java) :
    (after L limit s .endOfFile).Every fun c => finished L.net c = true := by
  refine Every.after (fun _ _ hc _ _ => hc) (fun unique => ?_) fun c hc => (mem_ended hc).2
  exact ((fair_followed hs hnet _).filter _).mono fun _ h => h.2

/-- A run that has ended is among those that have ended. -/
theorem has_foldl_ended {t : ConfigSet} {k : Kind} {i : Nat} {d : Config}
    (hs : s.Every (Config.Fair L.full)) (ht : t.Every (Config.Fair L.full)) (hd : s[i]? = some d)
    (hmem : d ∈ ended L s k) (hcovers : d.pending.Covers (!L.full) τ) :
    ((ended L s k).foldl (add (!L.full)) t).Has (!L.full) d τ := by
  refine foldl_of_mem (P := fun t : ConfigSet => t.Has (!L.full) d τ)
    (Q := fun t : ConfigSet => t.Every (Config.Fair L.full)) (fun t e he ht => ?_) hmem
    (fun t ht => has_add (ht.mono fun _ h => h.toFine) (hs i d hd).2.toFine hcovers)
    (fun t e _ _ ht => ht.add) ht
  obtain ⟨⟨j, hj⟩, -⟩ := mem_ended he
  exact ht.add (fun _ _ hc hd _ => hc.join hd) (hs j e hj).2

theorem isEmpty_ended {k : Kind} {d : Config} (h : d ∈ ended L s k) :
    (ended L s k).isEmpty = false := by
  rw [List.isEmpty_eq_false_iff]
  exact List.ne_nil_of_mem h

/-- Where the run is in front of the end of the file, it ends behind it. -/
theorem Tracks.endOfFile (h : C.Tracks L.full s j c τ) (hs : s.Every (Config.Fair L.full))
    (hnet : L.net = java) (hlevel : L.level = C.level) (hlimit : 10000000 ≤ limit)
    (hends : L.full = false → C.root = .compilationUnit ∨ behind C.kinds j < C.kinds.size)
    (hk : kindAt C.kinds j = .endOfFile) {ks : KindSet} {next : Nat}
    (hp : java.node c.place = .take ks next)
    (hcarries : Carries limit (s.moved L (kindAt C.kinds j)) (c.place.move next) τ) (unique : Bool) :
    ∃ c' τ', C.Tracks L.full (kept L .endOfFile (followed L limit (unique && Kind.endOfFile !=
      .endOfFile) (s.moved L .endOfFile)).configs) (behind C.kinds j) c' τ' ∧ Stops c' τ' ∧
      τ'.length ≤ τ.length + spanLimit ∧ java.node c'.place = .finish ∧ c'.alt = c.alt := by
  have hmoved := h.moved hs hnet hp
  have hmem := (h.accepts.of_take hp).1
  rw [hk] at hmoved hmem hcarries
  obtain ⟨c', τ', htracks, hstops, hle, hleads, halt⟩ := hmoved.followAll (fair_moved hs hnet) hnet
    hlevel hlimit hends hcarries (LeadsTo finalPlace) (fun hsited hd h => h.drift hsited hd)
    (leadsTo_of_endOfFile h.sited.valid hp hmem)
  have hfinish : java.node c'.place = .finish := by
    rcases hstops with ⟨ks, next, hp⟩ | h
    · exact absurd hp (hleads.ne_take ks next)
    · exact h.1
  refine ⟨c', τ', { htracks with has := ?_ }, hstops, hle, hfinish, halt⟩
  rw [followed_endOfFile]
  exact htracks.has.filter (f := fun p => L.net.node p == .finish) (by rw [hnet, hfinish]; rfl)

/-- **A run that is tracked with unknown callers is not lost with the next token**, unless it comes to
the end of the tokens without having read a whole file. -/
theorem Tracks.local_round (h : C.Tracks L.full s j c τ) (hstop : Stops c τ)
    (hs : s.Every (Config.Fair L.full)) (hnet : L.net = java) (hfull : L.full = false)
    (hlevel : L.level = C.level) (hlimit : 10000000 ≤ limit)
    (hends : C.root = .compilationUnit ∨ behind C.kinds j < C.kinds.size)
    (hcarries : ∀ ks next, java.node c.place = .take ks next →
      Carries limit (s.moved L (kindAt C.kinds j)) (c.place.move next) τ) :
    ∃ c' τ', C.Tracks L.full (after L limit s (kindAt C.kinds j)) (behind C.kinds j) c' τ' ∧
      τ'.length ≤ τ.length + spanLimit ∧ c'.alt = c.alt ∧
      ((after L limit s (kindAt C.kinds j)).uniqueAlt? = none → Stops c' τ') := by
  rcases hstop with ⟨ks, next, hp⟩ | ⟨hp, rfl⟩
  · by_cases hend : kindAt C.kinds j = .endOfFile
    · obtain ⟨c', τ', htracks, hstops, hle, -, halt⟩ := h.endOfFile hs hnet hlevel hlimit
        (fun _ => hends) hend hp (hcarries ks next hp) (ended L s .endOfFile).isEmpty
      rw [hend]
      exact ⟨c', τ', { htracks with has := htracks.has.after }, hle, halt, fun _ => hstops⟩
    · have hmoved := h.moved hs hnet hp
      have hcarries := hcarries ks next hp
      have hkept (t : ConfigSet) : kept L (kindAt C.kinds j) t = t := if_neg (by simpa using hend)
      generalize kindAt C.kinds j = k at *
      rcases followed_cases L limit (s.moved L k) ((ended L s k).isEmpty && k != .endOfFile) with
        ⟨heq, hone, a, hunique⟩ | heq
      · rw [after_eq_moved heq hone]
        refine ⟨c.move next, τ, hmoved, by omega, rfl, fun hnone => ?_⟩
        rw [hunique] at hnone
        cases hnone
      · obtain ⟨c', τ', htracks, hstops, hle, -, halt⟩ := hmoved.followAll (fair_moved hs hnet) hnet
          hlevel hlimit (fun _ => hends) hcarries (fun _ => True) (fun _ _ h => h) trivial
        refine ⟨c', τ', { htracks with has := Has.after ?_ }, hle, halt, fun _ => hstops⟩
        rw [hkept, heq]
        exact htracks.has
  · have hsize := h.accepts.size_le hp
    obtain ⟨i, d, hd, hplace, halt, hdlevel, hout, hcovers⟩ := h.has
    have hbehind : behind C.kinds j = j := if_neg (by omega)
    rw [kindAt_of_size_le hsize, hbehind]
    have hmem := mem_ended_endOfFile hnet hd (hplace ▸ hp)
    refine ⟨c, [], { h with has := ?_ }, by omega, rfl, fun _ => .inr ⟨hp, rfl⟩⟩
    rw [ConfigSet.after]
    rw [if_pos (by simp [isEmpty_ended hmem, hfull])]
    exact (has_foldl_ended hs (fair_followed hs hnet _).kept hd hmem hcovers).congr hplace.symm
      halt.symm hdlevel.symm hout

/-! ## A round with known callers -/

/-- Nodes of one rule lead from one place to another. -/
inductive Onward (p : Place) : Place → Prop where
  | refl : Onward p p
  | step {q : Place} {next : Nat} (h : Onward p q) (hnext : next ∈ (java.node q).nexts) :
      Onward p (q.move next)

theorem Onward.move {p q : Place} {σ : List Place} (h : Onward q (base p σ)) {next : Nat}
    (hnext : next ∈ (java.node p).nexts) : Onward q (base (p.move next) σ) := by
  cases σ with
  | nil => exact .step h hnext
  | cons ret σ => rwa [base_cons] at h ⊢

/-- A place with ways back to where those of the decision end, or to what follows there. -/
structure Stems (C : Choice) (p : Place) (σ : List Place) : Prop extends Rooted C.root p σ where
  onward : Onward (base C.place C.callers) (base p σ)

namespace Stems

variable {p q : Place} {σ : List Place}

theorem origin (h : Sited C.place C.callers) : C.Stems C.place C.callers := ⟨⟨h, rfl⟩, .refl⟩

theorem take {ks : KindSet} {next : Nat} (h : C.Stems p σ) (hp : java.node p = .take ks next) :
    C.Stems (p.move next) σ :=
  ⟨h.toRooted.take hp, h.onward.move (by simp [hp, Node.nexts])⟩

theorem drift (h : C.Stems p σ) (hd : Drift p σ q τ) : C.Stems q τ := by
  refine ⟨h.toRooted.drift hd, ?_⟩
  cases hd with
  | call hp =>
    rw [base_cons]
    exact h.onward.move (by simp [hp, Node.nexts])
  | guard hp => exact h.onward.move (by simp [hp, Node.nexts])
  | fork hp hnext => exact h.onward.move (by simpa [hp, Node.nexts] using hnext)
  | back hp =>
    have honward := h.onward
    rwa [base_cons] at honward

end Stems

/-- Nowhere in the decision is the end of the file taken. -/
def Shut (C : Choice) : Prop :=
  ∀ p σ, C.Stems p σ → ∀ ks next, java.node p = .take ks next → Kind.endOfFile ∉ ks

/-- A configuration with known callers from which the parse can be completed belongs to a good
alternative. If not `strict`, nothing is said of those that have ended. -/
structure Sound (C : Choice) (j : Nat) (strict : Prop) (c : Config) : Prop where
  fair : c.Fair true
  free : c.level = none
  sited : ∀ τ, c.pending.Covers false τ → C.Stems c.place τ
  ended : java.node c.place = .finish → c.pending = .bottom
  good : (java.node c.place = .finish → strict) → ∀ τ, c.pending.Covers false τ →
    Accepts C.kinds c.place τ j → C.Good c.alt

/-- The same for a configuration on its way to the next token. -/
structure Going (C : Choice) (level j : Nat) (c : Config) (d : Option Nat) : Prop where
  fair : c.Fair true
  free : c.level = none
  sited : ∀ τ, c.pending.Covers false τ → C.Stems c.place τ
  good : ∀ τ, c.pending.Covers false τ → Viable C.kinds level j d c.place τ → C.Good c.alt

variable {strict strict' : Prop}

theorem Sound.mono (h : C.Sound j strict c) (himp : strict' → strict) : C.Sound j strict' c :=
  { h with good := fun hstrict => h.good fun hp => himp (hstrict hp) }

theorem joins_sound : Joins (C.Sound j strict) false := by
  intro c d hc hd hkey
  obtain ⟨hplace, halt, -⟩ := hc.fair.key_inj hd.fair.toFine hkey
  refine ⟨hc.fair.join hd.fair, hc.free, fun τ hτ => ?_, fun hp => ?_, fun hstrict τ hτ h => ?_⟩
  · rcases Stacks.covers_merge.1 hτ with hτ | hτ
    · have hsited := hd.sited τ hτ
      rwa [← hplace] at hsited
    · exact hc.sited τ hτ
  · have hcbottom := hc.ended hp
    have hdbottom := hd.ended (hplace ▸ hp)
    rw [Config.join, hcbottom, hdbottom]
    rfl
  · rcases Stacks.covers_merge.1 hτ with hτ | hτ
    · have hgood := hd.good (hplace ▸ hstrict) τ hτ (hplace ▸ h)
      rwa [← halt] at hgood
    · exact hc.good hstrict τ hτ h

theorem joins_going {level : Nat} {d : Option Nat} : Joins (C.Going level j · d) false := by
  intro c e hc he hkey
  obtain ⟨hplace, halt, -⟩ := hc.fair.key_inj he.fair.toFine hkey
  refine ⟨hc.fair.join he.fair, hc.free, fun τ hτ => ?_, fun τ hτ h => ?_⟩
  · rcases Stacks.covers_merge.1 hτ with hτ | hτ
    · have hsited := he.sited τ hτ
      rwa [← hplace] at hsited
    · exact hc.sited τ hτ
  · rcases Stacks.covers_merge.1 hτ with hτ | hτ
    · have hgood := he.good τ hτ (hplace ▸ h)
      rwa [← halt] at hgood
    · exact hc.good τ hτ h

/-- With known callers each step of a way is one of a run. -/
theorem keeps_sound {level : Nat} (hnet : L.net = java) (hfull : L.full = true)
    (hlevel : level = 0 ∨ L.guards = true ∧ L.level = level) :
    Keeps L (C.Going level j) (C.Sound j True) := by
  have hfair := hfull ▸ keeps_fair hnet
  exact
    { net := hnet
      joins := hfull ▸ joins_sound
      take := fun hp hc => ⟨hc.fair, hc.free, hc.sited, fun hp' => absurd (hp.symm.trans hp') nofun,
        fun _ τ hτ h => hc.good τ hτ (.take hp (h.of_take hp).1 (h.of_take hp).2)⟩
      call := fun {c d r l next} hp hc => by
        refine ⟨hfair.call (d := d) hp hc.fair, hc.free, fun τ hτ => ?_, fun τ hτ h => ?_⟩
        · obtain ⟨σ, rfl, hσ⟩ := Stacks.covers_push.1 hτ
          exact (hc.sited σ hσ).drift (.call hp)
        · obtain ⟨σ, rfl, hσ⟩ := Stacks.covers_push.1 hτ
          exact hc.good σ hσ (.call hp h)
      guard := fun {c d l next} hp hc hok => by
        refine ⟨hfair.guard (d := d) hp hc.fair hok, hc.free,
          fun τ hτ => (hc.sited τ hτ).drift (.guard hp),
          fun τ hτ h => hc.good τ hτ (.guard hp (fun hd => ?_) h)⟩
        rcases hlevel with rfl | ⟨hguards, rfl⟩
        · exact Nat.zero_le l
        · exact (hok hguards hd).2
      collect := fun hno => absurd (hfull.symm.trans hno) nofun
      fork := fun {c d nexts next} hp hnext hc =>
        ⟨hfair.fork (d := d) hp hnext hc.fair, hc.free,
          fun τ hτ => (hc.sited τ hτ).drift (.fork hp hnext),
          fun τ hτ h => hc.good τ hτ (.fork hp hnext h)⟩
      finish := fun {c d} hp hbottom _ hc => by
        have hnil := Stacks.hasBottom_iff.1 hbottom
        refine ⟨hc.fair.bottom, hc.free, fun τ hτ => ?_, fun _ => rfl,
          fun _ τ hτ h => ?_⟩
        · obtain rfl := hτ.resolve_left nofun
          exact hc.sited [] hnil
        · obtain rfl := hτ.resolve_left nofun
          exact hc.good [] hnil (.done hp (h.size_le hp))
      out := fun _ _ hno => absurd (hfull.symm.trans hno) nofun
      back := fun {c d ret below} hp hmem hc => by
        refine ⟨hfair.back (d := d) hp hmem hc.fair, hc.free, fun τ hτ => ?_, fun τ hτ h => ?_⟩
        · exact (hc.sited _ (Stacks.covers_of_mem_tops hmem hτ)).drift (.back hp)
        · exact hc.good _ (Stacks.covers_of_mem_tops hmem hτ) (.back hp h) }

theorem going_moved (hs : s.Every (C.Sound j strict)) (hnet : L.net = java) (hfull : L.full = true) :
    (s.moved L (kindAt C.kinds j)).Every fun c => C.Going 0 (behind C.kinds j) c (some 0) := by
  refine hs.moved hnet (hfull ▸ joins_going) fun c ks next hc hp hk => ?_
  have hfair : (c.move next).Fair true := { hc.fair with valid := hc.fair.valid.take hp }
  refine ⟨hfair, hc.free, fun τ hτ => (hc.sited τ hτ).take hp, fun τ hτ h => ?_⟩
  exact hc.good (fun hp' => absurd (hp.symm.trans hp') nofun) τ hτ (.take hp hk h.accepts)

theorem sound_followAll (hs : s.Every (C.Sound j strict)) (hnet : L.net = java)
    (hfull : L.full = true) (limit : Nat) :
    (followAll L limit (s.moved L (kindAt C.kinds j))).Every (C.Sound (behind C.kinds j) True) := by
  have hkeeps : Keeps { L with guards := false } (C.Going 0 (behind C.kinds j))
    (C.Sound (behind C.kinds j) True) := keeps_sound hnet hfull (.inl rfl)
  exact hkeeps.followAll (going_moved hs hnet hfull)

/-- What comes of a round with known callers: a run is still tracked, and unless one alternative is
left, all configurations are sound. -/
structure Round (C : Choice) (t : ConfigSet) (j : Nat) (c : Config) (τ : List Place) : Prop where
  tracks : C.Tracks true t j c τ
  stops : t.uniqueAlt? = none → Stops c τ
  sound : t.uniqueAlt? = none → t.Every (C.Sound j (java.node c.place = .finish))

section
variable (hs : s.Every (C.Sound j (java.node c.place = .finish))) (hnet : L.net = java)
  (hfull : L.full = true)

include hs hnet hfull

/-- The end of the file behind a run: something has ended behind it, so what has ended before it does
not count. -/
theorem Tracks.full_round_endOfFile (h : C.Tracks L.full s j c τ) {ks : KindSet} {next : Nat}
    (hp : java.node c.place = .take ks next) (hend : kindAt C.kinds j = .endOfFile)
    (hlevel : L.level = C.level) (hlimit : 10000000 ≤ limit)
    (hlength : spanLimit * (τ.length + 1) ≤ limit) :
    ∃ c' τ', C.Round (after L limit s .endOfFile) (behind C.kinds j) c' τ' ∧
      τ'.length ≤ τ.length + spanLimit ∧ c'.alt = c.alt := by
  have hfair : s.Every (Config.Fair L.full) := hs.mono fun c hc => hfull ▸ hc.fair
  have hsound := sound_followAll hs hnet hfull limit
  obtain ⟨c', τ', htracks, hstops, hle, hfinish, halt⟩ := h.endOfFile hfair hnet hlevel hlimit
    (fun hno => absurd (hfull.symm.trans hno) nofun) hend hp
    (carries_of_length (h.sited.take hp) hlength) (ended L s .endOfFile).isEmpty
  have hafter : after L limit s .endOfFile =
      kept L .endOfFile (Closure.followAll L limit (s.moved L .endOfFile)) := by
    rw [followed_endOfFile] at htracks
    rw [ConfigSet.after, followed_endOfFile]
    rw [if_neg (by simp [hfull, any_finished htracks.has hnet hfinish])]
  rw [followed_endOfFile] at htracks
  rw [hend] at hsound
  rw [hafter]
  exact ⟨c', τ', ⟨hfull ▸ htracks, fun _ => hstops,
    fun _ => hsound.kept.mono fun _ hd => hd.mono fun _ => trivial⟩, hle, halt⟩

/-- Another token behind a run: where what has ended before it still counts, nothing has ended behind
it, the run included. -/
theorem Tracks.full_round_take (h : C.Tracks L.full s j c τ) {ks : KindSet} {next : Nat}
    (hp : java.node c.place = .take ks next) (hend : kindAt C.kinds j ≠ .endOfFile)
    (hlevel : L.level = C.level) (hlimit : 10000000 ≤ limit)
    (hlength : spanLimit * (τ.length + 1) ≤ limit) :
    ∃ c' τ', C.Round (after L limit s (kindAt C.kinds j)) (behind C.kinds j) c' τ' ∧
      τ'.length ≤ τ.length + spanLimit ∧ c'.alt = c.alt := by
  have hfair : s.Every (Config.Fair L.full) := hs.mono fun c hc => hfull ▸ hc.fair
  have hsound := sound_followAll hs hnet hfull limit
  have hmoved := h.moved hfair hnet hp
  have hkept (t : ConfigSet) : kept L (kindAt C.kinds j) t = t := if_neg (by simpa using hend)
  generalize kindAt C.kinds j = k at *
  rcases followed_cases L limit (s.moved L k) ((ended L s k).isEmpty && k != .endOfFile) with
    ⟨heq, hunique, a, ha⟩ | heq
  · have hsome (hnone : (s.moved L k).uniqueAlt? = none) : False := by
      rw [ha] at hnone
      cases hnone
    rw [after_eq_moved heq hunique]
    exact ⟨c.move next, τ, ⟨hfull ▸ hmoved, fun hnone => (hsome hnone).elim,
      fun hnone => (hsome hnone).elim⟩, by omega, rfl⟩
  · obtain ⟨c', τ', htracks, hstops, hle, -, halt⟩ := hmoved.followAll (fair_moved hfair hnet) hnet
      hlevel hlimit (fun hno => absurd (hfull.symm.trans hno) nofun)
      (carries_of_length hmoved.sited hlength) (fun _ => True) (fun _ _ h => h) trivial
    have hhas : (after L limit s k).Has (!L.full) c' τ' := by
      refine Has.after ?_
      rw [hkept, heq]
      exact htracks.has
    refine ⟨c', τ', ⟨hfull ▸ { htracks with has := hhas }, fun _ => hstops, fun _ => ?_⟩, hle, halt⟩
    rw [ConfigSet.after]
    rw [hkept, heq]
    have hall := hsound.mono fun _ hd => hd.mono fun _ : java.node c'.place = .finish => trivial
    split
    · rename_i hcond
      simp only [hfull, Bool.not_true, Bool.false_or, Bool.and_eq_true, Bool.not_eq_true'] at hcond
      have hno : java.node c'.place ≠ .finish := fun hfinish =>
        absurd (hcond.2.symm.trans (any_finished htracks.has hnet hfinish)) nofun
      refine hall.foldl_add (hfull ▸ joins_sound) fun d hd => ?_
      obtain ⟨⟨i, hi⟩, hfin⟩ := mem_ended hd
      have hd := (hs i d hi).2
      exact ⟨hd.fair, hd.free, hd.sited, hd.ended,
        fun hstrict => absurd (hstrict ((finished_iff hnet).1 hfin)) hno⟩
    · exact hall

omit hs in
/-- Where no configuration has a way back, none of those that follow has one. -/
theorem keeps_lost : Keeps L (fun c _ => ∀ τ, ¬c.pending.Covers false τ)
    (fun c => ∀ τ, ¬c.pending.Covers false τ) where
  net := hnet
  joins c d hc hd _ τ hτ := by
    rw [hfull] at hτ
    rcases Stacks.covers_merge.1 hτ with hτ | hτ
    · exact hd τ hτ
    · exact hc τ hτ
  take _ hc := hc
  call _ hc τ hτ := by
    obtain ⟨σ, rfl, hσ⟩ := Stacks.covers_push.1 hτ
    exact hc σ hσ
  guard _ hc _ := hc
  collect hno := absurd (hfull.symm.trans hno) nofun
  fork _ _ hc := hc
  finish _ hbottom _ hc := absurd (Stacks.hasBottom_iff.1 hbottom) (hc [])
  out _ _ hno := absurd (hfull.symm.trans hno) nofun
  back _ hmem hc τ hτ := hc _ (Stacks.covers_of_mem_tops hmem hτ)

/-- Where the end of the file is never taken, nothing has ended behind it. -/
theorem lost_endOfFile (hshut : C.Shut) (limit : Nat) :
    (followAll L limit (s.moved L .endOfFile)).Every fun c => ∀ τ, ¬c.pending.Covers false τ := by
  have hkeeps : Keeps { L with guards := false } _ _ := keeps_lost hnet hfull
  refine hkeeps.followAll (hs.moved hnet hkeeps.joins fun c ks next hc hp hk τ hτ => ?_)
  exact hshut c.place τ (hc.sited τ hτ) ks next hp hk

/-- A run that has ended is still there, or another one has ended behind the token. -/
theorem Tracks.full_round_ended (h : C.Tracks L.full s j c [])
    (hp : java.node c.place = .finish) (limit : Nat) :
    ∃ c' τ', C.Round (after L limit s .endOfFile) j c' τ' ∧ τ'.length ≤ spanLimit ∧
      (C.Shut → c'.alt = c.alt) := by
  have hfair : s.Every (Config.Fair L.full) := hs.mono fun c hc => hfull ▸ hc.fair
  have hsound := sound_followAll hs hnet hfull limit
  have hsize := h.accepts.size_le hp
  have hbehind : behind C.kinds j = j := if_neg (by omega)
  rw [kindAt_of_size_le hsize, hbehind] at hsound
  have hkeptsound := Every.kept (L := L) (k := .endOfFile) hsound
  obtain ⟨i, d, hd, hplace, halt, hdlevel, hout, hcovers⟩ := h.has
  have hmem := mem_ended_endOfFile hnet hd (hplace ▸ hp)
  rw [ConfigSet.after, followed_endOfFile, isEmpty_ended hmem]
  split
  · refine ⟨c, [], ⟨hfull ▸ { h with has := ?_ }, fun _ => .inr ⟨hp, rfl⟩, fun _ => ?_⟩, by simp,
      fun _ => rfl⟩
    · exact (has_foldl_ended hfair (hkeptsound.mono fun _ h => hfull ▸ h.fair) hd hmem
        hcovers).congr hplace.symm halt.symm hdlevel.symm hout
    · refine Every.foldl_add (hkeptsound.mono fun _ h => h.mono fun _ => trivial)
        (hfull ▸ joins_sound) fun e he => ?_
      obtain ⟨⟨i, hi⟩, -⟩ := mem_ended he
      exact (hs i e hi).2
  · rename_i hcond
    simp only [hfull, Bool.not_false, Bool.not_true, Bool.false_or, Bool.true_and,
      Bool.not_eq_true', Bool.not_eq_false] at hcond
    obtain ⟨i', f, hf, hfin⟩ := any_iff.1 hcond
    have hfinish := (finished_iff hnet).1 hfin
    have hfsound := (hkeptsound i' f hf).2
    have hnil : f.pending.Covers false [] := by
      rw [hfsound.ended hfinish]
      exact .inr rfl
    have haccepts : Accepts C.kinds f.place [] j := .done hfinish hsize
    have htracks : C.Tracks true _ j f [] :=
      { has := ⟨i', f, hf, rfl, rfl, rfl, id, hnil⟩
        allows := fun l hl => absurd (hfsound.free.symm.trans hl) nofun
        sited := (hfsound.sited [] hnil).toSited
        rooted := (hfsound.sited [] hnil).base_rule
        accepts := haccepts
        good := hfsound.good (fun _ => trivial) [] hnil haccepts }
    refine ⟨f, [], ⟨htracks, fun _ => .inr ⟨hfinish, rfl⟩,
      fun _ => hkeptsound.mono fun _ h => h.mono fun _ => trivial⟩, by simp, fun hshut => ?_⟩
    exact absurd hnil ((lost_endOfFile hs hnet hfull hshut limit).kept i' f hf |>.2 [])

/-- **A run that is tracked with known callers is not lost with the next token**, or another one has
ended by taking the end of the file. -/
theorem Tracks.full_round (h : C.Tracks L.full s j c τ) (hstop : Stops c τ)
    (hlevel : L.level = C.level) (hlimit : 10000000 ≤ limit)
    (hlength : spanLimit * (τ.length + 1) ≤ limit) :
    ∃ c' τ', C.Round (after L limit s (kindAt C.kinds j)) (behind C.kinds j) c' τ' ∧
      τ'.length ≤ τ.length + spanLimit ∧ (C.Shut → c'.alt = c.alt) := by
  rcases hstop with ⟨ks, next, hp⟩ | ⟨hp, rfl⟩
  · by_cases hend : kindAt C.kinds j = .endOfFile
    · rw [hend]
      obtain ⟨c', τ', hround, hle, halt⟩ :=
        h.full_round_endOfFile hs hnet hfull hp hend hlevel hlimit hlength
      exact ⟨c', τ', hround, hle, fun _ => halt⟩
    · obtain ⟨c', τ', hround, hle, halt⟩ :=
        h.full_round_take hs hnet hfull hp hend hlevel hlimit hlength
      exact ⟨c', τ', hround, hle, fun _ => halt⟩
  · have hsize := h.accepts.size_le hp
    have hbehind : behind C.kinds j = j := if_neg (by omega)
    obtain ⟨c', τ', hround, hle, halt⟩ := h.full_round_ended hs hnet hfull hp limit
    rw [kindAt_of_size_le hsize, hbehind]
    exact ⟨c', τ', hround, by omega, halt⟩

end

end Choice

end JavaOutline
