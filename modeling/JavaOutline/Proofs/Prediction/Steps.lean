import JavaOutline.Proofs.Prediction.Traces

/-!
# One token further

Taking a token moves the traces that agree with it and drops the others (`ConfigSet.Has.moved`), and
following the ways from all configurations that have taken it keeps them
(`Choice.Tracks.followAll`). At the end of the file nothing is left to take
(`leadsTo_of_endOfFile`).
-/

namespace JavaOutline

open Network Closure

namespace ConfigSet

variable {L : Outlook} {s t : ConfigSet} {c d : Config} {τ : List Place} {wild : Bool} {k : Kind}

theorem Has.congr (h : s.Has wild c τ) (hplace : d.place = c.place) (halt : d.alt = c.alt)
    (hlevel : d.level = c.level) (hout : d.outermost = true → c.outermost = true) :
    s.Has wild d τ := by
  obtain ⟨j, e, he, heplace, healt, helevel, heout, hcovers⟩ := h
  exact ⟨j, e, he, heplace.trans hplace.symm, healt.trans halt.symm, helevel.trans hlevel.symm,
    fun ho => heout (hout ho), hcovers⟩

/-! ## Taking a token -/

/-- What all configurations satisfy, those behind the next token satisfy too. -/
theorem Every.moved {I J : Config → Prop} (hs : s.Every I) (hnet : L.net = java)
    (hjoin : Joins J (!L.full)) (hJ : ∀ (c : Config) (ks : KindSet) (next : Nat), I c →
      java.node c.place = .take ks next → k ∈ ks → J (c.move next)) :
    (s.moved L k).Every J := by
  refine hs.foldl (P := fun t : ConfigSet => t.Every J) every_empty fun t _ c ht hc => ?_
  rw [hnet]
  split
  · rename_i ks next hp
    split
    · rename_i hk
      exact ht.add hjoin (hJ c ks next hc hp hk)
    · exact ht
  · exact ht

/-- A way that takes the next token is among those behind the token. -/
theorem Has.moved (h : s.Has (!L.full) c τ) (hs : s.Every (Config.Fair L.full)) (hnet : L.net = java)
    {ks : KindSet} {next : Nat} (hp : java.node c.place = .take ks next) (hk : k ∈ ks) :
    (s.moved L k).Has (!L.full) (c.move next) τ := by
  obtain ⟨j, d, hd, hplace, halt, hlevel, hout, hcovers⟩ := h
  have hfair : (d.move next).Fair L.full :=
    { (hs j d hd).2 with valid := ((hs j d hd).2.valid.take (hplace ▸ hp)) }
  rw [ConfigSet.moved, Std.TreeMap.foldl_eq_foldl_toList]
  refine foldl_of_mem (P := fun t : ConfigSet => t.Has (!L.full) (c.move next) τ)
    (Q := fun t : ConfigSet => t.Every (Config.Fair L.full)) (fun t e he ht => ?_)
    (Std.TreeMap.mem_toList_iff_getElem?_eq_some.2 hd) (fun t ht => ?_) (fun t e _ _ ht => ?_)
    every_empty
  · rw [hnet]
    split
    · rename_i ks' next' hp'
      split
      · have he := (hs e.1 e.2 (Std.TreeMap.mem_toList_iff_getElem?_eq_some.1 he)).2
        exact ht.add (fun _ _ hc hd _ => hc.join hd) { he with valid := he.valid.take hp' }
      · exact ht
    · exact ht
  · dsimp only
    rw [hnet, hplace, hp]
    dsimp only
    rw [if_pos (show ks.contains k = true from hk)]
    exact (has_add (ht.mono fun _ h => h.toFine) hfair.toFine hcovers).congr
      (congrArg (Place.move · next) hplace.symm) halt.symm hlevel.symm hout
  · split
    · split
      · exact ht.add
      · exact ht
    · exact ht

end ConfigSet

namespace Closure

variable {L : Outlook} {G : Option Nat → Bool → Place → List Place → List Place → Prop}
  {limit : Nat}

/-! ## Following many configurations -/

/-- All configurations behind a token, followed up to the next one. -/
def followAll (L : Outlook) (limit : Nat) (s : ConfigSet) : ConfigSet :=
  (s.foldl (fun t _ c => follow { L with guards := false } limit c (some 0) t) .empty).configs

theorem Keeps.followAll {J : Config → Option Nat → Prop} {I : Config → Prop}
    (h : Keeps { L with guards := false } J I) {s : ConfigSet} (hs : s.Every fun c => J c (some 0)) :
    (followAll L limit s).Every I :=
  hs.foldl (P := fun t : Closure => t.configs.Every I) ConfigSet.every_empty
    fun t _ c ht hc => h.follow limit c (some 0) t ht hc

/-- Following many configurations, one after the other, finds where all their ways stop. -/
theorem foldl_follow {α : Type} (hG : Progressive L G) (hlimit : 10000000 ≤ limit)
    (reset : Closure → Closure) (hreset : ∀ s, (reset s).configs = s.configs ∧
      (Settled L G s → Settled L G (reset s)))
    (f : α → Config) (xs : List α) (hxs : ∀ x ∈ xs, (f x).Fair L.full) {s : Closure}
    (hs : s.configs.Every (Config.Fair L.full) ∧ Settled L G s) {x : α} (hx : x ∈ xs)
    {π rest : List Place} (hπ : (f x).pending.Covers false π)
    (h : G (some 0) (f x).outermost (f x).place π rest) (hburden : (f x).place.burden π < limit) :
    Found L G (xs.foldl (fun s x => follow L limit (f x) (some 0) (reset s)) s).configs
      (f x).alt ((f x).Allows L.level) := by
  have hstep (s : Closure) (x : α) (hx : x ∈ xs)
      (hs : s.configs.Every (Config.Fair L.full) ∧ Settled L G s) :=
    follow_spec hG hlimit (some 0) (hxs x hx) ((hreset s).1 ▸ hs.1) ((hreset s).2 hs.2)
  refine foldl_of_mem (P := fun s : Closure => Found L G s.configs (f x).alt _)
    (Q := fun s => s.configs.Every (Config.Fair L.full) ∧ Settled L G s)
    (fun s y hy hs => ?_) hx (fun s hs => (hstep s x hx hs).2 π rest hπ h hburden)
    (fun s y hy hs hfound => ?_) hs
  · have hgrows := (hstep s y hy hs).1
    exact ⟨hgrows.fair ((hreset s).1 ▸ hs.1), ((hreset s).2 hs.2).grows hgrows⟩
  · refine hfound.mono fun c τ hc => (hstep s y hy hs).1.has c τ ?_
    rw [(hreset s).1]
    exact hc

end Closure

/-! ## The end of the file -/

namespace Rule

/-- Does the rule take the end of the file only where nothing but the end of the parse follows? -/
def isShut (r : Rule) : Bool :=
  r.body.layout.all fun
    | .take ks next => !ks.contains .endOfFile ||
        (r == .compilationUnit && chainTo r.body.layout 0 3 next)
    | _ => true

theorem isShut_eq_true (r : Rule) : r.isShut = true := by
  cases r <;> decide +kernel

end Rule

/-- The place of the end of the parse. -/
def finalPlace : Place := ⟨.compilationUnit, 0⟩

/-- Behind the end of the file nothing but the end of the parse follows. -/
theorem leadsTo_of_endOfFile {p : Place} (hp : p.Valid) {ks : KindSet} {next : Nat}
    (h : java.node p = .take ks next) (hk : Kind.endOfFile ∈ ks) :
    LeadsTo finalPlace (p.move next) := by
  have hshut := p.rule.isShut_eq_true
  simp only [Rule.isShut, List.all_eq_true] at hshut
  have hnode := hshut _ hp.mem_layout
  rw [h] at hnode
  simp only [Bool.or_eq_true, Bool.not_eq_true', Bool.and_eq_true, beq_iff_eq] at hnode
  rcases hnode with hno | ⟨hrule, hchain⟩
  · rw [show ks.contains .endOfFile = true from hk] at hno
    cases hno
  · rw [hrule] at hchain
    rw [Place.move, hrule]
    exact .of_chainTo hchain

theorem Proper.eq_nil {σ : List Place} (h : Proper .compilationUnit σ) : σ = [] := by
  cases h with
  | nil => rfl
  | cons valid call => exact absurd rfl (ne_compilationUnit_of_call valid call)

/-- No step leads away from where nothing but the end of the parse follows. -/
theorem LeadsTo.drift {p q : Place} {σ τ : List Place} (h : LeadsTo finalPlace p) (hsited : Sited p σ)
    (hd : Drift p σ q τ) : LeadsTo finalPlace q := by
  have hproper := hsited.proper
  rw [h.rule] at hproper
  obtain rfl := hproper.eq_nil
  cases h with
  | refl =>
    have hfinish : java.node finalPlace = .finish := node_zero _
    cases hd with
    | call hp | guard hp | fork hp => rw [hfinish] at hp; cases hp
  | step hp h =>
    cases hd with
    | call hp' | guard hp' => rw [hp] at hp'; cases hp'
    | fork hp' hnext =>
      rw [hp] at hp'
      cases hp'
      rw [List.mem_singleton.1 hnext]
      exact h

theorem LeadsTo.ne_take {p : Place} (h : LeadsTo finalPlace p) (ks : KindSet) (next : Nat) :
    java.node p ≠ .take ks next := by
  intro hp
  cases h with
  | refl =>
    have hfinish : java.node finalPlace = .finish := node_zero _
    rw [hfinish] at hp
    cases hp
  | step hp' => rw [hp] at hp'; cases hp'

/-! ## Choices -/

/-- What a decision depends on: the tokens and the position of the next one, the least level of the
operators that are allowed in the rule, the ways back from it, and the place of the decision. -/
structure Choice where
  kinds : Array Kind
  pos : Nat
  level : Nat
  callers : List Place
  place : Place

namespace Choice

/-- An alternative is good if it leads to the end of the parse. -/
def Good (C : Choice) (a : Nat) : Prop :=
  ∃ nexts next, java.node C.place = .fork nexts ∧ (next, a) ∈ nexts.zipIdx 1 ∧
    Viable C.kinds C.level C.pos (some 0) (C.place.move next) C.callers

/-- The rule with which the parse begins. -/
def root (C : Choice) : Rule := (base C.place C.callers).rule

/-- The configurations stand for a run with a good alternative that has come to the position `j`. -/
structure Tracks (C : Choice) (full : Bool) (s : ConfigSet) (j : Nat) (c : Config)
    (τ : List Place) : Prop where
  has : s.Has (!full) c τ
  allows : c.Allows C.level
  sited : Sited c.place τ
  rooted : (base c.place τ).rule = C.root
  accepts : Accepts C.kinds c.place τ j
  good : C.Good c.alt

/-- The run is in front of a token, or at the end of the parse. -/
def Stops (c : Config) (τ : List Place) : Prop :=
  (∃ ks next, java.node c.place = .take ks next) ∨ java.node c.place = .finish ∧ τ = []

/-- On the ways back `τ` no configuration of the set that is at this place is followed too far. -/
def Carries (limit : Nat) (s : ConfigSet) (p : Place) (τ : List Place) : Prop :=
  ∀ (i : Nat) (d : Config), s[i]? = some d → d.place = p → ∀ π rest, τ = π ++ rest →
    d.pending.Covers false π → p.burden π < limit

variable {C : Choice} {L : Outlook} {T : Trace} {s t : ConfigSet} {c : Config} {τ : List Place}
  {a j limit : Nat} {allowed : Prop}

theorem carries_of_length {p : Place} (hsited : Sited p τ)
    (hlength : spanLimit * (τ.length + 1) ≤ limit) : Carries limit s p τ := by
  rintro i d - - π rest rfl -
  refine Nat.lt_of_lt_of_le hsited.burden_lt (Nat.le_trans (Nat.mul_le_mul_left _ ?_) hlength)
  rw [List.length_append]
  omega

/-- A run that has been found may be tracked from there on. -/
theorem exists_tracks (hfound : Found L (T.Has L.full) s a allowed) (hallowed : allowed)
    (hgood : C.Good a) (hlevel : L.level = C.level) (hkinds : T.kinds = C.kinds)
    (hroot : T.root = C.root) :
    ∃ c τ, C.Tracks L.full s T.pos c τ ∧ Stops c τ ∧ τ.length ≤ T.bound ∧ T.region c.place ∧
      c.alt = a := by
  obtain ⟨c, d, π, rest, hhas, rfl, hallows, hG, hstop⟩ := hfound
  refine ⟨c, π ++ rest, ⟨hhas, hlevel ▸ hallows hallowed, hG.sited, hroot ▸ hG.rooted,
    hkinds ▸ hG.viable.accepts, hgood⟩,
    hstop.imp_right fun h => ⟨h.1, by rw [h.2.1, h.2.2]; rfl⟩, ?_, hG.region, rfl⟩
  have hrise := c.place.length_add_le_rise (π ++ rest)
  have hbound := hG.rise
  omega

/-- Following all configurations behind a token, a run that is tracked is found where it stops. -/
theorem Tracks.followAll (h : C.Tracks L.full s j c τ) (hs : s.Every (Config.Fair L.full))
    (hnet : L.net = java) (hlevel : L.level = C.level) (hlimit : 10000000 ≤ limit)
    (hends : L.full = false → C.root = .compilationUnit ∨ j < C.kinds.size)
    (hcarries : Carries limit s c.place τ) (region : Place → Prop)
    (hregion : ∀ {p q : Place} {σ τ : List Place}, Sited p σ → Drift p σ q τ → region p → region q)
    (hc : region c.place) :
    ∃ c' τ', C.Tracks L.full (followAll L limit s) j c' τ' ∧ Stops c' τ' ∧
      τ'.length ≤ τ.length + spanLimit ∧ region c'.place ∧ c'.alt = c.alt := by
  obtain ⟨⟨k, d, hd, hplace, halt, hdlevel, hout, hcovers⟩, hallows, hsited, hrooted, haccepts,
    hgood⟩ := h
  obtain ⟨π, rest, rfl, hπ, hknown⟩ : ∃ π rest, τ = π ++ rest ∧ d.pending.Covers false π ∧
      (L.full = true → rest = []) := by
    cases hfull : L.full with
    | true =>
      rw [hfull] at hcovers
      exact ⟨τ, [], (List.append_nil τ).symm, hcovers, fun _ => rfl⟩
    | false =>
      rw [hfull] at hcovers
      obtain ⟨π, rest, hτ, hπ⟩ := Stacks.covers_true.1 hcovers
      exact ⟨π, rest, hτ, hπ, nofun⟩
  -- Behind the first token no guard counts, which is the same as the lowest level.
  let T : Trace :=
    ⟨C.kinds, j, 0, c.place.rule, [], C.root, (π ++ rest).length + spanLimit, none, region⟩
  have hsuits : T.Suits { L with guards := false } :=
    { net := hnet, level := nofun, nested := fun _ _ _ => .inl rfl, loop := nofun, ends := hends,
      region := hregion }
  have hT : T.Has L.full (some 0) d.outermost d.place π rest := by
    rw [hplace]
    exact ⟨haccepts.viable_zero _, hsited, hrooted, Nat.le_of_lt hsited.rise_le, hc, hknown,
      fun h => absurd rfl h, nofun, fun _ => nofun⟩
  have hburden : d.place.burden π < limit := by
    rw [hplace]
    exact hcarries k d hd hplace π rest rfl hπ
  have hempty : Closure.empty.configs.Every (Config.Fair L.full) ∧
      Settled { L with guards := false } (T.Has L.full) Closure.empty := by
    refine ⟨ConfigSet.every_empty, fun c rest _ hmark => ?_⟩
    simp [Closure.empty] at hmark
  have hfound := foldl_follow hsuits.progressive hlimit id (fun _ => ⟨rfl, id⟩) (·.2) s.toList
    (fun x hx => (hs x.1 x.2 (Std.TreeMap.mem_toList_iff_getElem?_eq_some.1 hx)).2) hempty
    (Std.TreeMap.mem_toList_iff_getElem?_eq_some.2 hd) hπ hT hburden
  rw [Closure.followAll, Std.TreeMap.foldl_eq_foldl_toList]
  rw [← halt]
  refine exists_tracks (T := T) (L := { L with guards := false }) hfound (fun l hl => ?_) ?_ hlevel rfl
    rfl
  · rw [hlevel]
    exact hallows l (hdlevel ▸ hl)
  · exact halt ▸ hgood

end Choice

end JavaOutline
