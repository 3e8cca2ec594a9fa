import JavaOutline.Proofs.Network.Looking

/-!
# What a place admits

A place admits the kind of a token if such a token can come next there, or if the rule can end there
without any token, so that the callers decide. `Piece.consumes_of_passes` says that only what may be
empty is passed without a token, and `admits_of_direct` that a decision which one token settles is
settled in favour of an alternative that admits the token.
-/

namespace JavaOutline

open Network

/-- Can a token of the kind come next, or can the end of the rule be reached without a token? -/
def Look.Admits (l : Look) (k : Kind) : Prop := k ∈ l.kinds ∨ l.passes = true

instance (l : Look) (k : Kind) : Decidable (l.Admits k) :=
  inferInstanceAs (Decidable (_ ∨ _))

/-- Can a token of the kind come next at the place, or can its rule end there? -/
def Place.Admits (p : Place) (k : Kind) : Prop := (java.look p).Admits k

instance (p : Place) (k : Kind) : Decidable (p.Admits k) :=
  inferInstanceAs (Decidable ((java.look p).Admits k))

section
variable {p : Place} {k : Kind} {next : Nat}

theorem admits_take {ks : KindSet} (h : java.node p = .take ks next) : p.Admits k ↔ k ∈ ks := by
  have hp : p.Valid := Place.valid_of_node (by rw [h]; nofun)
  rw [Place.Admits, look_take hp h, Look.Admits]
  simp

theorem admits_guard {level : Nat} (h : java.node p = .guard level next) :
    p.Admits k ↔ (p.move next).Admits k := by
  have hp : p.Valid := Place.valid_of_node (by rw [h]; nofun)
  unfold Place.Admits
  rw [look_guard hp h]
  simp only [Look.Admits]

theorem passes_guard {level : Nat} (h : java.node p = .guard level next) :
    (java.look p).passes = (java.look (p.move next)).passes := by
  have hp : p.Valid := Place.valid_of_node (by rw [h]; nofun)
  rw [look_guard hp h]

theorem passes_take {ks : KindSet} (h : java.node p = .take ks next) :
    (java.look p).passes = false := by
  have hp : p.Valid := Place.valid_of_node (by rw [h]; nofun)
  rw [look_take hp h]

theorem Place.Admits.of_passes (h : (java.look p).passes = true) : p.Admits k := .inr h

/-! ## Forks -/

/-- What holds of one of two looks exactly if it holds of both together holds of one of many. -/
theorem Look.foldl_or_iff {α : Type} {P : Look → Prop} (hor : ∀ l m, P (l.or m) ↔ P l ∨ P m)
    (f : α → Look) (xs : List α) (l : Look) :
    P (xs.foldl (fun l x => l.or (f x)) l) ↔ P l ∨ ∃ x ∈ xs, P (f x) := by
  induction xs generalizing l with
  | nil => simp
  | cons x xs ih => rw [List.foldl_cons, ih, hor, List.exists_mem_cons_iff, or_assoc]

/-- A fork shows what the ways on from it show. -/
theorem look_fork_iff {P : Look → Prop} (hnone : ¬ P .none)
    (hor : ∀ l m, P (l.or m) ↔ P l ∨ P m) {nexts : List Nat} (h : java.node p = .fork nexts) :
    P (java.look p) ↔ ∃ next ∈ nexts, P (java.look (p.move next)) := by
  have hp := Place.valid_of_fork h
  rw [look_eq_succ hp, Look.ofPlace, h]
  dsimp only
  rw [Look.foldl_or_iff hor (fun next => Look.ofPlace java.node 400 (p.move next))]
  rw [or_iff_right hnone]
  constructor
  · rintro ⟨next, hnext, hP⟩
    exact ⟨next, hnext, (look_eq (hp.fork h hnext).valid).symm ▸ hP⟩
  · rintro ⟨next, hnext, hP⟩
    exact ⟨next, hnext, look_eq (hp.fork h hnext).valid ▸ hP⟩

theorem passes_fork {nexts : List Nat} (h : java.node p = .fork nexts) :
    (java.look p).passes = true ↔ ∃ next ∈ nexts, (java.look (p.move next)).passes = true :=
  look_fork_iff (P := fun l => l.passes = true) nofun (fun l m => by simp [Look.or]) h

theorem admits_fork {nexts : List Nat} (h : java.node p = .fork nexts) :
    p.Admits k ↔ ∃ next ∈ nexts, (p.move next).Admits k := by
  refine look_fork_iff (P := fun l => l.Admits k) ?_ (fun l m => ?_) h
  · rintro (hk | hpass)
    · exact KindSet.not_mem_empty k hk
    · cases hpass
  · simp only [Look.Admits, Look.or, KindSet.mem_union, Bool.or_eq_true]
    exact or_or_or_comm

/-- A fork with one way on admits what that way admits. -/
theorem admits_jump (h : java.node p = .fork [next]) : p.Admits k ↔ (p.move next).Admits k := by
  rw [admits_fork h]
  simp

theorem passes_jump (h : java.node p = .fork [next]) :
    (java.look p).passes = true ↔ (java.look (p.move next)).passes = true := by
  rw [passes_fork h]
  simp

/-- From where only the end of the rule follows, the rule can end. -/
theorem LeadsTo.passes {r : Rule} (h : LeadsTo ⟨r, 0⟩ p) : (java.look p).passes = true := by
  induction h with
  | refl =>
    have hp : (⟨r, 0⟩ : Place).Valid := Nat.zero_lt_of_lt (Place.Valid.start r)
    rw [look_finish hp (node_zero r)]
  | step hp _ ih => exact (passes_jump hp).2 ih

/-! ## Calls -/

/-- The end is reached past a call only through the rule that is called. -/
theorem passes_call {r : Rule} {level : Nat} (h : java.node p = .call r level next)
    (hpass : (java.look p).passes = true) :
    (java.look (.start r)).passes = true ∧ (java.look (p.move next)).passes = true := by
  have hp : p.Valid := Place.valid_of_node (by rw [h]; nofun)
  rw [look_call hp h] at hpass
  split at hpass
  · rename_i hstart
    simp only at hpass
    exact ⟨hstart, hpass⟩
  · rename_i hstart
    exact absurd hpass hstart

/-- What a call admits is admitted by the rule that is called. -/
theorem admits_start {r : Rule} {level : Nat} (h : java.node p = .call r level next)
    (hk : p.Admits k) : (Place.start r).Admits k := by
  have hp : p.Valid := Place.valid_of_node (by rw [h]; nofun)
  rw [Place.Admits, look_call hp h] at hk
  split at hk
  · rename_i hstart
    exact .of_passes hstart
  · exact hk

/-- A rule that takes a token is not left without one. -/
theorem passes_start {r : Rule} (h : r.consumes = true) :
    (java.look (.start r)).passes = false := by
  rw [Bool.eq_false_iff]
  intro hpass
  have hends := ends_of_look (.start r) hpass
  rw [(Place.span_start r).2 h] at hends
  cases hends

/-- Does nothing but the end of the rule follow where a rule is called that may be empty? -/
def Rule.isTight (r : Rule) : Bool :=
  r.body.layout.all fun
    | .call r' _ next => r'.consumes || chainTo r.body.layout 0 3 next
    | _ => true

theorem Rule.isTight_eq_true (r : Rule) : r.isTight = true := by
  cases r <;> decide +kernel

/-- Behind a call of a rule that may be empty the calling rule may end. -/
theorem passes_behind_call {r : Rule} {level : Nat} (h : java.node p = .call r level next)
    (hr : r.consumes = false) : (java.look (p.move next)).passes = true := by
  have hp : p.Valid := Place.valid_of_node (by rw [h]; nofun)
  have htight := p.rule.isTight_eq_true
  simp only [Rule.isTight, List.all_eq_true] at htight
  have hnode := htight _ hp.mem_layout
  rw [h] at hnode
  simp only [Bool.or_eq_true, hr, Bool.false_eq_true, false_or] at hnode
  exact (LeadsTo.of_chainTo hnode).passes

end

/-- What the rule that is called admits is admitted by the call. -/
theorem admits_of_start {p : Place} {k : Kind} {r : Rule} {level next : Nat}
    (h : java.node p = .call r level next) (hk : (Place.start r).Admits k) : p.Admits k := by
  have hp : p.Valid := Place.valid_of_node (by rw [h]; nofun)
  rw [Place.Admits, look_call hp h]
  split
  · rename_i hstart
    have hr : r.consumes = false := by
      rw [Bool.eq_false_iff]
      intro hr
      rw [passes_start hr] at hstart
      cases hstart
    simp only [Look.Admits]
    exact .inr (passes_behind_call h hr)
  · exact hk

/-! ## The end of the file -/

/-- Does nothing but the end of the rule follow where the end of the file is taken? -/
def Rule.isFinal (r : Rule) : Bool :=
  r.body.layout.all fun
    | .take ks next => !ks.contains .endOfFile || chainTo r.body.layout 0 3 next
    | _ => true

theorem Rule.isFinal_eq_true (r : Rule) : r.isFinal = true := by
  cases r <;> decide +kernel

/-- Behind the end of the file the rule may end. -/
theorem passes_behind_end {p : Place} {ks : KindSet} {next : Nat}
    (h : java.node p = .take ks next) (hend : .endOfFile ∈ ks) :
    (java.look (p.move next)).passes = true := by
  have hp : p.Valid := Place.valid_of_node (by rw [h]; nofun)
  have hfinal := p.rule.isFinal_eq_true
  simp only [Rule.isFinal, List.all_eq_true] at hfinal
  have hnode := hfinal _ hp.mem_layout
  rw [h] at hnode
  have hend : ks.contains .endOfFile = true := hend
  simp only [hend, Bool.not_true, Bool.false_or] at hnode
  exact (LeadsTo.of_chainTo hnode).passes

/-- Does only the rule for whole files take the end of the file, and does no other rule call it? -/
def Rule.isWithinFile (r : Rule) : Bool :=
  r = .compilationUnit || r.body.layout.all fun
    | .take ks _ => !ks.contains .endOfFile
    | .call r' _ _ => r' ≠ .compilationUnit
    | _ => true

theorem Rule.isWithinFile_eq_true (r : Rule) : r.isWithinFile = true := by
  cases r <;> decide +kernel

/-- Inside a file the end of the file never comes next. -/
theorem not_mem_ofPlace {n : Nat} {p : Place} (hp : p.Valid) (hr : p.rule ≠ .compilationUnit) :
    .endOfFile ∉ (Look.ofPlace java.node n p).kinds := by
  induction n generalizing p with
  | zero => exact KindSet.not_mem_empty _
  | succ n ih =>
    have hinner := p.rule.isWithinFile_eq_true
    simp only [Rule.isWithinFile, hr, decide_false, Bool.false_or, List.all_eq_true] at hinner
    have hnode := hinner _ hp.mem_layout
    rw [Look.ofPlace]
    split
    · rename_i ks next h
      rw [h] at hnode
      intro hend
      have hend : ks.contains .endOfFile = true := hend
      simp [hend] at hnode
    · rename_i r level next h
      rw [h] at hnode
      have hcall : r ≠ .compilationUnit := by simpa using hnode
      have hstart := ih (p := .start r) (.start r) hcall
      dsimp only
      split
      · simp only [Look.or, KindSet.mem_union]
        exact not_or.2 ⟨hstart, ih (hp.call h).1 hr⟩
      · exact hstart
    · rename_i level next h
      exact ih (hp.guard h).valid hr
    · rename_i nexts h
      rw [Look.foldl_or_iff (P := fun l => .endOfFile ∈ l.kinds)
        (fun l m => by simp [Look.or]) (fun next => Look.ofPlace java.node n (p.move next))]
      rintro (hno | ⟨next, hnext, hend⟩)
      · exact KindSet.not_mem_empty _ hno
      · exact ih (hp.fork h hnext).valid hr hend
    · exact KindSet.not_mem_empty _

/-- A rule that takes a token does not begin with the end of the file. -/
theorem consumes_of_admits_end {r : Rule} (h : (Place.start r).Admits .endOfFile) :
    r.consumes = false := by
  by_cases hr : r = .compilationUnit
  · rw [hr]
    rfl
  · rcases h with hend | hpass
    · rw [look_eq (.start r)] at hend
      exact absurd hend (not_mem_ofPlace (.start r) hr)
    · rw [Bool.eq_false_iff]
      intro hconsumes
      rw [passes_start hconsumes] at hpass
      cases hpass

/-! ## Pieces -/

namespace Piece

mutual

/-- **Only what may be empty is passed without a token**, and if it is, so may be what follows. -/
theorem consumes_of_passes : ∀ (piece : Piece) (p : Place) (next : Nat),
    java.Holds p (piece.wire p.offset next) → piece.advances = true →
    (java.look p).passes = true →
    piece.consumes = false ∧ (java.look (p.move next)).passes = true
  | .nothing => by
    intro p next h _ hpass
    exact ⟨rfl, (passes_jump h.head).1 hpass⟩
  | .guard level => by
    intro p next h _ hpass
    rw [passes_guard h.head] at hpass
    exact ⟨rfl, hpass⟩
  | .token k => by
    intro p next h _ hpass
    rw [passes_take h.head] at hpass
    cases hpass
  | .oneOf ks => by
    intro p next h _ hpass
    rw [passes_take h.head] at hpass
    cases hpass
  | .call r level => by
    intro p next h _ hpass
    obtain ⟨hstart, hnext⟩ := passes_call h.head hpass
    refine ⟨?_, hnext⟩
    rw [consumes, Bool.eq_false_iff]
    intro hr
    rw [passes_start hr] at hstart
    cases hstart
  | .named _ piece => consumes_of_passes piece
  | .andThen q q' => by
    intro p next h hadvance hpass
    rw [advances, Bool.and_eq_true] at hadvance
    rw [wire] at h
    obtain ⟨hq, hmid⟩ := consumes_of_passes q _ _ h.left hadvance.1 hpass
    have hright := h.right
    rw [length_wire] at hright
    obtain ⟨hq', hnext⟩ := consumes_of_passes q' _ _ hright hadvance.2 hmid
    exact ⟨by rw [consumes, hq, hq']; rfl, hnext⟩
  | .choice alts => by
    intro p next h hadvance hpass
    obtain ⟨start, hstart, hpass⟩ := (passes_fork h.head).1 hpass
    obtain ⟨hconsumes, hmeet⟩ := consumes_of_passes_alternative alts _ _ _ _ h.right hadvance hstart hpass
    exact ⟨hconsumes, (passes_jump (h 1 _ rfl)).1 hmeet⟩
  | .optional alts => by
    intro p next h hadvance hpass
    refine ⟨rfl, (passes_jump (h 1 _ rfl)).1 ?_⟩
    obtain ⟨start, hstart, hpass⟩ := (passes_fork h.head).1 hpass
    rcases List.mem_append.1 hstart with hstart | hexit
    · exact (consumes_of_passes_alternative alts _ _ _ _ h.right hadvance hstart hpass).2
    · obtain rfl := List.mem_singleton.1 hexit
      exact hpass
  | .many alts => by
    intro p next h hadvance hpass
    rw [advances, Bool.and_eq_true] at hadvance
    refine ⟨rfl, ?_⟩
    obtain ⟨start, hstart, hpass⟩ := (passes_fork h.head).1 hpass
    simp only [List.mem_cons, List.not_mem_nil, or_false] at hstart
    rcases hstart with rfl | rfl
    · obtain ⟨start, hstart, hpass⟩ := (passes_fork (h 1 _ rfl)).1 hpass
      have hno := (consumes_of_passes_alternative alts _ _ _ _ h.right hadvance.2 hstart hpass).1
      rw [hadvance.1] at hno
      cases hno
    · exact (passes_jump (h 4 _ rfl)).1 hpass
  | .many1 alts => by
    intro p next h hadvance hpass
    rw [advances, Bool.and_eq_true] at hadvance
    obtain ⟨start, hstart, hpass⟩ := (passes_fork h.head).1 hpass
    have hno := (consumes_of_passes_alternative alts _ _ _ _ h.right hadvance.2 hstart hpass).1
    rw [hadvance.1] at hno
    cases hno

/-- The same for alternatives, which lead to where they meet. -/
theorem consumes_of_passes_alternative : ∀ (alts : List Piece) (r : Rule) (base meet start : Nat),
    java.Holds ⟨r, base⟩ (wires base meet alts) → allAdvance alts = true →
    start ∈ starts base alts → (java.look ⟨r, start⟩).passes = true →
    allConsume alts = false ∧ (java.look ⟨r, meet⟩).passes = true
  | [] => nofun
  | piece :: alts => by
    intro r base meet start h hadvance hstart hpass
    rw [allAdvance, Bool.and_eq_true] at hadvance
    rcases List.mem_cons.1 hstart with rfl | hstart
    · obtain ⟨exit, hpiece, hexit⟩ := h.wires_head
      obtain ⟨hconsumes, hnext⟩ := consumes_of_passes piece _ _ hpiece hadvance.1 hpass
      refine ⟨by rw [allConsume, hconsumes]; rfl, ?_⟩
      rcases hexit with rfl | hexit
      · exact hnext
      · exact (passes_jump hexit).1 hnext
    · obtain ⟨hconsumes, hmeet⟩ :=
        consumes_of_passes_alternative alts _ _ _ _ h.wires_tail hadvance.2 hstart hpass
      exact ⟨by rw [allConsume, hconsumes, Bool.and_false], hmeet⟩

end

end Piece

/-! ## Decisions -/

section
variable {p : Place} {nexts : List Nat} {sets : List KindSet} {k : Kind}

/-- **A direct decision is settled in favour of a way on that admits the next token.** -/
theorem admits_of_direct (hp : java.node p = .fork nexts) (hdirect : java.direct p = some sets)
    {j : Nat} (hj : sets.findIdx? (·.contains k) = some j) :
    ∃ next, nexts[j]? = some next ∧ (p.move next).Admits k := by
  obtain ⟨rfl, -⟩ := direct_eq hp hdirect
  obtain ⟨hlt, hk, -⟩ := List.findIdx?_eq_some_iff_getElem.1 hj
  rw [List.length_map] at hlt
  rw [List.getElem_map] at hk
  refine ⟨nexts[j], List.getElem?_eq_getElem hlt, ?_⟩
  rcases mem_kindsFor.1 hk with hk | ⟨hpass, -⟩
  · exact .inl hk
  · exact .of_passes hpass

/-- Where no set has the next kind, a way on admits it only if the rule can end there. -/
theorem passes_of_direct (hp : java.node p = .fork nexts) (hdirect : java.direct p = some sets)
    (hnone : sets.findIdx? (·.contains k) = none) (hk : p.Admits k) :
    ∃ next ∈ nexts, (java.look (p.move next)).passes = true := by
  obtain ⟨rfl, -⟩ := direct_eq hp hdirect
  obtain ⟨next, hnext, hk⟩ := (admits_fork hp).1 hk
  refine ⟨next, hnext, hk.resolve_left fun hk => ?_⟩
  have hno := List.findIdx?_eq_none_iff.1 hnone _ (List.mem_map_of_mem hnext)
  rw [show (kindsFor p next).contains k = true from mem_kindsFor.2 (.inl hk)] at hno
  cases hno

end

/-- What is expected at a place is admitted there. -/
theorem admits_of_expected {p : Place} {σ : List Place} {k : Kind} (h : k ∈ expected java p σ) :
    p.Admits k :=
  (mem_expected.1 h).imp id And.left

end JavaOutline
