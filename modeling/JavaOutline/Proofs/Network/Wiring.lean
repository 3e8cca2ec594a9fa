import JavaOutline.Parser.Run

/-!
# Where the pieces of a right-hand side are

The parser computes the place of every part of a right-hand side from the sizes of the parts before
it. `Piece.LaidOut` says that the nodes of a piece indeed are at such a place. It passes from a piece
to its parts, and the right-hand side of a rule is laid out where the rule begins
(`Network.Wired.start`). So at every decision the parser finds the fork of its very alternatives,
and each of these where it looks for it (`AlternativesAt.of_alternative?`).
-/

namespace JavaOutline

namespace Piece

/-- Behind an alternative there is at most one node. -/
theorem tail_le_one : ∀ p : Piece, p.tail ≤ 1
  | .andThen p q => by
    unfold tail
    split
    · exact tail_le_one q
    · split <;> decide
  | .named _ p => tail_le_one p
  | .nothing | .token _ | .oneOf _ | .call _ _ | .guard _ | .choice _ | .optional _ | .many _
  | .many1 _ => Nat.zero_le 1

mutual

/-- A piece takes as many nodes as its size says. -/
theorem length_wire (base next : Nat) : ∀ p : Piece, (p.wire base next).length = p.size
  | .nothing | .token _ | .oneOf _ | .call _ _ | .guard _ => rfl
  | .named _ p => length_wire base next p
  | .andThen p q => by
    rw [wire, List.length_append, length_wire, length_wire, size]
  | .choice alts | .optional alts | .many alts | .many1 alts => by
    simp only [wire, size, List.length_append, length_wires, List.length_cons, List.length_nil]

/-- Alternatives take as many nodes as their sizes say. -/
theorem length_wires (base meet : Nat) : ∀ ps : List Piece, (wires base meet ps).length = sizes ps
  | [] => rfl
  | p :: ps => by
    rw [wires, List.length_append, length_wires, sizes]
    split
    · rename_i h
      rw [length_wire, h, Nat.add_zero]
    · rename_i h
      have htail := tail_le_one p
      rw [List.length_append, length_wire, List.length_singleton]
      omega

end

/-- Alternatives begin at as many places as there are alternatives. -/
@[simp] theorem length_starts (base : Nat) (ps : List Piece) :
    (starts base ps).length = ps.length := by
  induction ps generalizing base with
  | nil => rfl
  | cons p ps ih => simp [starts, ih]

end Piece

/-! ## Nodes at places -/

/-- The nodes stand in the network one after the other, from the place `p` on. -/
def Network.Holds (N : Network) (p : Place) (nodes : List Node) : Prop :=
  ∀ i n, nodes[i]? = some n → N.node (p.move (p.offset + i)) = n

namespace Network.Holds

variable {N : Network} {p : Place} {nodes nodes' : List Node} {n : Node}

theorem left (h : N.Holds p (nodes ++ nodes')) : N.Holds p nodes := by
  intro i n hn
  refine h i n ?_
  obtain ⟨hi, rfl⟩ := List.getElem?_eq_some_iff.1 hn
  rw [List.getElem?_append_left hi, List.getElem?_eq_getElem hi]

theorem right (h : N.Holds p (nodes ++ nodes')) :
    N.Holds (p.move (p.offset + nodes.length)) nodes' := by
  intro i n hn
  rw [Place.move, Place.move, Nat.add_assoc]
  refine h (nodes.length + i) n ?_
  rw [List.getElem?_append_right (Nat.le_add_right ..), Nat.add_sub_cancel_left, hn]

theorem head (h : N.Holds p (n :: nodes)) : N.node p = n := h 0 n rfl

theorem tail (h : N.Holds p (n :: nodes)) : N.Holds (p.move (p.offset + 1)) nodes :=
  @right N p [n] nodes h

variable {r : Rule} {base meet : Nat} {q : Piece} {alts : List Piece}

/-- The first of several alternatives has its nodes at once, and leads to where they meet. -/
theorem wires_head (h : N.Holds ⟨r, base⟩ (Piece.wires base meet (q :: alts))) :
    ∃ exit, N.Holds ⟨r, base⟩ (q.wire base exit) ∧
      (exit = meet ∨ N.node ⟨r, exit⟩ = .fork [meet]) := by
  rw [Piece.wires] at h
  have hleft := h.left
  split at hleft
  · exact ⟨meet, hleft, .inl rfl⟩
  · refine ⟨base + q.size, hleft.left, .inr ?_⟩
    have hright := hleft.right
    rw [Piece.length_wire] at hright
    exact hright.head

/-- The other alternatives have their nodes behind its tail. -/
theorem wires_tail (h : N.Holds ⟨r, base⟩ (Piece.wires base meet (q :: alts))) :
    N.Holds ⟨r, base + q.size + q.tail⟩ (Piece.wires (base + q.size + q.tail) meet alts) := by
  rw [Piece.wires] at h
  have hlength : (if q.tail = 0 then q.wire base meet
      else q.wire base (base + q.size) ++ [.fork [meet]]).length = q.size + q.tail := by
    have htail := Piece.tail_le_one q
    split
    · rename_i hzero
      rw [Piece.length_wire, hzero, Nat.add_zero]
    · rw [List.length_append, Piece.length_wire, List.length_singleton]
      omega
  have hright := h.right
  rw [hlength, ← Nat.add_assoc] at hright
  exact hright

end Network.Holds

/-- A piece has its nodes at the place `p`. -/
def Piece.LaidOut (N : Network) (p : Place) (piece : Piece) : Prop :=
  ∃ next, N.Holds p (piece.wire p.offset next)

/-- Alternatives have their nodes in the rule `r` from the offset `base` on. -/
def AlternativesAt (N : Network) (r : Rule) (base : Nat) (alts : List Piece) : Prop :=
  ∃ meet, N.Holds ⟨r, base⟩ (Piece.wires base meet alts)

/-- The fork of the alternatives is at the place `p`, and they are laid out from `base` on. -/
structure BlockAt (N : Network) (p : Place) (base : Nat) (alts : List Piece) : Prop where
  fork : N.node p = .fork (Piece.starts base alts)
  alternatives : AlternativesAt N p.rule base alts

namespace AlternativesAt

variable {N : Network} {r : Rule} {base i : Nat} {alts : List Piece}

/-- The first alternative is laid out at once. -/
theorem head {p : Piece} (h : AlternativesAt N r base (p :: alts)) : p.LaidOut N ⟨r, base⟩ := by
  obtain ⟨meet, h⟩ := h
  obtain ⟨exit, hp, -⟩ := h.wires_head
  exact ⟨exit, hp⟩

/-- The other alternatives follow behind its tail. -/
theorem tail {p : Piece} (h : AlternativesAt N r base (p :: alts)) :
    AlternativesAt N r (base + p.size + p.tail) alts := by
  obtain ⟨meet, h⟩ := h
  exact ⟨meet, h.wires_tail⟩

/-- Each alternative is laid out where the parser looks for it. -/
theorem of_alternative? {q : Place} {piece : Piece} (h : AlternativesAt N r base alts)
    (hq : Setting.alternative? r base alts i = some (q, piece)) : piece.LaidOut N q := by
  fun_induction Setting.alternative? r base alts i with
  | case1 | case2 => simp at hq
  | case3 =>
    cases hq
    exact h.head
  | case4 _ _ _ _ ih => exact ih h.tail hq

end AlternativesAt

/-- There is an alternative for each of their numbers. -/
theorem Setting.alternative?_isSome {r : Rule} {base i : Nat} {alts : List Piece} (h : 1 ≤ i)
    (h' : i ≤ alts.length) : (alternative? r base alts i).isSome = true := by
  fun_induction alternative? r base alts i with
  | case1 | case2 => simp_all
  | case3 => rfl
  | case4 _ _ _ _ ih => exact ih (by omega) (by simp at h'; omega)

/-- No alternative has a number beyond theirs. -/
theorem Setting.alternative?_eq_none {r : Rule} {base i : Nat} {alts : List Piece}
    (h : alts.length < i) : alternative? r base alts i = none := by
  fun_induction alternative? r base alts i with
  | case1 | case2 => rfl
  | case3 => simp at h
  | case4 _ _ _ _ ih => exact ih (by simp at h; omega)

/-- Each alternative has its nodes where it begins, and leads to where the alternatives meet. -/
theorem Setting.exists_alternative {N : Network} {r : Rule} {base meet : Nat} {alts : List Piece}
    (h : N.Holds ⟨r, base⟩ (Piece.wires base meet alts)) {i next : Nat}
    (hi : (Piece.starts base alts)[i]? = some next) :
    ∃ piece ∈ alts, alternative? r base alts (i + 1) = some (⟨r, next⟩, piece) ∧
      ∃ exit, N.Holds ⟨r, next⟩ (piece.wire next exit) ∧
        (exit = meet ∨ N.node ⟨r, exit⟩ = .fork [meet]) := by
  induction alts generalizing base i with
  | nil => cases hi
  | cons p ps ih =>
    cases i with
    | zero =>
      obtain rfl := Option.some.inj hi
      exact ⟨p, List.mem_cons_self, rfl, h.wires_head⟩
    | succ i =>
      obtain ⟨piece, hmem, halt, hexit⟩ := ih h.wires_tail hi
      exact ⟨piece, List.mem_cons_of_mem _ hmem, halt, hexit⟩

namespace Piece.LaidOut

variable {N : Network} {p : Place} {q q' : Piece} {alts : List Piece}

/-- The first of two pieces is laid out where both are. -/
theorem left (h : (q.andThen q').LaidOut N p) : q.LaidOut N p := by
  obtain ⟨next, h⟩ := h
  exact ⟨_, h.left⟩

/-- The second of two pieces is laid out behind the first one. -/
theorem right (h : (q.andThen q').LaidOut N p) : q'.LaidOut N (p.move (p.offset + q.size)) := by
  obtain ⟨next, h⟩ := h
  rw [wire] at h
  have hright := h.right
  rw [length_wire] at hright
  exact ⟨next, hright⟩

theorem choice (h : (Piece.choice alts).LaidOut N p) : BlockAt N p (p.offset + 2) alts := by
  obtain ⟨next, h⟩ := h
  exact ⟨h.head, _, h.right⟩

theorem optional (h : (Piece.optional alts).LaidOut N p) :
    AlternativesAt N p.rule (p.offset + 2) alts := by
  obtain ⟨next, h⟩ := h
  exact ⟨_, h.right⟩

theorem many (h : (Piece.many alts).LaidOut N p) :
    BlockAt N (p.move (p.offset + 1)) (p.offset + 5) alts := by
  obtain ⟨next, h⟩ := h
  exact ⟨h 1 _ rfl, _, h.right⟩

theorem many1 (h : (Piece.many1 alts).LaidOut N p) : BlockAt N p (p.offset + 4) alts := by
  obtain ⟨next, h⟩ := h
  exact ⟨h.head, _, h.right⟩

end Piece.LaidOut

/-! ## The network of a grammar -/

/-- The network has the nodes of the right-hand sides, and what it says about direct decisions fits
their forks. -/
structure Network.Wired (N : Network) (body : Rule → Body) : Prop where
  node : ∀ p, N.node p = (body p.rule).layout.getD p.offset .finish
  direct : ∀ p sets nexts, N.direct p = some sets → N.node p = .fork nexts →
    sets.length = nexts.length

/-- The right-hand side of a rule has its nodes where the rule begins, and leads to its end. -/
theorem Network.Wired.exists_start {N : Network} {body : Rule → Body} (h : N.Wired body)
    (r : Rule) : ∃ next, N.Holds (.start r) ((body r).piece.wire 1 next) ∧
      (next = 0 ∨ N.node ⟨r, next⟩ = .fork [0]) := by
  have hlayout : N.Holds ⟨r, 0⟩ (body r).layout := by
    intro i n hn
    rw [h.node, List.getD_eq_getElem?_getD]
    simp [Place.move, hn]
  unfold Body.layout at hlayout
  simp only at hlayout
  split at hlayout
  · refine ⟨_, hlayout.left.tail, .inr ?_⟩
    have hright := hlayout.right
    rw [List.length_cons, Piece.length_wire, Nat.add_comm _ 1] at hright
    simpa [Place.move] using hright.head
  · exact ⟨_, hlayout.tail, .inl rfl⟩

/-- The right-hand side of a rule is laid out where the rule begins. -/
theorem Network.Wired.start {N : Network} {body : Rule → Body} (h : N.Wired body) (r : Rule) :
    (body r).piece.LaidOut N (.start r) := by
  obtain ⟨next, hnext, -⟩ := h.exists_start r
  exact ⟨next, hnext⟩

namespace Network

/-- A table over all rules holds for each rule its value. -/
theorem tabulate_getD {α : Type} (f : Rule → α) (r : Rule) (d : α) :
    (tabulate f).getD r.index d = f r := by
  have hall : Rule.all[r.index]? = some r := by
    cases r <;> rfl
  simp [tabulate, Array.getD_eq_getD_getElem?, hall]

/-- A table over all places holds for each place its value. -/
theorem table_getD {α : Type} (layout : Rule → List Node) (f : Place → α) (p : Place) (d : α) :
    ((tabulate fun r => (Array.range (layout r).length).map fun i => f ⟨r, i⟩).getD
      p.rule.index #[]).getD p.offset d =
      if p.offset < (layout p.rule).length then f p else d := by
  rw [tabulate_getD, Array.getD_eq_getD_getElem?, Array.getElem?_map]
  split
  · rename_i h
    rw [Array.getElem?_eq_getElem (by simpa using h)]
    simp
  · rename_i h
    rw [Array.getElem?_eq_none (by simpa using h)]
    rfl

/-- Direct decisions have a set for each way on. -/
theorem length_of_directSets {node : Place → Node} {look : Place → Look} {follow : Rule → Look}
    {p : Place} {sets : List KindSet} {nexts : List Nat}
    (h : directSets node look follow p = some sets) (hp : node p = .fork nexts) :
    sets.length = nexts.length := by
  unfold directSets at h
  rw [hp] at h
  simp only at h
  split at h
  · cases h
  · split at h
    · cases h
      simp
    · cases h

/-- The network of the Java grammar is that of its right-hand sides. -/
theorem java_wired : java.Wired Rule.body where
  node p := by
    simp only [java, cached, tabulate_getD]
    simp [Array.getD_eq_getD_getElem?, List.getD_eq_getElem?_getD]
  direct p sets nexts h hp := by
    simp only [java, cached] at h hp
    rw [table_getD] at h
    split at h
    · exact length_of_directSets h hp
    · cases h

end Network

end JavaOutline
