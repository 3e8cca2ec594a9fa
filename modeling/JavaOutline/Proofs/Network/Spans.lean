import JavaOutline.Proofs.Grammar.Depth
import JavaOutline.Proofs.Network.Wiring

/-!
# How far a way goes without a token

From every place of the network only a bounded number of nodes can be passed before the next token:
`Place.span` gives such a bound for the place's own rule, computed from the right-hand side and
checked node by node (`Rule.isSpanned_eq_true`). Calls of other rules are counted through the stack:
`Place.burden` drops with every step of a way without a token (`Drift.decreases`), and `Place.rise`
bounds how high the stack gets on it.
-/

namespace JavaOutline

/-- What is known of a node: how many nodes can come after it before the next token, and whether the
rule may end before the next token. -/
structure Span where
  length : Nat
  ends : Bool
  deriving DecidableEq, Repr, Inhabited

namespace Span

/-- One node more. -/
def succ (s : Span) : Span := ⟨s.length + 1, s.ends⟩

/-- The one or the other. -/
def or (s t : Span) : Span := ⟨max s.length t.length, s.ends || t.ends⟩

end Span

namespace Piece

mutual

/-- The span of the first node of a piece that leads on to a node with the span `exit`. -/
def span (exit : Span) : Piece → Span
  | .nothing | .guard _ => exit.succ
  | .token _ | .oneOf _ => ⟨0, false⟩
  | .call r _ => if r.consumes then ⟨r.rank + 1, false⟩ else ⟨r.rank + exit.length + 2, exit.ends⟩
  | .named _ p => p.span exit
  | .andThen p q => p.span (q.span exit)
  | .choice alts => (spanOr ⟨0, false⟩ exit.succ.succ alts).succ
  | .optional alts => (spanOr exit.succ exit.succ.succ alts).succ
  | .many alts => ((spanOr ⟨0, false⟩ ⟨0, false⟩ alts).succ.or exit.succ).succ
  | .many1 alts => (spanOr ⟨0, false⟩ ⟨0, false⟩ alts).succ

/-- The span of alternatives that lead on to a node with the span `exit`, or of a node with the span
`s`. -/
def spanOr (s exit : Span) : List Piece → Span
  | [] => s
  | p :: ps => (p.span exit).or (spanOr s exit ps)

end

mutual

/-- The spans of all nodes of a piece. -/
def spans (exit : Span) : Piece → List Span
  | .named _ p => p.spans exit
  | .andThen p q => p.spans (q.span exit) ++ q.spans exit
  | .choice alts => (Piece.choice alts).span exit :: exit.succ :: spansOf exit.succ alts
  | .optional alts => (Piece.optional alts).span exit :: exit.succ :: spansOf exit.succ alts
  | .many alts =>
    let first := (Piece.many alts).span exit
    [first, (spanOr ⟨0, false⟩ ⟨0, false⟩ alts).succ, first.succ.succ, first.succ, exit.succ] ++
      spansOf first.succ.succ alts
  | .many1 alts =>
    let first := (Piece.many1 alts).span exit
    let back := (first.or exit.succ).succ
    [first, back.succ, back, exit.succ] ++ spansOf back.succ alts
  | p => [p.span exit]

/-- The spans of all nodes of alternatives that meet at a node with the span `meet`. -/
def spansOf (meet : Span) : List Piece → List Span
  | [] => []
  | p :: ps =>
    (if p.tail = 0 then p.spans meet else p.spans meet.succ ++ [meet.succ]) ++ spansOf meet ps

end

end Piece

/-- The spans of all nodes of a rule. -/
def Body.spans (b : Body) : List Span :=
  let p := b.piece
  if p.endsPlainly then ⟨0, true⟩ :: p.spans ⟨1, true⟩ ++ [⟨1, true⟩]
  else ⟨0, true⟩ :: p.spans ⟨0, true⟩

/-- The span of a place. -/
def Place.span (p : Place) : Span := p.rule.body.spans.getD p.offset ⟨0, true⟩

/-- Is the node in its rule for each of the offsets that it leads to, and does its span cover what
it leads to, given the spans of all nodes of its rule? -/
def Node.fits (spans : List Span) (s : Span) : Node → Bool
  | .take _ next => next < spans.length
  | .call r _ next =>
    next < spans.length && r.rank < s.length && (r.consumes ||
      (r.rank + (spans.getD next ⟨0, true⟩).length + 1 < s.length &&
        (s.ends || !(spans.getD next ⟨0, true⟩).ends)))
  | .guard _ next =>
    next < spans.length && (spans.getD next ⟨0, true⟩).length < s.length &&
      (s.ends || !(spans.getD next ⟨0, true⟩).ends)
  | .fork nexts => nexts.all fun next =>
    next < spans.length && (spans.getD next ⟨0, true⟩).length < s.length &&
      (s.ends || !(spans.getD next ⟨0, true⟩).ends)
  | .finish => s.ends

/-- A bound on all spans. -/
def spanLimit : Nat := 300

namespace Rule

/-- Is every node of the rule covered by its span? -/
def isSpanned (r : Rule) : Bool :=
  let spans := r.body.spans
  spans.length == r.body.layout.length && 1 < spans.length &&
    (r.body.layout.zip spans).all (fun (n, s) => n.fits spans s && s.length < spanLimit) &&
    (spans.getD 1 ⟨0, true⟩).length ≤ r.rank && (!r.consumes || !(spans.getD 1 ⟨0, true⟩).ends)

theorem isSpanned_eq_true (r : Rule) : r.isSpanned = true := by
  cases r <;> decide +kernel

theorem length_spans (r : Rule) : r.body.spans.length = r.body.layout.length := by
  have h := r.isSpanned_eq_true
  simp only [isSpanned, Bool.and_eq_true, beq_iff_eq] at h
  exact h.1.1.1.1

end Rule

/-! ## Places -/

namespace Place

/-- Is there a node at the place? -/
def Valid (p : Place) : Prop := p.offset < p.rule.body.layout.length

theorem Valid.start (r : Rule) : (Place.start r).Valid := by
  have h := r.isSpanned_eq_true
  simp only [Rule.isSpanned, Bool.and_eq_true, decide_eq_true_eq] at h
  have hlength : 1 < r.body.layout.length := r.length_spans ▸ h.1.1.1.2
  exact hlength

/-- A rule needs no more than its rank before its first token, and does not end before it if it takes
one. -/
theorem span_start (r : Rule) :
    (Place.start r).span.length ≤ r.rank ∧ (r.consumes = true → (Place.start r).span.ends = false) := by
  have h := r.isSpanned_eq_true
  simp only [Rule.isSpanned, Bool.and_eq_true, decide_eq_true_eq, Bool.or_eq_true,
    Bool.not_eq_true'] at h
  refine ⟨h.1.2, fun hr => ?_⟩
  rcases h.2 with hno | hends
  · rw [hr] at hno
    cases hno
  · exact hends

variable {p : Place}

/-- The node at a valid place is covered by the span of the place. -/
theorem Valid.fits (hp : p.Valid) :
    (Network.java.node p).fits p.rule.body.spans p.span = true ∧ p.span.length < spanLimit := by
  have h := p.rule.isSpanned_eq_true
  simp only [Rule.isSpanned, Bool.and_eq_true, List.all_eq_true, decide_eq_true_eq] at h
  have hlength := p.rule.length_spans
  have hspan : p.offset < p.rule.body.spans.length := hlength ▸ hp
  rw [Network.java_wired.node, span, List.getD_eq_getElem?_getD, List.getD_eq_getElem?_getD,
    List.getElem?_eq_getElem hp, List.getElem?_eq_getElem hspan]
  refine h.1.1.2 (p.rule.body.layout[p.offset], p.rule.body.spans[p.offset]) ?_
  rw [List.mem_iff_getElem]
  refine ⟨p.offset, ?_, ?_⟩
  · rw [List.length_zip]
    exact Nat.lt_min.2 ⟨hp, hspan⟩
  · rw [List.getElem_zip]
    rfl

/-- Only places in the network have a node that does not end the rule. -/
theorem valid_of_node (h : Network.java.node p ≠ .finish) : p.Valid := by
  unfold Valid
  rw [← Nat.not_le]
  intro hp
  refine h ?_
  rw [Network.java_wired.node, List.getD_eq_getElem?_getD, List.getElem?_eq_none hp]
  rfl

theorem valid_of_fork {nexts : List Nat} (h : Network.java.node p = .fork nexts) : p.Valid :=
  valid_of_node (by rw [h]; nofun)

theorem valid_move {next : Nat} (h : next < p.rule.body.spans.length) : (p.move next).Valid := by
  rw [Rule.length_spans] at h
  exact h

theorem Valid.take {ks : KindSet} {next : Nat} (hp : p.Valid)
    (h : Network.java.node p = .take ks next) : (p.move next).Valid := by
  have hfits := hp.fits.1
  rw [h, Node.fits, decide_eq_true_eq] at hfits
  exact valid_move hfits

/-- What a place leads to without a token comes earlier, and ends its rule only if the place does. -/
structure Follows (q p : Place) : Prop where
  valid : q.Valid
  length : q.span.length < p.span.length
  ends : q.span.ends = true → p.span.ends = true

theorem Valid.guard {level next : Nat} (hp : p.Valid)
    (h : Network.java.node p = .guard level next) : (p.move next).Follows p := by
  have hfits := hp.fits.1
  rw [h] at hfits
  simp only [Node.fits, Bool.and_eq_true, decide_eq_true_eq, Bool.or_eq_true,
    Bool.not_eq_true'] at hfits
  refine ⟨valid_move hfits.1.1, hfits.1.2, fun hends => hfits.2.resolve_right ?_⟩
  intro hno
  rw [span, move, hno] at hends
  cases hends

theorem Valid.fork {nexts : List Nat} {next : Nat} (hp : p.Valid)
    (h : Network.java.node p = .fork nexts) (hnext : next ∈ nexts) : (p.move next).Follows p := by
  have hfits := hp.fits.1
  rw [h] at hfits
  simp only [Node.fits, List.all_eq_true, Bool.and_eq_true, decide_eq_true_eq, Bool.or_eq_true,
    Bool.not_eq_true'] at hfits
  obtain ⟨⟨hlt, hlength⟩, hor⟩ := hfits next hnext
  refine ⟨valid_move hlt, hlength, fun hends => hor.resolve_right ?_⟩
  intro hno
  rw [span, move, hno] at hends
  cases hends

/-- A call leads on to its rule, and if the rule may end without a token, also behind the call. -/
theorem Valid.call {r : Rule} {level next : Nat} (hp : p.Valid)
    (h : Network.java.node p = .call r level next) :
    (p.move next).Valid ∧ (Place.start r).span.length < p.span.length ∧
      ((Place.start r).span.ends = true →
        (Place.start r).span.length + (p.move next).span.length + 1 < p.span.length ∧
        ((p.move next).span.ends = true → p.span.ends = true)) := by
  have hfits := hp.fits.1
  rw [h] at hfits
  simp only [Node.fits, Bool.and_eq_true, decide_eq_true_eq, Bool.or_eq_true,
    Bool.not_eq_true'] at hfits
  obtain ⟨⟨hlt, hrank⟩, hor⟩ := hfits
  obtain ⟨hstart, hconsumes⟩ := span_start r
  refine ⟨valid_move hlt, Nat.lt_of_le_of_lt hstart hrank, fun hends => ?_⟩
  rcases hor with hr | ⟨hsum, hor⟩
  · rw [hconsumes hr] at hends
    cases hends
  · have hsum' : r.rank + (p.move next).span.length + 1 < p.span.length := hsum
    refine ⟨by omega, fun hnext => hor.resolve_right ?_⟩
    intro hno
    rw [span, move, hno] at hnext
    cases hnext

theorem Valid.finish (hp : p.Valid) (h : Network.java.node p = .finish) : p.span.ends = true := by
  have hfits := hp.fits.1
  rwa [h] at hfits

end Place

/-! ## Ways without a token -/

/-- All the ways back from a rule to the one with which the parse begins, which may be any rule. -/
inductive Proper : Rule → List Place → Prop where
  | nil (r : Rule) : Proper r []
  | cons {r : Rule} {p : Place} {level next : Nat} {σ : List Place} (valid : p.Valid)
      (call : Network.java.node p = .call r level next) (rest : Proper p.rule σ) :
      Proper r (p.move next :: σ)

/-- A valid place of a rule with the ways back from it. -/
structure Sited (p : Place) (σ : List Place) : Prop where
  valid : p.Valid
  proper : Proper p.rule σ

/-- One step through the network that takes no token. -/
inductive Drift : Place → List Place → Place → List Place → Prop where
  | call {p : Place} {σ : List Place} {r : Rule} {level next : Nat}
      (h : Network.java.node p = .call r level next) : Drift p σ (.start r) (p.move next :: σ)
  | guard {p : Place} {σ : List Place} {level next : Nat}
      (h : Network.java.node p = .guard level next) : Drift p σ (p.move next) σ
  | fork {p : Place} {σ : List Place} {nexts : List Nat} {next : Nat}
      (h : Network.java.node p = .fork nexts) (hnext : next ∈ nexts) : Drift p σ (p.move next) σ
  | back {p ret : Place} {σ : List Place} (h : Network.java.node p = .finish) : Drift p (ret :: σ) ret σ

namespace Sited

variable {p q : Place} {σ τ : List Place}

theorem start (r : Rule) : Sited (.start r) [] := ⟨.start r, .nil r⟩

/-- Behind a token one still has a proper place. -/
theorem take {ks : KindSet} {next : Nat} (h : Sited p σ)
    (hp : Network.java.node p = .take ks next) : Sited (p.move next) σ :=
  ⟨h.valid.take hp, h.proper⟩

theorem back {ret : Place} (h : Sited p (ret :: σ)) : Sited ret σ := by
  obtain ⟨-, hproper⟩ := h
  generalize p.rule = r at hproper
  cases hproper with
  | cons valid call rest => exact ⟨(valid.call call).1, rest⟩

theorem drift (h : Sited p σ) (hd : Drift p σ q τ) : Sited q τ := by
  cases hd with
  | call hp => exact ⟨.start _, .cons h.valid hp h.proper⟩
  | guard hp => exact ⟨(h.valid.guard hp).valid, h.proper⟩
  | fork hp hnext => exact ⟨(h.valid.fork hp hnext).valid, h.proper⟩
  | back hp => exact h.back

end Sited

namespace Place

/-- A bound on the number of steps without a token, with the ways back from the rule. -/
def burden : Place → List Place → Nat
  | p, [] => p.span.length
  | p, ret :: σ => if p.span.ends then p.span.length + 1 + burden ret σ else p.span.length

/-- A bound on the number of ways back that there can be before the next token. -/
def rise : Place → List Place → Nat
  | p, [] => p.span.length
  | p, ret :: σ =>
    max (p.span.length + 1 + σ.length) (if p.span.ends then rise ret σ else 0)

variable {p q : Place} {σ : List Place}

theorem Follows.burden (h : q.Follows p) : q.burden σ < p.burden σ := by
  have hlength := h.length
  cases σ with
  | nil => exact hlength
  | cons ret σ =>
    rw [Place.burden, Place.burden]
    cases hq : q.span.ends with
    | true =>
      rw [h.ends hq]
      simp only [if_true]
      omega
    | false =>
      simp only [Bool.false_eq_true, if_false]
      split <;> omega

theorem Follows.rise (h : q.Follows p) : q.rise σ ≤ p.rise σ := by
  have hlength := h.length
  cases σ with
  | nil => exact Nat.le_of_lt hlength
  | cons ret σ =>
    rw [Place.rise, Place.rise]
    cases hq : q.span.ends with
    | true =>
      rw [h.ends hq]
      simp only [if_true]
      omega
    | false =>
      simp only [Bool.false_eq_true, if_false]
      split <;> omega

theorem length_add_le_rise (p : Place) (σ : List Place) : p.span.length + σ.length ≤ p.rise σ := by
  cases σ with
  | nil => exact Nat.le_refl _
  | cons ret σ =>
    rw [rise, List.length_cons]
    omega

end Place

/-- No way without a token is longer than its burden, and none rises higher than it may. -/
theorem Drift.decreases {p q : Place} {σ τ : List Place} (hd : Drift p σ q τ) (h : p.Valid) :
    q.burden τ < p.burden σ ∧ q.rise τ ≤ p.rise σ := by
  cases hd with
  | guard hp => exact ⟨(h.guard hp).burden, (h.guard hp).rise⟩
  | fork hp hnext => exact ⟨(h.fork hp hnext).burden, (h.fork hp hnext).rise⟩
  | back hp =>
    rw [Place.burden, Place.rise, h.finish hp]
    simp only [if_true]
    omega
  | @call _ r level next hp =>
    obtain ⟨hvalid, hlength, hends⟩ := h.call hp
    have hrise := p.length_add_le_rise σ
    have hburden : p.span.length ≤ p.burden σ := by
      cases σ with
      | nil => exact Nat.le_refl _
      | cons ret σ =>
        rw [Place.burden]
        split <;> omega
    rw [Place.burden, Place.rise]
    cases hstart : (Place.start r).span.ends with
    | false =>
      simp only [Bool.false_eq_true, if_false]
      omega
    | true =>
      obtain ⟨hsum, hends⟩ := hends hstart
      have hnext : (p.move next).Follows p := ⟨hvalid, by omega, hends⟩
      have hnextrise := hnext.rise (σ := σ)
      simp only [if_true]
      refine ⟨?_, by omega⟩
      cases σ with
      | nil =>
        rw [Place.burden, Place.burden]
        omega
      | cons ret σ =>
        rw [Place.burden, Place.burden]
        cases hnextends : (p.move next).span.ends with
        | true =>
          rw [hends hnextends]
          simp only [if_true]
          omega
        | false =>
          simp only [Bool.false_eq_true, if_false]
          split <;> omega

section
variable {p : Place} {π : List Place}

/-- The burden of ways back grows with their number. -/
theorem Place.Valid.burden_lt (hp : p.Valid) (hπ : ∀ q ∈ π, q.Valid) :
    p.burden π < spanLimit * (π.length + 1) := by
  induction π generalizing p with
  | nil =>
    have hlimit := hp.fits.2
    rw [Place.burden, List.length_nil]
    omega
  | cons ret π ih =>
    obtain ⟨hret, hπ⟩ := List.forall_mem_cons.1 hπ
    have hlimit := hp.fits.2
    have hback := ih hret hπ
    rw [Place.burden, List.length_cons, Nat.mul_succ]
    split <;> omega

/-- Before the next token the number of ways back grows by a fixed number at most. -/
theorem Place.Valid.rise_lt (hp : p.Valid) (hπ : ∀ q ∈ π, q.Valid) :
    p.rise π < π.length + spanLimit := by
  induction π generalizing p with
  | nil =>
    have hlimit := hp.fits.2
    rw [Place.rise, List.length_nil]
    omega
  | cons ret π ih =>
    obtain ⟨hret, hπ⟩ := List.forall_mem_cons.1 hπ
    have hlimit := hp.fits.2
    have hback := ih hret hπ
    rw [Place.rise, List.length_cons]
    split <;> omega

end

namespace Sited

variable {p : Place} {σ : List Place}

theorem valid_of_mem (h : Sited p σ) : ∀ q ∈ σ, q.Valid := by
  induction σ generalizing p with
  | nil => nofun
  | cons ret σ ih => exact List.forall_mem_cons.2 ⟨h.back.valid, ih h.back⟩

theorem burden_lt {π rest : List Place} (h : Sited p (π ++ rest)) :
    p.burden π < spanLimit * (π.length + 1) :=
  h.valid.burden_lt fun q hq => h.valid_of_mem q (List.mem_append_left rest hq)

theorem rise_le (h : Sited p σ) : p.rise σ < σ.length + spanLimit :=
  h.valid.rise_lt h.valid_of_mem

end Sited

end JavaOutline
