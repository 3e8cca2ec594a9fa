import JavaOutline.Proofs.Grammar.Stray
import JavaOutline.Proofs.Parser.Completeness
import JavaOutline.Proofs.Parser.Deepening
import JavaOutline.Proofs.Parser.Sentences
import JavaOutline.Proofs.Parser.Toil
import JavaOutline.Proofs.Prediction.Admitted
import JavaOutline.Proofs.Prediction.Bounds

/-!
# A parse is never cut short

The parser works with a bound on the depth of its calls, and loops count as calls too. This file
shows that the bound for the number of tokens is always enough, however wrong they are.

Where the next token fits (`Place.Admits`), a piece goes no deeper than `Piece.need` before it takes a
token, gives up a rule, or ends without having to take one; in the last case the token fits what
follows. Where it does not fit, the piece goes no deeper than `Piece.strayNeed` before there is less
to do or the token fits what follows. Since `Setting.toil` goes down with every token and with every
rule that is given up, the depth can be counted: `Setting.depthAt` for the piece itself, and twice
`tokenDepth` for each unit of toil, once on the right way and once astray. `Setting.EndsAt` says so
for all functions of the parser at one bound, and the induction goes over the bound. At the end of
the file there is no toil, but there nothing fits except what may be left out, so that no loop is
entered.
-/

namespace JavaOutline

namespace Setting

variable {S : Setting} {n n' d d' : Nat} {F : Frame} {p q : Place} {s s' s'' : Progress}
  {a b : Step}

/-! ## Going on -/

/-- There is a stretch of a parse from one state to the other. -/
def Onward (S : Setting) (s s' : Progress) : Prop := ∃ ts, AnyTrail S s ts s'

namespace Onward

theorem refl (s : Progress) : S.Onward s s := ⟨[], .refl s⟩

theorem trans (h : S.Onward s s') (h' : S.Onward s' s'') : S.Onward s s'' := by
  obtain ⟨ts, h⟩ := h
  obtain ⟨us, h'⟩ := h'
  exact ⟨ts ++ us, h.trans h'⟩

theorem toil_le (h : S.Onward s s') : S.toil s' ≤ S.toil s := by
  obtain ⟨ts, h⟩ := h
  exact h.toil_le

theorem pos_le (h : S.Onward s s') (hs : s.pos ≤ S.kinds.size) : s'.pos ≤ S.kinds.size := by
  obtain ⟨ts, h⟩ := h
  exact (h.pos_bounds hs).2

/-- There is less to do, or the next token is still the same. -/
theorem lt_or_next_eq (h : S.Onward s s') (hs : s.pos ≤ S.kinds.size) :
    S.toil s' < S.toil s ∨ S.next s' = S.next s := by
  obtain ⟨ts, h⟩ := h
  obtain ⟨hle, hle'⟩ := h.pos_bounds hs
  rcases Nat.lt_or_eq_of_le hle with hlt | heq
  · exact .inl (toil_lt_of_pos_lt hlt (by omega))
  · exact .inr (by rw [next, next, heq])

end Onward

/-! ## Depth -/

/-- The state before a function of the parser with the bound `n` on its depth: nothing has been cut
short, and the depth is enough for what is left to do and for `d` calls. -/
structure Supplied (S : Setting) (n d : Nat) (s : Progress) : Prop where
  uncut : s.cutShort = false
  pos_le : s.pos ≤ S.kinds.size
  depth : S.toil s * (2 * tokenDepth) + d ≤ n

namespace Supplied

/-- One call deeper, and possibly further on. -/
theorem call (h : S.Supplied n d s) (hon : S.Onward s s') (huncut : s'.cutShort = false)
    (hd : d' + n ≤ d + n') : S.Supplied n' d' s' := by
  have hle := Nat.mul_le_mul_right (2 * tokenDepth) hon.toil_le
  have hdepth := h.depth
  exact ⟨huncut, hon.pos_le h.pos_le, by omega⟩

/-- Where there is less to do the depth is enough for anything. -/
theorem less (h : S.Supplied n d s) (hon : S.Onward s s') (huncut : s'.cutShort = false)
    (hlt : S.toil s' < S.toil s) (hd : d' ≤ 2 * tokenDepth) (hn : n ≤ d + n') :
    S.Supplied n' d' s' := by
  have hle := Nat.mul_le_mul_right (2 * tokenDepth) (Nat.succ_le_of_lt hlt)
  rw [Nat.succ_mul] at hle
  have hdepth := h.depth
  exact ⟨huncut, hon.pos_le h.pos_le, by omega⟩

theorem weaken (h : S.Supplied n d s) (hd : d' ≤ d) : S.Supplied n d' s :=
  h.call (.refl s) h.uncut (by omega)

end Supplied

/-- One of two depths: on the right way if the next token fits at the place, and astray if not. -/
def onWay (p : Place) (k : Kind) (right astray : Nat) : Nat := if p.Admits k then right else astray

section
variable {k : Kind} {right astray right' astray' m : Nat}

theorem onWay_of_admits (h : p.Admits k) : onWay p k right astray = right := if_pos h

theorem onWay_of_not_admits (h : ¬ p.Admits k) : onWay p k right astray = astray := if_neg h

theorem onWay_le (hright : right ≤ m) (hastray : astray ≤ m) : onWay p k right astray ≤ m := by
  unfold onWay
  split
  · exact hright
  · exact hastray

theorem le_onWay (hright : m ≤ right) (hastray : m ≤ astray) : m ≤ onWay p k right astray := by
  unfold onWay
  split
  · exact hright
  · exact hastray

/-- One call deeper at the same place. -/
theorem Supplied.down (h : S.Supplied (n + 1) (onWay p k right astray) s) (hright : right' < right)
    (hastray : astray' < astray) : S.Supplied n (onWay p k right' astray') s := by
  refine h.call (.refl s) h.uncut ?_
  unfold onWay
  split <;> omega

end

/-- How deep a piece can go. Astray there must be enough depth to get back on the right way. -/
def depthAt (p : Place) (piece : Piece) (k : Kind) : Nat :=
  onWay p k piece.need (piece.strayNeed + tokenDepth)

theorem depthAt_le {piece : Piece} (hfits : piece.Fits) (p : Place) (k : Kind) :
    depthAt p piece k ≤ 2 * tokenDepth := by
  have hneed := hfits.need_le
  have hstray := hfits.strayNeed_le
  exact onWay_le (by omega) (by omega)

/-! ## Steps -/

/-- A step from `s` is not cut short, an error is at a place of the network, and without an error
there is less to do afterwards, or `P` holds. -/
structure Gets (S : Setting) (s : Progress) (P : Prop) (a : Step) : Prop where
  onward : S.Onward s a.state
  uncut : a.state.cutShort = false
  valid : ∀ f, a.fault = some f → f.place.Valid
  gain : a.fault = none → S.toil a.state < S.toil s ∨ P

namespace Gets

variable {P Q : Prop}

theorem mono (h : S.Gets s P a) (hPQ : P → Q) : S.Gets s Q a :=
  ⟨h.onward, h.uncut, h.valid, fun hfault => (h.gain hfault).imp id hPQ⟩

/-- What begins when there is less to do. -/
theorem of_less (h : S.Gets s' P a) (hon : S.Onward s s')
    (hlt : S.toil s' < S.toil s) : S.Gets s Q a :=
  ⟨hon.trans h.onward, h.uncut, h.valid,
    fun _ => .inl (Nat.lt_of_le_of_lt h.onward.toil_le hlt)⟩

/-- What begins when nothing has happened yet. -/
theorem of_same (h : S.Gets s' P a) (hon : S.Onward s s')
    (heq : S.toil s' = S.toil s) : S.Gets s P a :=
  ⟨hon.trans h.onward, h.uncut, h.valid, fun hfault => heq ▸ h.gain hfault⟩

/-- The trees do not matter. -/
theorem congr (h : S.Gets s P a) (hstate : b.state = a.state) (hfault : b.fault = a.fault) :
    S.Gets s P b :=
  ⟨hstate ▸ h.onward, hstate ▸ h.uncut, hfault ▸ h.valid, by rw [hstate, hfault]; exact h.gain⟩

/-- What follows a step ends with the error of the step, or starts with less to do, or starts before
the same token. -/
theorem goOn (h : S.Gets s P a) (hs : s.pos ≤ S.kinds.size)
    (hfail : ∀ f, a.fault = some f → b.state = a.state ∧ b.fault = some f)
    (hless : a.fault = none → S.toil a.state < S.toil s → S.Gets a.state True b)
    (hsame : a.fault = none → S.next a.state = S.next s → P → S.Gets a.state Q b) :
    S.Gets s Q b := by
  cases hfault : a.fault with
  | some f =>
    obtain ⟨hstate, hfault'⟩ := hfail f hfault
    refine congr ⟨h.onward, h.uncut, h.valid, fun hnone => ?_⟩ hstate (hfault'.trans hfault.symm)
    rw [hfault] at hnone
    cases hnone
  | none =>
    have hgain : S.toil a.state < S.toil s → S.Gets s Q b := fun hlt =>
      (hless hfault hlt).of_less h.onward hlt
    rcases h.onward.lt_or_next_eq hs with hlt | hnext
    · exact hgain hlt
    · rcases h.gain hfault with hlt | hP
      · exact hgain hlt
      · have hb := hsame hfault hnext hP
        refine ⟨h.onward.trans hb.onward, hb.uncut, hb.valid, fun hnone => ?_⟩
        exact (hb.gain hnone).imp (fun hlt => Nat.lt_of_lt_of_le hlt h.onward.toil_le) id

/-- One step after the other. -/
theorem andThen {f : Progress → Step} (h : S.Gets s P a) (hs : s.pos ≤ S.kinds.size)
    (hless : S.toil a.state < S.toil s → S.Gets a.state True (f a.state))
    (hsame : S.next a.state = S.next s → P → S.Gets a.state Q (f a.state)) :
    S.Gets s Q (a.andThen f) := by
  refine h.goOn hs (fun fault hfault => ?_) (fun hfault hlt => ?_) fun hfault hnext hP => ?_
  · rw [Step.andThen, hfault]
    exact ⟨rfl, hfault⟩
  · rw [Step.andThen, hfault]
    exact (hless hlt).congr rfl rfl
  · rw [Step.andThen, hfault]
    exact (hsame hnext hP).congr rfl rfl

end Gets

/-! ## Taking tokens and deciding -/

/-- What may be said of a piece behind which there is nothing less to do: on the right way it may be
left out and the next token fits what follows, and astray the token fits behind a piece that stops. -/
def Passed (piece : Piece) (p : Place) (next : Nat) (k : Kind) : Prop :=
  (p.Admits k → piece.consumes = false ∧ (p.move next).Admits k) ∧
    (¬ p.Admits k → piece.stops = true → (p.move next).Admits k)

/-- A token that is dropped leaves less to do. -/
theorem drop?_toil_lt {ks : KindSet} (hk : S.next s ∉ ks) (h : S.drop? ks s = (s', some a)) :
    S.toil a.state < S.toil s := by
  obtain ⟨-, -, -, hbehind, hpos⟩ := drop?_some (K := fun _ => true) (R := fun _ => true) h
  refine toil_lt_of_advance hpos (Nat.lt_of_not_le fun hle => hk ?_)
  -- At the end of the file the token behind the next one is the end of the file again.
  rw [next, kindAt_of_size_le hle]
  rwa [kindAt_of_size_le (Nat.le_succ_of_le hle)] at hbehind

/-- A token is taken, or the input is repaired by one token, or there is an error. -/
theorem accept_cases (F : Frame) (p : Place) (ks : KindSet) (after : Place)
    (assumed : List (Tree Nat)) (s : Progress) :
    (S.next s ∈ ks ∧ S.accept F p ks after assumed s = S.takeNext s.settle) ∨
    S.next s ∉ ks ∧
      ((S.accept F p ks after assumed s).fault = none ∧
          S.toil (S.accept F p ks after assumed s).state < S.toil s ∨
        (S.accept F p ks after assumed s).fault = none ∧
          S.next s ∈ expected S.net after F.callers ∨
        ∃ t cause, S.accept F p ks after assumed s = .fail ⟨p, s.pos, cause⟩ t) := by
  unfold accept
  split
  · rename_i hk
    exact .inl ⟨hk, rfl⟩
  · rename_i hk
    refine .inr ⟨hk, ?_⟩
    split
    · rename_i t dropped hd
      have hfault := (drop?_some (K := fun _ => true) (R := fun _ => true) hd).2.1
      rw [Step.andThen, hfault]
      exact .inl ⟨rfl, Nat.lt_of_le_of_lt (toil_le_of_advance rfl) (drop?_toil_lt hk hd)⟩
    · rename_i t hd
      obtain rfl := drop?_none hd
      split
      · rename_i hexpected
        exact .inr (.inl ⟨rfl, hexpected⟩)
      · exact .inr (.inr ⟨_, _, rfl⟩)

/-- What a token gets: it may be the end of the file, or the next token fits what follows. -/
theorem Java.accept (hS : S.Java) {ks : KindSet} {next : Nat}
    (hp : Network.java.node p = .take ks next) (hs : s.cutShort = false)
    {assumed : List (Tree Nat)} {P : Prop}
    (hon : S.Onward s (S.accept F p ks (S.behind p) assumed s).state)
    (hright : S.next s ∈ ks → S.next s = .endOfFile → P)
    (hastray : S.next s ∉ ks → (p.move next).Admits (S.next s) → P) :
    S.Gets s P (S.accept F p ks (S.behind p) assumed s) := by
  have huncut : (S.accept F p ks (S.behind p) assumed s).state.cutShort = false := by
    rw [accept_cutShort, hs]
  have hbehind : S.behind p = p.move next := by rw [Setting.behind, hS.net, hp]
  have hvalid : p.Valid := Place.valid_of_node (by rw [hp]; rintro ⟨⟩)
  refine ⟨hon, huncut, fun f hf => ?_, fun hf => ?_⟩ <;>
    rcases accept_cases F p ks (S.behind p) assumed s with
      ⟨hk, heq⟩ | ⟨hk, ⟨hnone, hlt⟩ | ⟨hnone, hexpected⟩ | ⟨t, cause, heq⟩⟩
  · rw [heq] at hf
    cases hf
  · rw [hnone] at hf
    cases hf
  · rw [hnone] at hf
    cases hf
  · rw [heq] at hf
    obtain rfl := Option.some.inj hf
    exact hvalid
  · by_cases hpos : s.pos < S.kinds.size
    · refine .inl (toil_lt_of_advance ?_ hpos)
      rw [heq]
      simp [takeNext, Step.ok, Progress.advance_pos, Progress.settle]
    · exact .inr (hright hk (kindAt_of_size_le (Nat.le_of_not_lt hpos)))
  · exact .inl hlt
  · rw [hS.net, hbehind] at hexpected
    exact .inr (hastray hk (admits_of_expected hexpected))
  · rw [heq] at hf
    cases hf

/-- Where the next token fits nothing needs to be done before a decision. -/
theorem Java.resync_of_admits (hS : S.Java) (h : p.Admits (S.next s)) (inLoop : Bool) :
    S.resync F p inLoop s = .ok [] s := by
  have hfits : (s.recovering || (S.net.look p).passes || (S.net.look p).kinds.contains (S.next s)) =
      true := by
    rw [hS.net]
    rcases h with hk | hpass
    · have hk : (Network.java.look p).kinds.contains (S.next s) = true := hk
      rw [hk, Bool.or_true]
    · rw [hpass, Bool.or_true, Bool.true_or]
  simp only [resync, hfits, if_true]

/-- Before a decision nothing is done, or a token is dropped, or there is an error. -/
theorem resync_cases (F : Frame) (p : Place) (s : Progress) :
    S.resync F p false s = .ok [] s ∨
      (S.resync F p false s).fault = none ∧
        S.toil (S.resync F p false s).state < S.toil s ∨
      ∃ t cause, S.resync F p false s = .fail ⟨p, s.pos, cause⟩ t := by
  simp only [resync, Bool.false_eq_true, if_false]
  split
  · exact .inl rfl
  · rename_i hk
    refine .inr ?_
    split
    · rename_i t dropped hd
      have hfault := (drop?_some (K := fun _ => true) (R := fun _ => true) hd).2.1
      refine .inl ⟨hfault, drop?_toil_lt (fun hmem => hk ?_) hd⟩
      have hmem : (S.net.look p).kinds.contains (S.next s) = true := hmem
      rw [hmem, Bool.or_true]
    · rename_i t hd
      obtain rfl := drop?_none hd
      exact .inr ⟨_, _, rfl⟩

/-- What is got before a decision. -/
theorem gets_resync (hp : p.Valid) (hs : s.cutShort = false) :
    S.Gets s (S.resync F p false s = .ok [] s) (S.resync F p false s) := by
  refine ⟨⟨_, resync_trail false⟩, by rw [resync_cutShort, hs], fun f hf => ?_, fun hf => ?_⟩ <;>
    rcases S.resync_cases F p s with heq | ⟨hnone, hlt⟩ | ⟨t, cause, heq⟩
  · rw [heq] at hf
    cases hf
  · rw [hnone] at hf
    cases hf
  · rw [heq] at hf
    obtain rfl := Option.some.inj hf
    exact hp
  · exact .inr heq
  · exact .inl hlt
  · rw [heq] at hf
    cases hf

theorem skipTo_fault (ks : KindSet) (n : Nat) (s : Progress) : (S.skipTo ks n s).fault = none := by
  induction n generalizing s with
  | zero => rfl
  | succ n ih =>
    rw [skipTo]
    split
    · rfl
    · exact ih _

/-- Behind a turn of a loop tokens are skipped at most. -/
theorem gets_resync_loop (F : Frame) (p : Place) (hs : s.cutShort = false) :
    S.Gets s True (S.resync F p true s) := by
  have hfault : (S.resync F p true s).fault = none := by
    simp only [resync, if_true]
    split
    · rfl
    · exact skipTo_fault ..
  refine ⟨⟨_, resync_trail true⟩, by rw [resync_cutShort, hs], fun f hf => ?_, fun _ => .inr trivial⟩
  rw [hfault] at hf
  cases hf

/-- **A decision takes a way on that the next token fits**, or the way out if there is one. -/
theorem Java.decide (hS : S.Java) {nexts : List Nat} (hp : Network.java.node p = .fork nexts)
    (hcallers : ∀ q ∈ F.callers, q.Valid) (hs : s.cutShort = false)
    (hpos : s.pos ≤ S.kinds.size) {otherwise : Option Nat} {v : Verdict}
    (h : S.decide F p otherwise s = (v, s')) :
    S.Onward s s' ∧ s'.cutShort = false ∧ S.toil s' = S.toil s ∧
      S.next s' = S.next s ∧ ∀ i, v = .take i →
        (∃ j next, i = j + 1 ∧ nexts[j]? = some next ∧ (p.move next).Admits (S.next s)) ∨
        otherwise = some i ∧ (p.Admits (S.next s) →
          ∃ next ∈ nexts, (Network.java.look (p.move next)).passes = true) := by
  refine ⟨⟨[], decide_trail h⟩, ?_⟩
  unfold Setting.decide at h
  rw [hS.net] at h
  cases hdirect : Network.java.direct p with
  | some sets =>
    rw [hdirect] at h
    dsimp only at h
    cases hfind : sets.findIdx? (·.contains (S.next s)) with
    | some j =>
      rw [hfind] at h
      cases h
      refine ⟨hs, rfl, rfl, ?_⟩
      rintro i ⟨⟩
      obtain ⟨next, hnext, hadmits⟩ := admits_of_direct hp hdirect hfind
      exact .inl ⟨j, next, rfl, hnext, hadmits⟩
    | none =>
      rw [hfind] at h
      cases otherwise with
      | none =>
        cases h
        exact ⟨hs, rfl, rfl, nofun⟩
      | some alt =>
        cases h
        refine ⟨hs, rfl, rfl, ?_⟩
        rintro i ⟨⟩
        exact .inr ⟨rfl, passes_of_direct hp hdirect hfind⟩
  | none =>
    rw [hdirect] at h
    dsimp only at h
    obtain ⟨rfl, rfl⟩ := Prod.mk.inj h
    let C : Choice := ⟨S.kinds, s.pos, F.level, F.callers, p⟩
    refine ⟨?_, rfl, rfl, fun i hi => .inl ?_⟩
    · have hover := Choice.forecast_overrun (C := C) hS.closed hp hcallers hpos
      simp only [hs, Bool.false_or]
      exact hover
    · obtain ⟨nexts', next, hp', hmem, hadmits⟩ := Choice.forecast_admitted (C := C) hp hcallers hi
      obtain rfl : nexts' = nexts := Node.fork.inj (hp'.symm.trans hp)
      obtain ⟨hi, hget⟩ := List.mk_mem_zipIdx_iff_le_and_getElem?_sub.1 hmem
      exact ⟨i - 1, next, by omega, hget, hadmits⟩

/-! ## The functions of the parser -/

/-- What may be said of alternatives behind which there is nothing less to do. -/
def PassedBlock (alts : List Piece) (exits : List Nat) (p : Place) (meet : Nat) (k : Kind) : Prop :=
  (p.Admits k → (exits = [] → Piece.allConsume alts = false) ∧ (p.move meet).Admits k) ∧
    (¬ p.Admits k → exits ≠ [])

/-- With a bound `n` on their depth, the functions of the parser are not cut short, provided that
they start with enough depth at the right places. -/
structure EndsAt (S : Setting) (n : Nat) : Prop where
  piece : ∀ (F : Frame) (p : Place) (next : Nat) (piece : Piece) (s : Progress),
    (∀ q ∈ F.callers, q.Valid) → Network.java.Holds p (piece.wire p.offset next) → piece.Fits →
    piece.branches = true → S.Supplied n (depthAt p piece (S.next s)) s →
    S.Gets s (Passed piece p next (S.next s)) (S.parsePiece n F p piece s)
  block : ∀ (F : Frame) (p : Place) (base meet : Nat) (alts : List Piece) (exits : List Nat)
    (otherwise : Option Nat) (s : Progress), (∀ q ∈ F.callers, q.Valid) →
    Alternatives p base meet alts exits →
    (∀ alt, otherwise = some alt → exits ≠ [] ∧ alts.length < alt) →
    S.Supplied n (onWay p (S.next s) (1 + Piece.maxNeed alts) 1) s →
    S.Gets s (PassedBlock alts exits p meet (S.next s)) (S.parseBlock n F p base alts otherwise s)
  turn : ∀ (F : Frame) (p : Place) (base meet : Nat) (alts : List Piece) (s : Progress),
    (∀ q ∈ F.callers, q.Valid) → Alternatives p base meet alts [] →
    S.Supplied n (onWay p (S.next s) (2 + Piece.maxNeed alts)
      (2 + Piece.maxStrayNeed alts + tokenDepth)) s →
    S.Gets s (p.Admits (S.next s) → Piece.allConsume alts = false) (S.parseTurn n F p base alts s)
  many : ∀ (F : Frame) (p back : Place) (next : Nat) (alts : List Piece) (s : Progress),
    (∀ q ∈ F.callers, q.Valid) → back.Valid → Network.java.Holds p ((Piece.many alts).wire p.offset next) →
    (Piece.many alts).Fits → (Piece.many alts).branches = true →
    S.Supplied n (onWay p (S.next s) (3 + Piece.maxNeed alts) 3) s →
    S.Gets s (p.Admits (S.next s) → (p.move next).Admits (S.next s))
      (S.parseMany n F p back alts s)
  many1 : ∀ (F : Frame) (p : Place) (next : Nat) (alts : List Piece) (s : Progress),
    (∀ q ∈ F.callers, q.Valid) → Network.java.Holds p ((Piece.many1 alts).wire p.offset next) →
    (Piece.many1 alts).Fits → (Piece.many1 alts).branches = true →
    S.Supplied n (onWay p (S.next s) (3 + Piece.maxNeed alts)
      (3 + Piece.maxStrayNeed alts + tokenDepth)) s →
    S.Gets s (¬ p.Admits (S.next s)) (S.parseMany1 n F p alts s)
  operators : ∀ (F : Frame) (p back : Place) (next : Nat) (alts : List Piece)
    (operand : List (Tree Nat)) (s : Progress), (∀ q ∈ F.callers, q.Valid) → back.Valid →
    Network.java.Holds p ((Piece.many alts).wire p.offset next) → (Piece.many alts).Fits →
    (Piece.many alts).branches = true →
    S.Supplied n (onWay p (S.next s) (1 + Piece.maxNeed alts) 1) s →
    S.Gets s True (S.parseOperators n F p back alts operand s)
  rule : ∀ (callers : List Place) (r : Rule) (level : Nat) (s : Progress),
    (∀ q ∈ callers, q.Valid) →
    S.Supplied n (onWay (.start r) (S.next s) r.rank (r.strayRank + tokenDepth)) s →
    S.Gets s ((Place.start r).Admits (S.next s) → r.consumes = false)
      (.ok [(S.parseRule n callers r level s).1] (S.parseRule n callers r level s).2)

theorem not_supplied_zero (hd : 0 < d) : ¬ S.Supplied 0 d s := by
  intro h
  have hdepth := h.depth
  omega

theorem EndsAt.zero : EndsAt S 0 where
  piece _ p _ piece s _ _ _ _ h := by
    have hneed := piece.need_pos
    exact (not_supplied_zero (le_onWay hneed (Nat.succ_pos _)) h).elim
  block _ _ _ _ _ _ _ _ _ _ _ h := (not_supplied_zero (le_onWay (by omega) (by omega)) h).elim
  turn _ _ _ _ _ _ _ _ h := (not_supplied_zero (le_onWay (by omega) (by omega)) h).elim
  many _ _ _ _ _ _ _ _ _ _ _ h := (not_supplied_zero (le_onWay (by omega) (by omega)) h).elim
  many1 _ _ _ _ _ _ _ _ _ h := (not_supplied_zero (le_onWay (by omega) (by omega)) h).elim
  operators _ _ _ _ _ _ _ _ _ _ _ _ h := (not_supplied_zero (le_onWay (by omega) (by omega)) h).elim
  rule _ r _ _ _ h := by
    have hneed := r.depth_bounds.1
    have hstray := r.strayNeed_lt_strayRank
    exact (not_supplied_zero (le_onWay (by omega) (by omega)) h).elim

section
variable {next base meet : Nat} {alts : List Piece} {exits : List Nat}

/-- Nothing has happened but that the parser has looked. -/
theorem gets_ok {P : Prop} (hon : S.Onward s s') (huncut : s'.cutShort = false) (hP : P)
    (ts : List (Tree Nat)) : S.Gets s P (.ok ts s') :=
  ⟨hon, huncut, fun f (hf : none = some f) => (by cases hf), fun _ => .inr hP⟩

theorem gets_fail {P : Prop} {f : Fault} (hon : S.Onward s s') (huncut : s'.cutShort = false)
    (hvalid : f.place.Valid) : S.Gets s P (.fail f s') := by
  refine ⟨hon, huncut, fun f' hf => ?_, fun (hf : some f = none) => by cases hf⟩
  obtain rfl := Option.some.inj hf
  exact hvalid

/-- The alternative that is taken. -/
theorem EndsAt.alternative (h : EndsAt S n) (hcallers : ∀ q ∈ F.callers, q.Valid)
    (halts : Alternatives p base meet alts exits) (hs : S.Supplied n (Piece.maxNeed alts) s)
    {i : Nat} (hi : (Piece.starts base alts)[i]? = some next)
    (hadmits : (p.move next).Admits (S.next s)) :
    ∃ q piece, alternative? p.rule base alts (i + 1) = some (q, piece) ∧
      S.Gets s (Piece.allConsume alts = false ∧ (p.move meet).Admits (S.next s))
        (S.parsePiece n F q piece s) := by
  obtain ⟨piece, hmem, halt, exit, hholds, hexit⟩ := exists_alternative halts.holds hi
  refine ⟨_, piece, halt, ?_⟩
  have hneed := Piece.need_le_of_mem hmem
  have hgets := h.piece F (p.move next) exit piece s hcallers hholds (halts.fits piece hmem)
    (Piece.branches_of_mem halts.branches hmem)
    (hs.weaken (by rw [depthAt, onWay_of_admits hadmits]; exact hneed))
  refine hgets.mono fun hpassed => ?_
  obtain ⟨hconsumes, hnext⟩ := hpassed.1 hadmits
  refine ⟨?_, ?_⟩
  · rw [Bool.eq_false_iff]
    intro hall
    rw [Piece.consumes_of_mem hall hmem] at hconsumes
    cases hconsumes
  · rcases hexit with rfl | hfork
    · exact hnext
    · exact (admits_jump (p := p.move exit) hfork).1 hnext

/-- A decision between alternatives. -/
theorem EndsAt.chosen (h : EndsAt S n) (hS : S.Java) (hcallers : ∀ q ∈ F.callers, q.Valid)
    (halts : Alternatives p base meet alts exits) {otherwise : Option Nat}
    (hotherwise : ∀ alt, otherwise = some alt → exits ≠ [] ∧ alts.length < alt)
    (hs : S.Supplied n (onWay p (S.next s) (Piece.maxNeed alts) 0) s) :
    S.Gets s (PassedBlock alts exits p meet (S.next s))
      (S.parseChosen n F p base alts otherwise s) := by
  rcases hd : S.decide F p otherwise s with ⟨v, s'⟩
  obtain ⟨hon, huncut, htoil, hnext, htake⟩ :=
    hS.decide halts.fork hcallers hs.uncut hs.pos_le hd
  cases v with
  | stuck pos =>
    simp only [parseChosen, hd]
    exact gets_fail hon huncut (Place.valid_of_fork halts.fork)
  | take i =>
    simp only [parseChosen, hd]
    rcases htake i rfl with ⟨j, next, rfl, hj, hadmits⟩ | ⟨hout, hpasses⟩
    · have hp : p.Admits (S.next s) :=
        (admits_fork halts.fork).2 ⟨next, List.mem_of_getElem? hj, hadmits⟩
      have hs' : S.Supplied n (Piece.maxNeed alts) s' :=
        hs.call hon huncut (by rw [onWay_of_admits hp])
      by_cases hlt : j < alts.length
      · rw [List.getElem?_append_left (by simpa using hlt)] at hj
        obtain ⟨q, piece, halt, hgets⟩ := h.alternative hcallers halts hs' hj (hnext ▸ hadmits)
        simp only [halt]
        refine (hgets.of_same hon htoil).mono fun hpassed => ⟨fun _ => ?_, absurd hp⟩
        exact ⟨fun _ => hpassed.1, hnext ▸ hpassed.2⟩
      · rw [List.getElem?_append_right (by simpa using hlt)] at hj
        have hexit := List.mem_of_getElem? hj
        obtain rfl := halts.exits next hexit
        simp only [alternative?_eq_none (show alts.length < j + 1 by omega)]
        exact gets_ok hon huncut ⟨fun _ => ⟨fun hnil => by simp [hnil] at hexit, hadmits⟩,
          absurd hp⟩ _
    · obtain ⟨hexits, hlt⟩ := hotherwise i hout
      simp only [alternative?_eq_none hlt]
      refine gets_ok hon huncut ⟨fun hp => ⟨fun hnil => absurd hnil hexits, ?_⟩, fun _ => hexits⟩ _
      obtain ⟨next, hmem, hpass⟩ := hpasses hp
      rcases List.mem_append.1 hmem with hstart | hexit
      · exact .of_passes (Piece.consumes_of_passes_alternative alts _ _ _ _ halts.holds
          (Piece.allAdvance_of_allFit halts.fits) hstart hpass).2
      · obtain rfl := halts.exits next hexit
        exact .of_passes hpass

/-- Alternatives. -/
theorem EndsAt.block_step (h : EndsAt S n) (hS : S.Java) (hcallers : ∀ q ∈ F.callers, q.Valid)
    (halts : Alternatives p base meet alts exits) {otherwise : Option Nat}
    (hotherwise : ∀ alt, otherwise = some alt → exits ≠ [] ∧ alts.length < alt)
    (hs : S.Supplied (n + 1) (onWay p (S.next s) (1 + Piece.maxNeed alts) 1) s) :
    S.Gets s (PassedBlock alts exits p meet (S.next s))
      (S.parseBlock (n + 1) F p base alts otherwise s) := by
  rw [parseBlock_succ]
  have hresync := S.gets_resync (F := F) (Place.valid_of_fork halts.fork) hs.uncut
  have hneed : Piece.maxNeed alts ≤ tokenDepth := Piece.maxNeed_le_of_allFit halts.fits
  refine hresync.andThen hs.pos_le (fun hlt => ?_) fun _ heq => ?_
  · refine (h.chosen hS hcallers halts hotherwise ?_).mono fun _ => trivial
    exact hs.less hresync.onward hresync.uncut hlt (onWay_le (by omega) (by omega))
      (Nat.add_comm 1 n ▸ Nat.add_le_add_right (le_onWay (by omega) (Nat.le_refl 1)) n)
  · rw [heq]
    exact h.chosen hS hcallers halts hotherwise (hs.down (by omega) (by omega))

/-- A turn of a loop. -/
theorem EndsAt.turn_step (h : EndsAt S n) (hcallers : ∀ q ∈ F.callers, q.Valid)
    (halts : Alternatives p base meet alts [])
    (hs : S.Supplied (n + 1) (onWay p (S.next s) (2 + Piece.maxNeed alts)
      (2 + Piece.maxStrayNeed alts + tokenDepth)) s) :
    S.Gets s (p.Admits (S.next s) → Piece.allConsume alts = false)
      (S.parseTurn (n + 1) F p base alts s) := by
  simp only [parseTurn]
  split
  · rename_i piece
    obtain ⟨piece', hmem, halt, exit, hholds, -⟩ := exists_alternative halts.holds (i := 0) rfl
    obtain rfl := List.mem_singleton.1 hmem
    have hadmits : p.Admits (S.next s) ↔ (p.move base).Admits (S.next s) := admits_jump halts.fork
    have hgets := h.piece F (p.move base) exit piece' s hcallers hholds (halts.fits _ hmem)
      (Piece.branches_of_mem halts.branches hmem) ?_
    · refine hgets.mono fun hpassed hp => ?_
      rw [Piece.allConsume, (hpassed.1 (hadmits.1 hp)).1]
      rfl
    · have hdown : S.Supplied n (onWay p (S.next s) piece'.need
          (piece'.strayNeed + tokenDepth)) s :=
        hs.down (by rw [Piece.maxNeed]; omega) (by rw [Piece.maxStrayNeed]; omega)
      rwa [onWay, if_congr hadmits rfl rfl] at hdown
  · refine (h.block F p base meet alts [] none s hcallers halts (by rintro _ ⟨⟩)
      (hs.down (by omega) (by omega))).mono fun hpassed hp => ?_
    exact (hpassed.1 hp).1 rfl

/-- Where a loop whose turns take tokens can be passed without one, what follows can be. -/
theorem LoopAt.admits_next (h : LoopAt p next alts) (hconsume : Piece.allConsume alts = true)
    {k : Kind} (hpass : ∃ way ∈ [p.offset + 1, p.offset + 4],
      (Network.java.look (p.move way)).passes = true) : (p.move next).Admits k := by
  obtain ⟨way, hway, hpass⟩ := hpass
  simp only [List.mem_cons, List.not_mem_nil, or_false] at hway
  rcases hway with rfl | rfl
  · obtain ⟨start, hstart, hpass⟩ := (passes_fork h.turn.fork).1 hpass
    rw [List.append_nil] at hstart
    have hno := (Piece.consumes_of_passes_alternative alts _ _ _ _ h.turn.holds
      (Piece.allAdvance_of_allFit h.turn.fits) hstart hpass).1
    rw [hconsume] at hno
    cases hno
  · exact .of_passes ((passes_jump h.leave).1 hpass)

/-- A loop that may be left out. -/
theorem EndsAt.many_step (h : EndsAt S n) (hS : S.Java) (hcallers : ∀ q ∈ F.callers, q.Valid)
    {back : Place} (hback : back.Valid)
    (hp : Network.java.Holds p ((Piece.many alts).wire p.offset next))
    (hfits : (Piece.many alts).Fits) (hbranches : (Piece.many alts).branches = true)
    (hs : S.Supplied (n + 1) (onWay p (S.next s) (3 + Piece.maxNeed alts) 3) s) :
    S.Gets s (p.Admits (S.next s) → (p.move next).Admits (S.next s))
      (S.parseMany (n + 1) F p back alts s) := by
  obtain ⟨-, hconsume, hneed⟩ := hfits.many
  have hloop := loopAt hp hfits hbranches
  rcases hd : S.decide F p (some 2) s with ⟨v, s'⟩
  obtain ⟨hon, huncut, htoil, hnext, htake⟩ :=
    hS.decide hloop.fork hcallers hs.uncut hs.pos_le hd
  cases v with
  | stuck pos =>
    simp only [parseMany, hd]
    exact gets_fail hon huncut hback
  | take i =>
    rcases htake i rfl with ⟨j, way, rfl, hj, hadmits⟩ | ⟨hout, hpasses⟩
    · rcases j with _ | _ | j
      · obtain rfl := Option.some.inj hj
        have hadmits' : (p.move (p.offset + 1)).Admits (S.next s') := hnext ▸ hadmits
        have hp' : p.Admits (S.next s) :=
          (admits_fork hloop.fork).2 ⟨_, List.mem_cons_self, hadmits⟩
        have hpos := hon.pos_le hs.pos_le
        -- A turn on the right way takes a token or gives up a rule.
        have hturn : S.Gets s' False (S.parseTurn n F (p.move (p.offset + 1)) (p.offset + 5) alts s') := by
          refine (h.turn F _ _ _ alts s' hcallers hloop.turn (hs.call hon huncut ?_)).mono ?_
          · rw [onWay_of_admits hp', onWay_of_admits hadmits']
            omega
          · intro hno
            rw [hconsume] at hno
            cases hno hadmits'
        have hturned : S.Gets s' False ((S.parseTurn n F (p.move (p.offset + 1)) (p.offset + 5) alts
            s').andThen (S.resync F (p.move (p.offset + 3)) true)) :=
          hturn.andThen hpos (fun _ => gets_resync_loop F _ hturn.uncut) fun _ => False.elim
        simp only [parseMany, hd]
        refine (hturned.andThen hpos (fun hlt => ?_) fun _ => False.elim).of_same hon htoil
        refine (h.many F p _ next alts _ hcallers (Place.valid_of_fork hloop.back) hp hfits hbranches
          ?_).mono fun _ => trivial
        refine hs.less (hon.trans hturned.onward) hturned.uncut (htoil ▸ hlt)
          (onWay_le (by omega) (by unfold tokenDepth; omega)) ?_
        rw [onWay_of_admits hp']
        omega
      · obtain rfl := Option.some.inj hj
        simp only [parseMany, hd]
        exact gets_ok hon huncut (fun _ => (admits_jump hloop.leave).1 hadmits) _
      · cases hj
    · obtain rfl := Option.some.inj hout
      simp only [parseMany, hd]
      exact gets_ok hon huncut (fun hp' => hloop.admits_next hconsume (hpasses hp')) _

/-- Another turn of a loop. -/
theorem EndsAt.repeated (h : EndsAt S n) (hS : S.Java) (hcallers : ∀ q ∈ F.callers, q.Valid)
    (hp : Network.java.Holds p ((Piece.many1 alts).wire p.offset next))
    (hfits : (Piece.many1 alts).Fits) (hbranches : (Piece.many1 alts).branches = true)
    (huncut : s.cutShort = false) (hpos : s.pos ≤ S.kinds.size)
    (hs : p.Admits (S.next s) → S.Supplied n (3 + Piece.maxNeed alts) s) :
    S.Gets s True (S.parseRepeat n F p alts s) := by
  have hfork : Network.java.node (p.move (p.offset + 2)) = .fork [p.offset, p.offset + 3] :=
    hp 2 _ rfl
  rcases hd : S.decide F (p.move (p.offset + 2)) (some 2) s with ⟨v, s'⟩
  obtain ⟨hon, huncut', htoil, hnext, htake⟩ := hS.decide hfork hcallers huncut hpos hd
  cases v with
  | stuck pos =>
    simp only [parseRepeat, hd]
    exact gets_fail hon huncut' (Place.valid_of_fork hfork)
  | take i =>
    rcases htake i rfl with ⟨j, way, rfl, hj, hadmits⟩ | ⟨hout, -⟩
    · rcases j with _ | _ | j
      · obtain rfl := Option.some.inj hj
        have hadmits : p.Admits (S.next s) := hadmits
        simp only [parseRepeat, hd]
        refine (h.many1 F p next alts s' hcallers hp hfits hbranches ?_).of_same hon htoil |>.mono
          fun _ => trivial
        refine (hs hadmits).call hon huncut' ?_
        rw [hnext, onWay_of_admits hadmits]
      · simp only [parseRepeat, hd]
        exact gets_ok hon huncut' trivial _
      · cases hj
    · obtain rfl := Option.some.inj hout
      simp only [parseRepeat, hd]
      exact gets_ok hon huncut' trivial _

/-- A loop with at least one turn. -/
theorem EndsAt.many1_step (h : EndsAt S n) (hS : S.Java) (hcallers : ∀ q ∈ F.callers, q.Valid)
    (hp : Network.java.Holds p ((Piece.many1 alts).wire p.offset next))
    (hfits : (Piece.many1 alts).Fits) (hbranches : (Piece.many1 alts).branches = true)
    (hs : S.Supplied (n + 1) (onWay p (S.next s) (3 + Piece.maxNeed alts)
      (3 + Piece.maxStrayNeed alts + tokenDepth)) s) :
    S.Gets s (¬ p.Admits (S.next s)) (S.parseMany1 (n + 1) F p alts s) := by
  obtain ⟨-, hconsume, hneed⟩ := hfits.many1
  have halts := alternatives_many1 hp hfits hbranches
  have hturn : S.Gets s (¬ p.Admits (S.next s)) (S.parseTurn n F p (p.offset + 4) alts s) := by
    refine (h.turn F p _ _ alts s hcallers halts (hs.down (by omega) (by omega))).mono ?_
    intro hno hadmits
    rw [hconsume] at hno
    cases hno hadmits
  have hback : S.Gets s (¬ p.Admits (S.next s)) ((S.parseTurn n F p (p.offset + 4) alts s).andThen
      (S.resync F (p.move (p.offset + 2)) true)) :=
    hturn.andThen hs.pos_le (fun _ => gets_resync_loop F _ hturn.uncut) fun _ hstray =>
      (gets_resync_loop F _ hturn.uncut).mono fun _ => hstray
  have hpos := hback.onward.pos_le hs.pos_le
  rw [parseMany1_succ]
  refine hback.andThen hs.pos_le (fun hlt => ?_) fun hnext hstray => ?_
  · refine h.repeated hS hcallers hp hfits hbranches hback.uncut hpos fun _ => ?_
    refine hs.less hback.onward hback.uncut hlt (by omega) ?_
    have hd : 1 ≤ onWay p (S.next s) (3 + Piece.maxNeed alts)
      (3 + Piece.maxStrayNeed alts + tokenDepth) := le_onWay (by omega) (by omega)
    omega
  · refine (h.repeated hS hcallers hp hfits hbranches hback.uncut hpos fun hadmits => ?_).mono
      fun _ => hstray
    exact absurd (hnext ▸ hadmits) hstray

/-- The next operator is chosen among those that the next token fits. -/
theorem Java.chooseOperator (hS : S.Java) (hcallers : ∀ q ∈ F.callers, q.Valid)
    (halts : Alternatives p base meet alts []) (huncut : s.cutShort = false)
    (hpos : s.pos ≤ S.kinds.size) (hadmits : p.Admits (S.next s)) {v : Verdict}
    (h : (if alts.length = 1 then (.take 1, s) else S.decide F p none s) = (v, s')) :
    S.Onward s s' ∧ s'.cutShort = false ∧ S.toil s' = S.toil s ∧
      S.next s' = S.next s ∧ ∀ i, v = .take i → ∃ j start, i = j + 1 ∧
        (Piece.starts base alts)[j]? = some start ∧ (p.move start).Admits (S.next s) := by
  have hfork := halts.fork
  rw [List.append_nil] at hfork
  split at h
  · rename_i hone
    obtain ⟨piece, rfl⟩ := List.length_eq_one_iff.1 hone
    obtain ⟨rfl, rfl⟩ := Prod.mk.inj h
    refine ⟨.refl s, huncut, rfl, rfl, ?_⟩
    rintro i ⟨⟩
    exact ⟨0, base, rfl, rfl, (admits_jump hfork).1 hadmits⟩
  · obtain ⟨hon, huncut', htoil, hnext, htake⟩ := hS.decide hfork hcallers huncut hpos h
    refine ⟨hon, huncut', htoil, hnext, fun i hi => ?_⟩
    rcases htake i hi with hway | ⟨hout, -⟩
    · exact hway
    · cases hout

/-- Operators that are applied to an operand. -/
theorem EndsAt.operators_step (h : EndsAt S n) (hS : S.Java) (hcallers : ∀ q ∈ F.callers, q.Valid)
    {back : Place} (hback : back.Valid) {operand : List (Tree Nat)} (hp : Network.java.Holds p ((Piece.many alts).wire p.offset next))
    (hfits : (Piece.many alts).Fits) (hbranches : (Piece.many alts).branches = true)
    (hs : S.Supplied (n + 1) (onWay p (S.next s) (1 + Piece.maxNeed alts) 1) s) :
    S.Gets s True (S.parseOperators (n + 1) F p back alts operand s) := by
  obtain ⟨-, hconsume, hneed⟩ := hfits.many
  have hloop := loopAt hp hfits hbranches
  rcases hd : S.decide F p (some 2) s with ⟨v, s'⟩
  obtain ⟨hon, huncut, htoil, hnext, htake⟩ :=
    hS.decide hloop.fork hcallers hs.uncut hs.pos_le hd
  have hpos := hon.pos_le hs.pos_le
  cases v with
  | stuck pos =>
    simp only [parseOperators, hd]
    exact (gets_fail (f := noAlternative back s' pos) hon huncut hback).congr rfl rfl
  | take i =>
    rcases htake i rfl with ⟨j, way, rfl, hj, hadmits⟩ | ⟨hout, -⟩
    · rcases j with _ | _ | j
      · obtain rfl := Option.some.inj hj
        have hadmits' : (p.move (p.offset + 1)).Admits (S.next s') := hnext ▸ hadmits
        have hp' : p.Admits (S.next s) :=
          (admits_fork hloop.fork).2 ⟨_, List.mem_cons_self, hadmits⟩
        rw [onWay_of_admits hp'] at hs
        have hresync : (if alts.length = 1 then Step.ok [] s'
            else S.resync F (p.move (p.offset + 1)) false s') = .ok [] s' := by
          split
          · rfl
          · exact hS.resync_of_admits hadmits' false
        rcases hc : (if alts.length = 1 then (Verdict.take 1, s')
          else S.decide F (p.move (p.offset + 1)) none s') with ⟨v, t⟩
        obtain ⟨hon', huncut', htoil', hnext', hchosen⟩ :=
          hS.chooseOperator hcallers hloop.turn huncut hpos hadmits' hc
        have honward := hon.trans hon'
        simp only [parseOperators, hd, hresync]
        simp only [Step.ok, hc]
        cases v with
        | stuck pos =>
          exact (gets_fail (f := noAlternative (p.move (p.offset + 1)) t pos) honward huncut'
            (Place.valid_of_fork hloop.turn.fork)).congr rfl rfl
        | take i =>
          obtain ⟨j, start, rfl, hj, hstart⟩ := hchosen i rfl
          have ht : S.Supplied n (Piece.maxNeed alts) t := hs.call honward huncut' (by omega)
          obtain ⟨q, piece, halt, hgets⟩ :=
            h.alternative hcallers hloop.turn ht hj (hnext' ▸ hstart)
          have halt : alternative? p.rule (p.offset + 5) alts (j + 1) = some (q, piece) := halt
          simp only [halt]
          -- An operator takes a token or gives up a rule.
          have hpiece : S.Gets t False (S.parsePiece n F q piece t) := by
            refine hgets.mono fun hno => ?_
            rw [hconsume] at hno
            cases hno.1
          have hpos' := honward.pos_le hs.pos_le
          have hoperator : S.Gets t False ((S.parsePiece n F q piece t).andThen
              (S.resync F (p.move (p.offset + 3)) true)) :=
            hpiece.andThen hpos' (fun _ => gets_resync_loop F _ hpiece.uncut) fun _ => False.elim
          refine (hoperator.goOn hpos' (fun f hf => ?_) (fun hf hlt => ?_) fun _ _ => False.elim).of_same
            honward (htoil'.trans htoil)
          · rw [hf]
            exact ⟨rfl, rfl⟩
          · rw [hf]
            refine h.operators F p _ next alts _ _ hcallers (Place.valid_of_fork hloop.back) hp
              hfits hbranches ?_
            refine hs.less (honward.trans hoperator.onward) hoperator.uncut ?_
              (onWay_le (by omega) (by unfold tokenDepth; omega)) (by omega)
            rw [← htoil, ← htoil']
            exact hlt
      · simp only [parseOperators, hd]
        exact gets_ok hon huncut trivial _
      · cases hj
    · obtain rfl := Option.some.inj hout
      simp only [parseOperators, hd]
      exact gets_ok hon huncut trivial _

/-- A call. -/
theorem EndsAt.call (h : EndsAt S n) (hS : S.Java) (hcallers : ∀ q ∈ F.callers, q.Valid)
    {r : Rule} {level : Nat} (hp : Network.java.node p = .call r level next)
    (hs : S.Supplied (n + 1) (depthAt p (.call r level) (S.next s)) s) :
    S.Gets s (Passed (.call r level) p next (S.next s))
      (S.parsePiece (n + 1) F p (.call r level) s) := by
  have hvalid : p.Valid := Place.valid_of_node (by rw [hp]; rintro ⟨⟩)
  have hbehind : S.behind p = p.move next := by rw [Setting.behind, hS.net, hp]
  have hstart : p.Admits (S.next s) ↔ (Place.start r).Admits (S.next s) :=
    ⟨admits_start hp, admits_of_start hp⟩
  have hcallers' : ∀ q ∈ S.behind p :: F.callers, q.Valid := by
    rw [hbehind]
    exact List.forall_mem_cons.2 ⟨(hvalid.call hp).1, hcallers⟩
  rw [depthAt, Piece.need, Piece.strayNeed] at hs
  have hdown : S.Supplied n (onWay p (S.next s) r.rank (r.strayRank + tokenDepth)) s :=
    hs.down (by omega) (by omega)
  rw [onWay, if_congr hstart rfl rfl] at hdown
  refine (h.rule (S.behind p :: F.callers) r level s hcallers' hdown).mono fun hpassed =>
    ⟨?_, by rintro _ ⟨⟩⟩
  intro hadmits
  have hr := hpassed (hstart.1 hadmits)
  exact ⟨hr, .of_passes (passes_behind_call hp hr)⟩

/-- One piece after the other. -/
theorem EndsAt.sequence (h : EndsAt S n) (hcallers : ∀ q ∈ F.callers, q.Valid) {q q' : Piece}
    (hp : Network.java.Holds p ((q.andThen q').wire p.offset next)) (hfits : (q.andThen q').Fits)
    (hbranches : (q.andThen q').branches = true)
    (hs : S.Supplied (n + 1) (depthAt p (q.andThen q') (S.next s)) s) :
    S.Gets s (Passed (q.andThen q') p next (S.next s))
      (S.parsePiece (n + 1) F p (.andThen q q') s) := by
  rw [Piece.branches, Bool.and_eq_true] at hbranches
  rw [depthAt, Piece.need, Piece.strayNeed] at hs
  have hright := hp.right
  rw [Piece.length_wire] at hright
  have hneed := hfits.right.need_le
  have hfirst := h.piece F p _ q s hcallers hp.left hfits.left hbranches.1
    (hs.down (by omega) (by omega))
  rw [parsePiece]
  refine hfirst.andThen hs.pos_le (fun hlt => ?_) fun hnext hpassed => ?_
  · refine (h.piece F _ next q' _ hcallers hright hfits.right hbranches.2 ?_).mono fun _ => trivial
    refine hs.less hfirst.onward hfirst.uncut hlt (depthAt_le hfits.right _ _) ?_
    rw [Nat.add_comm n 1]
    exact Nat.add_le_add_right (le_onWay (by omega) (by omega)) n
  · have hdepth : depthAt (p.move (p.offset + q.size)) q' (S.next s) + (n + 1) ≤
        onWay p (S.next s) (1 + max q.need (if q.consumes then 0 else q'.need))
          (1 + max q.strayNeed (if q.stops then 0 else q'.strayNeed) + tokenDepth) + n := by
      by_cases hadmits : p.Admits (S.next s)
      · obtain ⟨hconsumes, hmid⟩ := hpassed.1 hadmits
        rw [depthAt, onWay_of_admits hadmits, onWay_of_admits hmid, hconsumes]
        simp only [Bool.false_eq_true, if_false]
        omega
      · rw [onWay_of_not_admits hadmits, depthAt]
        by_cases hmid : (p.move (p.offset + q.size)).Admits (S.next s)
        · rw [onWay_of_admits hmid]
          omega
        · rw [onWay_of_not_admits hmid, if_neg fun hstops => hmid (hpassed.2 hadmits hstops)]
          omega
    have hsecond := h.piece F _ next q' (S.parsePiece n F p q s).state hcallers hright hfits.right
      hbranches.2 (hs.call hfirst.onward hfirst.uncut (by rw [hnext]; exact hdepth))
    rw [hnext] at hsecond
    refine hsecond.mono fun hpassed' => ⟨fun hadmits => ?_, fun hstray hstops => ?_⟩
    · obtain ⟨hconsumes, hmid⟩ := hpassed.1 hadmits
      obtain ⟨hconsumes', hend⟩ := hpassed'.1 hmid
      exact ⟨by rw [Piece.consumes, hconsumes, hconsumes']; rfl, hend⟩
    · by_cases hmid : (p.move (p.offset + q.size)).Admits (S.next s)
      · exact (hpassed'.1 hmid).2
      · rw [Piece.stops, Bool.or_eq_true] at hstops
        exact hpassed'.2 hmid (hstops.resolve_left fun h => hmid (hpassed.2 hstray h))

/-- A piece, by cases on the piece. -/
theorem EndsAt.piece_step (h : EndsAt S n) (hS : S.Java) (hcallers : ∀ q ∈ F.callers, q.Valid)
    (piece : Piece) (hp : Network.java.Holds p (piece.wire p.offset next)) (hfits : piece.Fits)
    (hbranches : piece.branches = true)
    (hs : S.Supplied (n + 1) (depthAt p piece (S.next s)) s) :
    S.Gets s (Passed piece p next (S.next s)) (S.parsePiece (n + 1) F p piece s) := by
  have htrail := (S.anyTrailAt (n + 1)).piece F p piece s (Piece.within_true piece)
  cases piece with
  | nothing =>
    exact gets_ok (.refl s) hs.uncut ⟨fun hadmits => ⟨rfl, (admits_jump hp.head).1 hadmits⟩,
      by rintro _ ⟨⟩⟩ _
  | token k =>
    refine hS.accept hp.head hs.uncut ⟨_, htrail⟩ (fun hk hend => ⟨fun _ => ?_, fun hstray => ?_⟩)
      fun hk hmid => ⟨fun hadmits => ?_, fun _ _ => hmid⟩
    · rw [hend] at hk ⊢
      refine ⟨?_, .of_passes (passes_behind_end hp.head hk)⟩
      rw [KindSet.mem_single] at hk
      simp [Piece.consumes, ← hk]
    · exact absurd ((admits_take hp.head).2 hk) hstray
    · exact absurd ((admits_take hp.head).1 hadmits) hk
  | oneOf ks =>
    refine hS.accept hp.head hs.uncut ⟨_, htrail⟩ (fun hk hend => ⟨fun _ => ?_, fun hstray => ?_⟩)
      fun hk hmid => ⟨fun hadmits => ?_, fun _ _ => hmid⟩
    · rw [hend] at hk ⊢
      refine ⟨?_, .of_passes (passes_behind_end hp.head hk)⟩
      rw [KindSet.mem_ofList] at hk
      rw [Piece.consumes, List.all_eq_false]
      exact ⟨_, hk, by simp⟩
    · exact absurd ((admits_take hp.head).2 hk) hstray
    · exact absurd ((admits_take hp.head).1 hadmits) hk
  | guard level =>
    simp only [parsePiece]
    split
    · exact gets_ok (.refl s) hs.uncut ⟨fun hadmits => ⟨rfl, (admits_guard hp.head).1 hadmits⟩,
        by rintro _ ⟨⟩⟩ _
    · exact gets_fail (.refl s) hs.uncut (Place.valid_of_node (by rw [hp.head]; rintro ⟨⟩))
  | call r level => exact h.call hS hcallers hp.head hs
  | named role q =>
    rw [depthAt, Piece.need, Piece.strayNeed] at hs
    exact (h.piece F p next q s hcallers hp hfits.named hbranches
      (hs.down (by omega) (by omega))).congr rfl rfl
  | andThen q q' => exact h.sequence hcallers hp hfits hbranches hs
  | choice alts =>
    rw [depthAt, Piece.need, Piece.strayNeed] at hs
    have hmeet : Network.java.node (p.move (p.offset + 1)) = .fork [next] := hp 1 _ rfl
    refine (h.block F p _ _ alts [] none s hcallers (alternatives_choice hp hfits hbranches)
      (by rintro _ ⟨⟩) (hs.down (by omega) (by omega))).mono fun hpassed => ⟨fun hadmits => ?_, fun hstray => ?_⟩
    · exact ⟨(hpassed.1 hadmits).1 rfl, (admits_jump hmeet).1 (hpassed.1 hadmits).2⟩
    · exact absurd rfl (hpassed.2 hstray)
  | optional alts =>
    rw [depthAt, Piece.need, Piece.strayNeed] at hs
    have hmeet : Network.java.node (p.move (p.offset + 1)) = .fork [next] := hp 1 _ rfl
    refine (h.block F p _ _ alts _ (some (alts.length + 1)) s hcallers
      (alternatives_optional hp hfits hbranches) ?_ (hs.down (by omega) (by omega))).mono
      fun hpassed => ⟨fun hadmits => ?_, by rintro _ ⟨⟩⟩
    · rintro alt ⟨⟩
      exact ⟨List.cons_ne_nil _ _, Nat.lt_succ_self _⟩
    · exact ⟨rfl, (admits_jump hmeet).1 (hpassed.1 hadmits).2⟩
  | many alts =>
    rw [depthAt, Piece.need, Piece.strayNeed] at hs
    obtain ⟨-, -, hneed⟩ := hfits.many
    have hfork := (loopAt hp hfits hbranches).fork
    have hresync := S.gets_resync (F := F) (Place.valid_of_fork hfork) hs.uncut
    rw [parsePiece]
    refine hresync.andThen hs.pos_le (fun hlt => ?_) fun _ heq => ?_
    · refine (h.many F p p next alts _ hcallers (Place.valid_of_fork hfork) hp hfits hbranches
        ?_).mono fun _ => trivial
      refine hs.less hresync.onward hresync.uncut hlt
        (onWay_le (by omega) (by unfold tokenDepth; omega)) ?_
      rw [Nat.add_comm n 1]
      exact Nat.add_le_add_right (le_onWay (by omega) (by omega)) n
    · rw [heq]
      refine (h.many F p p next alts s hcallers (Place.valid_of_fork hfork) hp hfits hbranches
        (hs.down (by omega) (by omega))).mono fun hpassed => ⟨fun hadmits => ?_, by rintro _ ⟨⟩⟩
      exact ⟨rfl, hpassed hadmits⟩
  | many1 alts =>
    rw [depthAt, Piece.need, Piece.strayNeed] at hs
    obtain ⟨-, -, hneed⟩ := hfits.many1
    have hstray := hfits.strayNeed_le
    rw [Piece.strayNeed] at hstray
    have hfork := (alternatives_many1 hp hfits hbranches).fork
    have hresync := S.gets_resync (F := F) (Place.valid_of_fork hfork) hs.uncut
    rw [parsePiece]
    refine hresync.andThen hs.pos_le (fun hlt => ?_) fun _ heq => ?_
    · refine (h.many1 F p next alts _ hcallers hp hfits hbranches ?_).mono fun _ => trivial
      refine hs.less hresync.onward hresync.uncut hlt (onWay_le (by omega) (by omega)) ?_
      rw [Nat.add_comm n 1]
      exact Nat.add_le_add_right (le_onWay (by omega) (by omega)) n
    · rw [heq]
      refine (h.many1 F p next alts s hcallers hp hfits hbranches
        (hs.down (by omega) (by omega))).mono fun hpassed => ⟨fun hadmits => ?_, by rintro _ ⟨⟩⟩
      exact absurd hadmits hpassed

/-- A rule that applies operators. -/
theorem EndsAt.operators_body (h : EndsAt S n) (hS : S.Java) (hcallers : ∀ q ∈ F.callers, q.Valid)
    {r : Rule} {atoms : List Piece} {suffixes : List Suffix}
    (hops : r.body = .operators atoms suffixes)
    (hs : S.Supplied (n + 1) (onWay (.start r) (S.next s) r.rank (r.strayRank + tokenDepth)) s) :
    S.Gets s ((Place.start r).Admits (S.next s) → r.consumes = false) (S.parseBody n F r s) := by
  obtain ⟨hneed, hfits, hconsumes⟩ := r.depth_bounds
  have hstray := r.strayNeed_lt_strayRank
  have hbranches := r.branches
  obtain ⟨next, hholds, -⟩ := Network.java_wired.exists_start r
  rw [hops] at hneed hfits hconsumes hbranches hholds hstray
  rw [Body.piece, Piece.need] at hneed
  rw [Body.piece, Piece.strayNeed] at hstray
  rw [Body.piece, Piece.branches, Bool.and_eq_true] at hbranches
  have hright := hholds.right
  rw [Piece.length_wire] at hright
  have hconsume : (Piece.choice atoms).consumes = true := by
    have hpiece := hconsumes (Rule.consumes_of_operators hops)
    simpa [Body.piece, Piece.consumes] using hpiece
  obtain ⟨-, -, hmany⟩ := hfits.right.many
  have hloop := (loopAt (p := ⟨r, 1 + (Piece.choice atoms).size⟩) hright hfits.right hbranches.2).fork
  have hd : 1 ≤ onWay (.start r) (S.next s) r.rank (r.strayRank + tokenDepth) :=
    le_onWay (by omega) (by omega)
  -- On the right way the atom takes a token, and astray the next token fits an operator.
  have hpiece : S.Gets s (¬ (Place.start r).Admits (S.next s) ∧
      (Place.mk r (1 + (Piece.choice atoms).size)).Admits (S.next s))
      (S.parsePiece n F (.start r) (.choice atoms) s) := by
    refine (h.piece F (.start r) _ (.choice atoms) s hcallers hholds.left hfits.left hbranches.1
      (hs.down (by omega) (by omega))).mono fun hpassed => ?_
    have hno : ¬ (Place.start r).Admits (S.next s) := by
      intro hadmits
      rw [(hpassed.1 hadmits).1] at hconsume
      cases hconsume
    exact ⟨hno, hpassed.2 hno rfl⟩
  have hatom : S.Gets s (¬ (Place.start r).Admits (S.next s) ∧
      (Place.mk r (1 + (Piece.choice atoms).size)).Admits (S.next s))
      (S.parseAtom n F r atoms s) := by
    refine hpiece.andThen hs.pos_le (fun _ => ?_) fun hnext hpassed => ?_
    · exact (S.gets_resync (Place.valid_of_fork hloop) hpiece.uncut).mono fun _ => trivial
    · rw [hS.resync_of_admits (hnext ▸ hpassed.2)]
      exact gets_ok (.refl _) hpiece.uncut hpassed _
  unfold parseBody
  rw [hS.body, hops]
  refine hatom.goOn hs.pos_le (fun f hf => ?_) (fun hf hlt => ?_) fun hf hnext hpassed => ?_
  · simp only [hf]
    exact ⟨trivial, trivial⟩
  · simp only [hf]
    refine h.operators F _ _ next _ _ _ hcallers (Place.valid_of_fork hloop) hright hfits.right
      hbranches.2 ?_
    exact hs.less hatom.onward hatom.uncut hlt (onWay_le (by omega) (by unfold tokenDepth; omega))
      (by omega)
  · simp only [hf]
    refine (h.operators F ⟨r, 1 + (Piece.choice atoms).size⟩ _ next _ _ _ hcallers
      (Place.valid_of_fork hloop) hright hfits.right hbranches.2 ?_).mono
      fun _ hadmits => absurd hadmits hpassed.1
    refine hs.call hatom.onward hatom.uncut ?_
    rw [hnext, onWay_of_admits hpassed.2, onWay_of_not_admits hpassed.1]
    omega

/-- The right-hand side of a rule. -/
theorem EndsAt.body_step (h : EndsAt S n) (hS : S.Java) (hcallers : ∀ q ∈ F.callers, q.Valid)
    {r : Rule}
    (hs : S.Supplied (n + 1) (onWay (.start r) (S.next s) r.rank (r.strayRank + tokenDepth)) s) :
    S.Gets s ((Place.start r).Admits (S.next s) → r.consumes = false) (S.parseBody n F r s) := by
  cases hbody : r.body with
  | operators atoms suffixes => exact h.operators_body hS hcallers hbody hs
  | plain piece =>
    obtain ⟨hneed, hfits, hconsumes⟩ := r.depth_bounds
    have hstray := r.strayNeed_lt_strayRank
    have hbranches := r.branches
    obtain ⟨next, hholds, -⟩ := Network.java_wired.exists_start r
    rw [hbody] at hneed hfits hconsumes hbranches hholds hstray
    rw [parseBody_plain (by rw [hS.body, hbody])]
    refine (h.piece F (.start r) next piece s hcallers hholds hfits hbranches
      (hs.down hneed (Nat.add_lt_add_right hstray _))).mono fun hpassed hadmits => ?_
    rw [Bool.eq_false_iff]
    intro hr
    have hpiece : piece.consumes = true := hconsumes hr
    rw [(hpassed.1 hadmits).1] at hpiece
    cases hpiece

/-- A rule, which is given up after an error. -/
theorem EndsAt.rule_step (h : EndsAt S n) (hS : S.Java) {callers : List Place}
    (hcallers : ∀ q ∈ callers, q.Valid) {r : Rule} {level : Nat}
    (hs : S.Supplied (n + 1) (onWay (.start r) (S.next s) r.rank (r.strayRank + tokenDepth)) s) :
    S.Gets s ((Place.start r).Admits (S.next s) → r.consumes = false)
      (.ok [(S.parseRule (n + 1) callers r level s).1]
        (S.parseRule (n + 1) callers r level s).2) := by
  have hbody := h.body_step (F := ⟨callers, level⟩) hS hcallers hs
  rw [parseRule_succ]
  cases hfault : (S.parseBody n ⟨callers, level⟩ r s).fault with
  | none => exact hbody.congr rfl hfault.symm
  | some f =>
    have hon : S.Onward (S.parseBody n ⟨callers, level⟩ r s).state
      (S.giveUp ⟨callers, level⟩ f (S.parseBody n ⟨callers, level⟩ r s).state).state :=
      ⟨_, giveUp_trail f⟩
    refine ⟨hbody.onward.trans hon, (giveUp_cutShort f _).trans hbody.uncut,
      fun f' (hf : none = some f') => (by cases hf), fun _ => ?_⟩
    by_cases hpos : (S.parseBody n ⟨callers, level⟩ r s).state.pos < S.kinds.size
    · have hlt := giveUp_toil_lt (F := ⟨callers, level⟩) (hbody.valid f hfault) hpos
      exact .inl (Nat.lt_of_lt_of_le hlt hbody.onward.toil_le)
    · -- At the end of the file the rule is entered on the right way only if it may be empty.
      refine (hbody.onward.lt_or_next_eq hs.pos_le).imp (Nat.lt_of_le_of_lt hon.toil_le) ?_
      intro hnext hadmits
      rw [← hnext, next, kindAt_of_size_le (Nat.le_of_not_lt hpos)] at hadmits
      exact consumes_of_admits_end hadmits

/-- **With enough depth no function of the parser is cut short.** -/
theorem endsAt (hS : S.Java) : ∀ n, EndsAt S n
  | 0 => .zero
  | n + 1 =>
    have h := endsAt hS n
    { piece := fun _ _ _ piece _ hc hp hfits hb hs => h.piece_step hS hc piece hp hfits hb hs
      block := fun _ _ _ _ _ _ _ _ hc halts ho hs => h.block_step hS hc halts ho hs
      turn := fun _ _ _ _ _ _ hc halts hs => h.turn_step hc halts hs
      many := fun _ _ _ _ _ _ hc hq hp hfits hb hs => h.many_step hS hc hq hp hfits hb hs
      many1 := fun _ _ _ _ _ hc hp hfits hb hs => h.many1_step hS hc hp hfits hb hs
      operators := fun _ _ _ _ _ _ _ hc hq hp hfits hb hs =>
        h.operators_step hS hc hq hp hfits hb hs
      rule := fun _ _ _ _ hc hs => h.rule_step hS hc hs }

end

/-- At the beginning of a parse the depth is enough. -/
theorem supplied_initial (S : Setting) (hd : d ≤ 2 * tokenDepth) :
    S.Supplied (depthLimit S.kinds.size) d .initial where
  uncut := rfl
  pos_le := Nat.zero_le _
  depth := by
    have htrials := S.trials_lt .initial
    have hplaces := Place.length_all_le
    have htokens : (S.kinds.size - 0) * (Place.all.length + 2) ≤ S.kinds.size * 1652 :=
      Nat.mul_le_mul_left _ (by omega)
    have htoil : S.toil .initial ≤ S.kinds.size * 1652 + 1651 := by
      have hpos : Progress.initial.pos = 0 := rfl
      unfold toil
      rw [hpos]
      split <;> omega
    unfold depthLimit
    unfold tokenDepth at *
    omega

end Setting

/-- **A parse always comes to its end.** Whatever the text, the rule and the level are, the work is
not cut short: the bound on the depth, which depends on the number of tokens only, and the bounds on
looking ahead are never reached. A greater bound on the depth gives the same parse, and a greater
bound on the number of tokens that recovery skips skips the same ones. -/
theorem parse_ends (source : List Char) (r : Rule) (level : Nat) :
    let T := TokenStream.ofSource source
    let S := Setting.java T.kinds T.index
    (T.parse r level).cutShort = false ∧
      (∀ depth, depthLimit T.kinds.size ≤ depth →
        S.run depth r level = S.run (depthLimit T.kinds.size) r level) ∧
      ∀ (ks : KindSet) (s : Progress) (m : Nat), T.kinds.size - s.pos ≤ m →
        S.skipTo ks m s = S.skipTo ks (T.kinds.size - s.pos) s := by
  intro T S
  have hS : S.Java := ⟨rfl, rfl, closed_kinds source⟩
  have hrank := r.rank_le
  have hstray := r.strayRank_le_rank
  have hends := (Setting.endsAt hS (depthLimit T.kinds.size)).rule [] r level .initial
    (by simp) (Setting.supplied_initial _ (Setting.onWay_le (by omega) (by omega)))
  refine ⟨hends.uncut, fun depth hdepth => ?_, fun ks s m hm => ?_⟩
  · obtain ⟨k, rfl⟩ := Nat.exists_eq_add_of_le hdepth
    have hrefines := (Setting.refinesAt (S := S) k (depthLimit T.kinds.size)).rule [] r level .initial
    exact (hrefines.same hends.uncut).symm
  · exact Setting.skipTo_eq ks hm (Nat.le_refl _)

end JavaOutline
