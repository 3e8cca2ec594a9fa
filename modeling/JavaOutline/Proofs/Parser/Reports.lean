import JavaOutline.Proofs.Parser.Conservation
import Mathlib.Data.List.Perm.Subperm

/-!
# A token between two complaints

Behind a complaint the parser keeps quiet until it has read a token. It notes that it is recovering
from an error, and it forgets this in two places only: where a token is right, and that token is
then read, and where a token has been dropped, and that token has been read already. The end of the
file can be right without being passed, but behind it nothing is read any more.

`Kept` lists all that the parser does to its state on the way, among it that it complains only where
it stands (`Complaint.origin`), and `Setting.keepsAt` shows that a property that each of these keeps is
kept by a whole parse. With `Progress.Spaced` for the property this gives `complaints_apart`.
-/

namespace JavaOutline

/-- Where the parser stands when it complains about the token at `pos`: in front of that token, or,
if no alternative goes on with it, in front of the token with which looking ahead began. -/
def Cause.origin (pos : Nat) : Cause → Nat
  | .noAlternative start => start
  | .mismatched _ | .extraneous _ | .missing _ | .forbidden _ _ => pos

/-- How many tokens had been read when the complaint was made. -/
def Complaint.origin (c : Complaint) : Nat := c.cause.origin c.pos

/-- How many tokens had been read when the error was found. -/
def Fault.origin (f : Fault) : Nat := f.cause.origin f.pos

/-- The property is kept by all that the parser does to its state in front of the end of the file.
It complains only about what it finds where it stands, and notes that a token is right only when it
reads that token or has just read the one before. -/
structure Kept (kinds : Array Kind) (I : Progress → Prop) : Prop where
  look : ∀ {s : Progress} (i : Nat), I s → I (s.lookAt kinds i)
  cut : ∀ {s : Progress} (b : Bool), I s → I { s with cutShort := b }
  fail : ∀ {s : Progress} (i : Nat) (p : Place), I s →
    I { s with lastError := some i, failed := p :: s.failed }
  complain : ∀ {s : Progress} {pos : Nat} {cause : Cause}, I s → cause.origin pos = s.pos →
    I (s.complain pos cause)
  accept : ∀ {s : Progress}, I s → s.pos < kinds.size → I (s.settle.advance kinds)
  skip : ∀ {s : Progress}, I s → s.recovering = true → I (s.advance kinds)
  drop : ∀ {s : Progress}, I s → s.recovering = true → s.pos < kinds.size →
    I (s.advance kinds).settle

/-- The state behind the step has the property, and an error that has ended the step has been found
there. -/
structure Step.Keeps (I : Progress → Prop) (a : Step) : Prop where
  state : I a.state
  fault : ∀ f, a.fault = some f → f.origin = a.state.pos

namespace Step

variable {I : Progress → Prop} {s : Progress} {a b : Step} {f : Progress → Step}

theorem keeps_ok {ts : List (Tree Nat)} (h : I s) : (ok ts s).Keeps I :=
  ⟨h, fun _ hf => by cases hf⟩

theorem keeps_fail {e : Fault} (h : I s) (he : e.origin = s.pos) : (fail e s).Keeps I :=
  ⟨h, fun _ hf => by cases hf; exact he⟩

/-- The trees do not matter. -/
theorem Keeps.congr (h : a.Keeps I) (hstate : b.state = a.state) (hfault : b.fault = a.fault) :
    b.Keeps I :=
  ⟨hstate ▸ h.state, by rw [hfault, hstate]; exact h.fault⟩

theorem Keeps.andThen (ha : a.Keeps I) (hf : I a.state → (f a.state).Keeps I) :
    (a.andThen f).Keeps I := by
  unfold Step.andThen
  split
  · exact ha
  · exact (hf ha.state).congr rfl rfl

end Step

namespace Setting

variable {S : Setting} {I : Progress → Prop} {F : Frame} {p : Place} {s : Progress} {ks : KindSet}

/-! ## Recovering from errors -/

/-- In front of any token but the end of the file there is a token to read. -/
theorem pos_lt_size (h : S.next s ≠ .endOfFile) : s.pos < S.kinds.size :=
  Nat.lt_of_not_le fun hge => h (kindAt_of_size_le hge)

/-- A token behind which another kind comes is not the end of the file. -/
theorem pos_lt_size_of_ne (hs : S.next s ∉ ks) (h : kindAt S.kinds (s.pos + 1) ∈ ks) :
    s.pos < S.kinds.size := by
  refine Nat.lt_of_not_le fun hge => hs ?_
  rw [next, kindAt_of_size_le hge]
  rwa [kindAt_of_size_le (Nat.le_succ_of_le hge)] at h

variable (hI : Kept S.kinds I)
include hI

theorem keeps_skipTo (n : Nat) (hs : I s) (hrec : s.recovering = true) :
    (S.skipTo ks n s).Keeps I := by
  induction n generalizing s with
  | zero => exact Step.keeps_ok hs
  | succ n ih =>
    unfold skipTo
    split
    · exact Step.keeps_ok hs
    · refine Step.Keeps.andThen (Step.keeps_ok (hI.skip hs hrec)) fun hnext => ih hnext ?_
      simpa [takeNext, Step.ok] using hrec

/-- Dropping a token reads it. -/
theorem keeps_drop?_some {s' : Progress} {a : Step} (hs : I s) (hnext : S.next s ∉ ks)
    (h : S.drop? ks s = (s', some a)) : a.Keeps I := by
  simp only [drop?] at h
  split at h
  case isFalse => simp at h
  case isTrue hk =>
    simp only [Prod.mk.injEq, Option.some.injEq] at h
    obtain ⟨-, rfl⟩ := h
    generalize ht : (s.lookAt S.kinds (s.pos + 1)).complain
      (s.lookAt S.kinds (s.pos + 1)).pos (.extraneous ks) = t
    have hkept : I t := ht ▸ hI.complain (hI.look _ hs) rfl
    have hrec : t.recovering = true := by simp [← ht]
    have hpos : t.pos = s.pos := by simp [← ht]
    have hlt : t.pos < S.kinds.size := hpos ▸ pos_lt_size_of_ne hnext hk
    exact Step.keeps_ok (hI.drop hkept hrec hlt)

theorem keeps_drop?_none {s' : Progress} (hs : I s) (h : S.drop? ks s = (s', none)) : I s' := by
  rw [drop?_none h]
  exact hI.look _ hs

/-- A token of a wanted kind is read, or an error is reported or found where the parser stands. -/
theorem keeps_accept {after : Place} {assumed : List (Tree Nat)} (hks : ∀ k ∈ ks, k ≠ .endOfFile)
    (hs : I s) : (S.accept F p ks after assumed s).Keeps I := by
  unfold accept
  split
  · rename_i hk
    exact Step.keeps_ok (hI.accept hs (pos_lt_size (hks _ hk)))
  · rename_i hk
    split
    · rename_i a hd
      obtain ⟨-, -, hsettle, -⟩ := drop?_some (K := fun _ => true) (R := fun _ => true) hd
      refine (keeps_drop?_some hI hs hk hd).andThen fun ha => Step.keeps_ok ?_
      rw [← hsettle]
      exact hI.accept ha (pos_lt_size (hks _ (next_of_drop?_some hk hd)))
    · rename_i s' hd
      have hs' : I s' := keeps_drop?_none hI hs hd
      split
      · exact Step.keeps_ok (hI.complain hs' rfl)
      · exact Step.keeps_fail hs' rfl

theorem keeps_resync (inLoop : Bool) (hs : I s) : (S.resync F p inLoop s).Keeps I := by
  simp only [resync]
  split
  · exact Step.keeps_ok hs
  · rename_i hwrong
    split
    · exact keeps_skipTo hI _ (hI.complain hs rfl) (Progress.complain_recovering ..)
    · split
      · rename_i hd
        refine keeps_drop?_some hI hs (fun hk => hwrong ?_) hd
        rw [Bool.or_eq_true]
        exact .inr hk
      · rename_i hd
        exact Step.keeps_fail (keeps_drop?_none hI hs hd) rfl

/-- A rule is given up with a complaint about the error that has ended it. -/
theorem keeps_giveUp {f : Fault} (hs : I s) (hf : f.origin = s.pos) : (S.giveUp F f s).Keeps I := by
  have hcomplain : I (s.complain f.pos f.cause) := hI.complain hs hf
  have hrec : (s.complain f.pos f.cause).recovering = true := Progress.complain_recovering ..
  simp only [giveUp]
  split
  · refine Step.Keeps.andThen (Step.keeps_ok (hI.skip hcomplain hrec)) fun hnext => ?_
    exact keeps_skipTo hI _ (hI.fail _ _ hnext) (by simp [takeNext, Step.ok])
  · exact Step.Keeps.andThen (Step.keeps_ok hcomplain) fun hnext =>
      keeps_skipTo hI _ (hI.fail _ _ hnext) hrec

theorem kept_decide {otherwise : Option Nat} {v : Verdict} {s' : Progress} (hs : I s)
    (h : S.decide F p otherwise s = (v, s')) : I s' := by
  unfold decide at h
  split at h
  · split at h <;> · cases h; exact hs
  · cases h
    exact hI.cut _ (hI.look _ hs)

/-- With one operator there is nothing to choose. -/
theorem kept_chooseOperator {alts : List Piece} {v : Verdict} {s' : Progress} (hs : I s)
    (h : (if alts.length = 1 then (.take 1, s) else S.decide F p none s) = (v, s')) : I s' := by
  split at h
  · cases h
    exact hs
  · exact kept_decide hI hs h

/-! ## Parsing -/

omit hI

/-- With a bound `n` on their depth, the functions of the parser keep the property as long as they
want neither the end of the file nor a whole file. -/
structure KeepsAt (S : Setting) (I : Progress → Prop) (n : Nat) : Prop where
  piece : ∀ (F : Frame) (p : Place) (piece : Piece) (s : Progress),
    piece.within Kind.isInner Rule.isInner = true → I s → (S.parsePiece n F p piece s).Keeps I
  block : ∀ (F : Frame) (p : Place) (base : Nat) (alts : List Piece) (otherwise : Option Nat)
    (s : Progress), Piece.allWithin Kind.isInner Rule.isInner alts = true → I s →
    (S.parseBlock n F p base alts otherwise s).Keeps I
  turn : ∀ (F : Frame) (p : Place) (base : Nat) (alts : List Piece) (s : Progress),
    Piece.allWithin Kind.isInner Rule.isInner alts = true → I s →
    (S.parseTurn n F p base alts s).Keeps I
  many : ∀ (F : Frame) (p back : Place) (alts : List Piece) (s : Progress),
    Piece.allWithin Kind.isInner Rule.isInner alts = true → I s →
    (S.parseMany n F p back alts s).Keeps I
  many1 : ∀ (F : Frame) (p : Place) (alts : List Piece) (s : Progress),
    Piece.allWithin Kind.isInner Rule.isInner alts = true → I s →
    (S.parseMany1 n F p alts s).Keeps I
  operators : ∀ (F : Frame) (p back : Place) (alts : List Piece) (operand : List (Tree Nat))
    (s : Progress), Piece.allWithin Kind.isInner Rule.isInner alts = true → I s →
    (S.parseOperators n F p back alts operand s).Keeps I
  rule : ∀ (callers : List Place) (r : Rule) (level : Nat) (s : Progress), r.isInner = true →
    I s → I (S.parseRule n callers r level s).2

section
variable {n : Nat} {alts : List Piece}

theorem KeepsAt.zero (hI : Kept S.kinds I) : KeepsAt S I 0 where
  piece _ _ _ _ _ h := Step.keeps_ok (hI.cut true h)
  block _ _ _ _ _ _ _ h := Step.keeps_ok (hI.cut true h)
  turn _ _ _ _ _ _ h := Step.keeps_ok (hI.cut true h)
  many _ _ _ _ _ _ h := Step.keeps_ok (hI.cut true h)
  many1 _ _ _ _ _ h := Step.keeps_ok (hI.cut true h)
  operators _ _ _ _ _ _ _ h := Step.keeps_ok (hI.cut true h)
  rule _ _ _ _ _ h := hI.cut true h

variable (hI : Kept S.kinds I) (h : KeepsAt S I n)
include hI h

theorem KeepsAt.piece_step (piece : Piece) (hw : piece.within Kind.isInner Rule.isInner = true)
    (hs : I s) : (S.parsePiece (n + 1) F p piece s).Keeps I := by
  cases piece with
  | nothing => exact Step.keeps_ok hs
  | token k =>
    refine keeps_accept hI (fun j hj => ?_) hs
    rw [(KindSet.mem_single j k).1 hj]
    simpa [Piece.within, Kind.isInner] using hw
  | oneOf ks =>
    refine keeps_accept hI (fun j hj => ?_) hs
    have hj := List.all_eq_true.1 hw j ((KindSet.mem_ofList j ks).1 hj)
    simpa [Kind.isInner] using hj
  | guard level =>
    simp only [parsePiece]
    split
    · exact Step.keeps_ok hs
    · exact Step.keeps_fail hs rfl
  | call r level => exact Step.keeps_ok (h.rule _ r level s hw hs)
  | named role q => exact (h.piece F p q s hw hs).congr rfl rfl
  | andThen q q' =>
    simp only [Piece.within, Bool.and_eq_true] at hw
    exact (h.piece F p q s hw.1 hs).andThen fun hq => h.piece F _ q' _ hw.2 hq
  | choice alts | optional alts => exact h.block F p _ alts _ s hw hs
  | many alts => exact (keeps_resync hI false hs).andThen fun hq => h.many F p p alts _ hw hq
  | many1 alts => exact (keeps_resync hI false hs).andThen fun hq => h.many1 F p alts _ hw hq

theorem KeepsAt.block_step {base : Nat} {otherwise : Option Nat}
    (hw : Piece.allWithin Kind.isInner Rule.isInner alts = true) (hs : I s) :
    (S.parseBlock (n + 1) F p base alts otherwise s).Keeps I := by
  rw [parseBlock_succ]
  refine (keeps_resync hI false hs).andThen fun hs' => ?_
  unfold parseChosen
  split
  · rename_i hd
    exact Step.keeps_fail (kept_decide hI hs' hd) rfl
  · rename_i i t hd
    have ht : I t := kept_decide hI hs' hd
    split
    · rename_i q piece hq
      exact h.piece F q piece t ((Piece.allWithin_iff alts).1 hw piece (mem_of_alternative? hq)) ht
    · exact Step.keeps_ok ht

omit hI in
theorem KeepsAt.turn_step {base : Nat}
    (hw : Piece.allWithin Kind.isInner Rule.isInner alts = true) (hs : I s) :
    (S.parseTurn (n + 1) F p base alts s).Keeps I := by
  simp only [parseTurn]
  split
  · rename_i piece
    exact h.piece F _ piece s ((Piece.allWithin_iff _).1 hw piece (by simp)) hs
  · exact h.block F p base alts none s hw hs

theorem KeepsAt.many_step {back : Place}
    (hw : Piece.allWithin Kind.isInner Rule.isInner alts = true) (hs : I s) : (S.parseMany (n + 1) F p back alts s).Keeps I := by
  simp only [parseMany]
  split
  · rename_i hd
    exact Step.keeps_fail (kept_decide hI hs hd) rfl
  · rename_i t hd
    have hturn := h.turn F (p.move (p.offset + 1)) (p.offset + 5) alts t hw (kept_decide hI hs hd)
    refine (hturn.andThen fun ht => keeps_resync hI true ht).andThen fun ht => ?_
    exact h.many F p _ alts _ hw ht
  · rename_i hd
    exact Step.keeps_ok (kept_decide hI hs hd)

theorem KeepsAt.many1_step (hw : Piece.allWithin Kind.isInner Rule.isInner alts = true)
    (hs : I s) : (S.parseMany1 (n + 1) F p alts s).Keeps I := by
  rw [parseMany1_succ]
  have hturn := h.turn F p (p.offset + 4) alts s hw hs
  refine (hturn.andThen fun ht => keeps_resync hI true ht).andThen fun ht => ?_
  unfold parseRepeat
  split
  · rename_i hd
    exact Step.keeps_fail (kept_decide hI ht hd) rfl
  · rename_i t hd
    exact h.many1 F p alts t hw (kept_decide hI ht hd)
  · rename_i hd
    exact Step.keeps_ok (kept_decide hI ht hd)

theorem KeepsAt.operators_step {back : Place} {operand : List (Tree Nat)}
    (hw : Piece.allWithin Kind.isInner Rule.isInner alts = true) (hs : I s) :
    (S.parseOperators (n + 1) F p back alts operand s).Keeps I := by
  simp only [parseOperators]
  split
  · rename_i hd
    exact (Step.keeps_fail (kept_decide hI hs hd) rfl).congr rfl rfl
  · rename_i s' hd
    generalize ha : (if alts.length = 1 then Step.ok [] s'
      else S.resync F (p.move (p.offset + 1)) false s') = a
    have hkeeps : a.Keeps I := by
      rw [← ha]
      split
      · exact Step.keeps_ok (kept_decide hI hs hd)
      · exact keeps_resync hI false (kept_decide hI hs hd)
    split
    · rename_i hfault
      exact hkeeps.congr rfl hfault.symm
    · split
      · rename_i hc
        exact (Step.keeps_fail (kept_chooseOperator hI hkeeps.state hc) rfl).congr rfl rfl
      · rename_i i t hc
        have ht : I t := kept_chooseOperator hI hkeeps.state hc
        split
        · exact Step.keeps_ok ht
        · rename_i q piece hq
          have hpiece := (Piece.allWithin_iff alts).1 hw piece (mem_of_alternative? hq)
          have hb := (h.piece F q piece t hpiece ht).andThen
            fun hback => keeps_resync (F := F) (p := p.move (p.offset + 3)) hI true hback
          split
          · rename_i hfault
            exact hb.congr rfl hfault.symm
          · exact h.operators F p _ alts _ _ hw hb.state
  · rename_i hd
    exact Step.keeps_ok (kept_decide hI hs hd)

theorem KeepsAt.body_step {r : Rule} (hw : (S.body r).within Kind.isInner Rule.isInner = true)
    (hs : I s) : (S.parseBody n F r s).Keeps I := by
  unfold parseBody
  split
  · rename_i piece hplain
    rw [hplain] at hw
    exact h.piece F _ piece s hw hs
  · rename_i atoms suffixes hops
    rw [hops, Body.within, Body.piece, Piece.within, Bool.and_eq_true] at hw
    have hatom : (S.parseAtom n F r atoms s).Keeps I :=
      (h.piece F (.start r) (.choice atoms) s hw.1 hs).andThen fun ha => keeps_resync hI false ha
    split
    · exact hatom
    · exact h.operators F _ _ _ _ _ hw.2 hatom.state

omit h in
/-- A rule that an error has ended is given up. -/
theorem kept_rule {callers : List Place} {r : Rule} {level : Nat}
    (hbody : (S.parseBody n ⟨callers, level⟩ r s).Keeps I) :
    I (S.parseRule (n + 1) callers r level s).2 := by
  rw [parseRule_succ]
  split
  · exact hbody.state
  · rename_i f hfault
    exact (keeps_giveUp hI hbody.state (hbody.fault f hfault)).state

end

/-- **What every step keeps is kept by the parser**, whatever the bound on its depth. -/
theorem keepsAt (hS : S.body = Rule.body) (hI : Kept S.kinds I) : ∀ n, KeepsAt S I n
  | 0 => .zero hI
  | n + 1 =>
    have h := keepsAt hS hI n
    { piece := fun _ _ piece _ hw hs => h.piece_step hI piece hw hs
      block := fun _ _ _ _ _ _ hw hs => h.block_step hI hw hs
      turn := fun _ _ _ _ _ hw hs => h.turn_step hw hs
      many := fun _ _ _ _ _ hw hs => h.many_step hI hw hs
      many1 := fun _ _ _ _ hw hs => h.many1_step hI hw hs
      operators := fun _ _ _ _ _ _ hw hs => h.operators_step hI hw hs
      rule := fun _ r _ _ hr hs =>
        kept_rule hI (h.body_step hI (hS ▸ Rule.within_inner r hr) hs) }

/-! ## The end of the file -/

end Setting

/-- The step keeps the property, or it ends well with the end of the file behind a state that has
it. -/
def Step.KeepsToEnd (kinds : Array Kind) (I : Progress → Prop) (a : Step) : Prop :=
  a.Keeps I ∨ a.fault = none ∧
    ∃ t, I t ∧ kinds.size ≤ t.pos ∧ a.state = t.settle.advance kinds

namespace Step

variable {kinds : Array Kind} {I : Progress → Prop} {a : Step} {f : Progress → Step}

theorem KeepsToEnd.andThen (ha : a.Keeps I)
    (hf : I a.state → (f a.state).KeepsToEnd kinds I) : (a.andThen f).KeepsToEnd kinds I := by
  unfold Step.andThen
  split
  · exact .inl ha
  · rcases hf ha.state with hkeeps | ⟨hfault, hend⟩
    · exact .inl (hkeeps.congr rfl rfl)
    · exact .inr ⟨hfault, hend⟩

end Step

namespace Setting

variable {S : Setting} {I : Progress → Prop} {F : Frame} {p : Place} {s : Progress}
  (hI : Kept S.kinds I) (hS : S.body = Rule.body)

include hI in
/-- Where the end of the file is right it is not passed, and nothing follows. -/
theorem keepsToEnd_accept {after : Place} {assumed : List (Tree Nat)} (hs : I s) :
    (S.accept F p (.single .endOfFile) after assumed s).KeepsToEnd S.kinds I := by
  have taken : ∀ t : Progress, I t → (S.takeNext t.settle).KeepsToEnd S.kinds I := by
    intro t ht
    by_cases hpos : t.pos < S.kinds.size
    · exact .inl (Step.keeps_ok (hI.accept ht hpos))
    · exact .inr ⟨rfl, t, ht, Nat.le_of_not_lt hpos, rfl⟩
  unfold accept
  split
  · exact taken s hs
  · rename_i hk
    split
    · rename_i a hd
      obtain ⟨-, -, hsettle, -⟩ := drop?_some (K := fun _ => true) (R := fun _ => true) hd
      refine .andThen (keeps_drop?_some hI hs hk hd) fun ha => ?_
      rw [← hsettle]
      exact taken a.state ha
    · rename_i s' hd
      have hs' : I s' := keeps_drop?_none hI hs hd
      split
      · exact .inl (Step.keeps_ok (hI.complain hs' rfl))
      · exact .inl (Step.keeps_fail hs' rfl)

include hI hS

/-- A module and the end of the file, at any depth. -/
theorem keepsToEnd_module (n : Nat) (hs : I s) :
    (S.parsePiece n F p (.andThen (.call .moduleDeclaration 0) (.token .endOfFile)) s).KeepsToEnd
      S.kinds I := by
  cases n with
  | zero => exact .inl (Step.keeps_ok (hI.cut true hs))
  | succ n =>
    refine .andThen ((keepsAt hS hI n).piece F p (.call .moduleDeclaration 0) s rfl hs) fun ht => ?_
    cases n with
    | zero => exact .inl (Step.keeps_ok (hI.cut true ht))
    | succ n => exact keepsToEnd_accept hI ht

/-- The right-hand side of a compilation unit, at any depth. -/
theorem keepsToEnd_compilationUnit (n : Nat) (hs : I s) :
    (S.parseBody n F .compilationUnit s).KeepsToEnd S.kinds I := by
  obtain ⟨declarations, hw, hbody⟩ := compilationUnit_body
  rw [← hS] at hbody
  rw [parseBody_plain hbody]
  match n with
  | 0 => exact .inl (Step.keeps_ok (hI.cut true hs))
  | 1 => exact .inl (Step.keeps_ok (hI.cut true hs))
  | n + 2 =>
    have hblock (p : Place) (alts : List Piece) : S.parsePiece (n + 2) F p (.choice alts) s =
        (S.resync F p false s).andThen (S.parseChosen n F p (p.offset + 2) alts none) :=
      parseBlock_succ ..
    rw [hblock]
    refine .andThen (keeps_resync hI false hs) fun hs' => ?_
    unfold parseChosen
    split
    · rename_i hd
      exact .inl (Step.keeps_fail (kept_decide hI hs' hd) rfl)
    · rename_i i t hd
      have ht : I t := kept_decide hI hs' hd
      split
      · rename_i q piece hq
        rcases List.mem_cons.1 (mem_of_alternative? hq) with rfl | hlast
        · exact .inl ((keepsAt hS hI n).piece F q _ t hw ht)
        · obtain rfl := List.mem_singleton.1 hlast
          exact keepsToEnd_module hI hS n ht
      · exact .inl (Step.keeps_ok ht)

/-- A rule keeps the property, but for the end of the file behind a whole file. -/
theorem kept_parseRule (n : Nat) (callers : List Place) (r : Rule) (level : Nat) (hs : I s) :
    I (S.parseRule n callers r level s).2 ∨
      ∃ t, I t ∧ S.kinds.size ≤ t.pos ∧
        (S.parseRule n callers r level s).2 = t.settle.advance S.kinds := by
  by_cases hr : r = .compilationUnit
  · subst hr
    cases n with
    | zero => exact .inl (hI.cut true hs)
    | succ n =>
      have hbody := keepsToEnd_compilationUnit (F := ⟨callers, level⟩) hI hS n hs
      rcases hbody with hkeeps | ⟨hfault, hend⟩
      · exact .inl (kept_rule hI hkeeps)
      · rw [parseRule_succ, hfault]
        exact .inr hend
  · exact .inl ((keepsAt hS hI n).rule callers r level s (by simpa [Rule.isInner] using hr) hs)

end Setting

/-! ## Complaints -/

/-- Each complaint was made with more tokens read than the one before it. Unless the parser is still
recovering, it has read a token since the last one. -/
structure Progress.Spaced (s : Progress) : Prop where
  sorted : s.complaints.Pairwise fun c c' => c'.origin < c.origin
  reached : ∀ c ∈ s.complaints, c.origin ≤ s.pos
  passed : s.recovering = false → ∀ c ∈ s.complaints, c.origin < s.pos

namespace Progress

theorem spaced_initial : initial.Spaced := ⟨.nil, nofun, nofun⟩

/-- Complaints are kept apart: while the parser recovers it makes none, and it stops recovering only
when it moves. -/
theorem kept_spaced (kinds : Array Kind) : Kept kinds Spaced where
  look _ h := ⟨h.sorted, h.reached, h.passed⟩
  cut _ h := ⟨h.sorted, h.reached, h.passed⟩
  fail _ _ h := ⟨h.sorted, h.reached, h.passed⟩
  complain {s pos cause} h horigin := by
    unfold complain
    split
    · exact h
    · rename_i hrec
      have hpassed := h.passed (Bool.eq_false_iff.2 hrec)
      refine ⟨List.pairwise_cons.2 ⟨fun c hc => ?_, h.sorted⟩,
        List.forall_mem_cons.2 ⟨Nat.le_of_eq horigin, h.reached⟩, nofun⟩
      exact Nat.lt_of_lt_of_eq (hpassed c hc) horigin.symm
  accept {s} h hpos := by
    have hmoved : (s.settle.advance kinds).pos = s.pos + 1 := by
      rw [advance_pos]
      exact if_pos hpos
    have hsame : (s.settle.advance kinds).complaints = s.complaints := advance_complaints ..
    refine ⟨hsame ▸ h.sorted, ?_, fun _ => ?_⟩
    · rw [hsame, hmoved]
      exact fun c hc => Nat.le_succ_of_le (h.reached c hc)
    · rw [hsame, hmoved]
      exact fun c hc => Nat.lt_succ_of_le (h.reached c hc)
  skip {s} h hrec := by
    have hmoved : s.pos ≤ (s.advance kinds).pos := by
      rw [advance_pos]
      split <;> omega
    refine ⟨by simpa using h.sorted, ?_, fun hsettled => ?_⟩
    · rw [advance_complaints]
      exact fun c hc => Nat.le_trans (h.reached c hc) hmoved
    · rw [advance_recovering, hrec] at hsettled
      cases hsettled
  drop {s} h _ hpos := by
    have hmoved : (s.advance kinds).settle.pos = s.pos + 1 := by
      refine (advance_pos kinds s).trans ?_
      exact if_pos hpos
    have hsame : (s.advance kinds).settle.complaints = s.complaints := advance_complaints ..
    refine ⟨hsame ▸ h.sorted, ?_, fun _ => ?_⟩
    · rw [hsame, hmoved]
      exact fun c hc => Nat.le_succ_of_le (h.reached c hc)
    · rw [hsame, hmoved]
      exact fun c hc => Nat.lt_succ_of_le (h.reached c hc)

end Progress

section
variable (r : Rule) (level : Nat)

/-- The complaints of a parse are made with more and more tokens read, and none of them with more
than are read in the end. -/
theorem TokenStream.parse_spaced (T : TokenStream) :
    ((T.parse r level).complaints.Pairwise fun c c' => c.origin < c'.origin) ∧
      ∀ c ∈ (T.parse r level).complaints, c.origin ≤ (T.parse r level).next := by
  obtain ⟨t, ht, hcomplaints, hnext⟩ : ∃ t : Progress, t.Spaced ∧
      (T.parse r level).complaints = t.complaints.reverse ∧ (T.parse r level).next = t.pos := by
    rcases Setting.kept_parseRule (S := .java T.kinds T.index) (Progress.kept_spaced T.kinds) rfl
      (depthLimit T.kinds.size) [] r level Progress.spaced_initial with hspaced | ⟨t, ht, hend, heq⟩
    · exact ⟨_, hspaced, rfl, rfl⟩
    · -- The end of the file is not passed.
      have hpos : (t.settle.advance T.kinds).pos = t.pos :=
        (Progress.advance_pos ..).trans (if_neg (Nat.not_lt.2 hend))
      have hrun : ((Setting.java T.kinds T.index).run (depthLimit T.kinds.size) r level).2 =
        t.settle.advance T.kinds := heq
      refine ⟨t, ht, ?_, ?_⟩
      · have hcomplaints : (T.parse r level).complaints =
          (t.settle.advance T.kinds).complaints.reverse :=
          congrArg (fun s : Progress => s.complaints.reverse) hrun
        rw [hcomplaints, Progress.advance_complaints]
        rfl
      · exact (congrArg Progress.pos hrun).trans hpos
  rw [hcomplaints, hnext]
  exact ⟨List.pairwise_reverse.2 ht.sorted, fun c hc => ht.reached c (List.mem_reverse.1 hc)⟩

/-- A list of different numbers up to `n` has no more than `n + 1` elements. -/
theorem length_le_of_pairwise_lt {l : List Nat} {n : Nat} (h : l.Pairwise (· < ·))
    (hn : ∀ i ∈ l, i ≤ n) : l.length ≤ n + 1 := by
  have hsub : l ⊆ List.range (n + 1) := fun i hi => List.mem_range.2 (Nat.lt_succ_of_le (hn i hi))
  have hnodup : l.Nodup := h.imp fun hlt => Nat.ne_of_lt hlt
  simpa using (List.subperm_of_subset hnodup hsub).length_le

variable (source : List Char)

/-- The leaves of a tree, those for the end of the file apart, are as many as the tokens that have
been read. -/
theorem analyse_tokens_length :
    ((analyse r level source).tree.leaves.filter (·.kind ≠ .endOfFile)).length =
      ((TokenStream.ofSource source).parse r level).next := by
  obtain ⟨m, hleaves, -⟩ := analyse_leaves r level source
  have hread : ∀ n, ((TokenStream.ofSource source).visible.toList.take n).filter
      (·.kind ≠ .endOfFile) = (TokenStream.ofSource source).visible.toList.take n := by
    refine fun n => List.filter_eq_self.2 fun t ht => ?_
    simpa using TokenStream.kind_ne_endOfFile source (by simpa using List.mem_of_mem_take ht)
  have hend : (List.replicate m (TokenStream.ofSource source).final).filter
      (·.kind ≠ .endOfFile) = [] := by simp
  rw [hleaves, List.filter_append, hread, hend, List.append_nil, List.length_take,
    Array.length_toList]
  exact Nat.min_eq_left (analyse_next_le r level source)

end

/-- **There is a token between two complaints**: whatever errors there are, of two complaints that
follow one another the second is made only when a token has been read that had not been read when the
first was made, and that token is in the tree. So there is at most one complaint more than there are
tokens in the tree. -/
theorem complaints_apart (r : Rule) (level : Nat) (source : List Char) :
    let T := TokenStream.ofSource source
    let P := T.parse r level
    P.complaints.IsChain (fun c c' =>
      ∃ i ∈ P.tree.leaves, i < T.visible.size ∧ c.origin ≤ i ∧ i < c'.origin) ∧
    P.complaints.length ≤
      ((analyse r level source).tree.leaves.filter (·.kind ≠ .endOfFile)).length + 1 := by
  intro T P
  obtain ⟨hsorted, hreached⟩ : P.complaints.Pairwise (fun c c' => c.origin < c'.origin) ∧
    ∀ c ∈ P.complaints, c.origin ≤ P.next := T.parse_spaced r level
  constructor
  · refine (hsorted.imp_of_mem fun {c c'} _ hc' hlt => ?_).isChain
    have hnext : c.origin < P.next := Nat.lt_of_lt_of_le hlt (hreached c' hc')
    obtain ⟨m, hleaves, -⟩ := T.parse_leaves r level
    have hread : c.origin ∈ P.tree.leaves := by
      rw [hleaves]
      exact List.mem_append_left _ (List.mem_range.2 hnext)
    have hsize := Nat.lt_of_lt_of_le hnext (analyse_next_le r level source)
    exact ⟨c.origin, hread, hsize, Nat.le_refl _, hlt⟩
  · rw [analyse_tokens_length, ← List.length_map Complaint.origin]
    exact length_le_of_pairwise_lt (List.pairwise_map.2 hsorted) (by simpa using hreached)

end JavaOutline
