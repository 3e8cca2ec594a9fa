import JavaOutline.Proofs.Parser.Trail

/-!
# A parse that was not cut short does not depend on the bound

The functions of the parser take a bound on the depth of their calls and note in the state if it was
too small. The note is never taken back, and without it a greater bound gives the same result:
`Refines` says both about one result and the result with the greater bound, and
`Setting.refinesAt` shows it for all functions at once. The bound with which tokens are skipped
does not matter either (`Setting.skipTo_eq`).
-/

namespace JavaOutline

/-! ## What recovery leaves alone -/

namespace Progress

@[simp] theorem advance_cutShort (kinds : Array Kind) (s : Progress) :
    (s.advance kinds).cutShort = s.cutShort := by
  unfold advance
  split <;> rfl

@[simp] theorem complain_cutShort (pos : Nat) (cause : Cause) (s : Progress) :
    (s.complain pos cause).cutShort = s.cutShort := by
  unfold complain
  split <;> rfl

end Progress

namespace Setting

variable {S : Setting} {F : Frame} {p : Place} {s s' : Progress}

@[simp] theorem takeNext_cutShort (s : Progress) :
    (S.takeNext s).state.cutShort = s.cutShort :=
  Progress.advance_cutShort ..

@[simp] theorem skipTo_cutShort (ks : KindSet) (n : Nat) (s : Progress) :
    (S.skipTo ks n s).state.cutShort = s.cutShort := by
  induction n generalizing s with
  | zero => rfl
  | succ n ih =>
    unfold skipTo
    split
    · rfl
    · exact (ih _).trans (takeNext_cutShort s)

theorem drop?_cutShort {ks : KindSet} {a : Step} (h : S.drop? ks s = (s', some a)) :
    a.state.cutShort = s.cutShort := by
  simp only [drop?] at h
  split at h
  · simp only [Prod.mk.injEq, Option.some.injEq] at h
    obtain ⟨-, rfl⟩ := h
    simp [Progress.settle, Progress.lookAt]
  · simp at h

@[simp] theorem accept_cutShort (ks : KindSet) (after : Place) (assumed : List (Tree Nat))
    (s : Progress) : (S.accept F p ks after assumed s).state.cutShort = s.cutShort := by
  unfold accept
  split
  · exact takeNext_cutShort _
  · split
    · rename_i a hd
      rw [Step.andThen, (drop?_some (K := fun _ => true) (R := fun _ => true) hd).2.1]
      exact (takeNext_cutShort _).trans (drop?_cutShort hd)
    · rename_i hd
      obtain rfl := drop?_none hd
      split
      · exact Progress.complain_cutShort ..
      · rfl

@[simp] theorem resync_cutShort (inLoop : Bool) (s : Progress) :
    (S.resync F p inLoop s).state.cutShort = s.cutShort := by
  simp only [resync]
  split
  · rfl
  · split
    · rw [skipTo_cutShort, Progress.complain_cutShort]
    · split
      · rename_i hd
        exact drop?_cutShort hd
      · rename_i hd
        obtain rfl := drop?_none hd
        rfl

@[simp] theorem giveUp_cutShort (f : Fault) (s : Progress) :
    (S.giveUp F f s).state.cutShort = s.cutShort := by
  simp only [giveUp]
  split <;> simp [Step.andThen, Step.ok, takeNext]

/-- A decision does not take the note back. -/
theorem decide_kept {otherwise : Option Nat} {v : Verdict}
    (h : S.decide F p otherwise s = (v, s')) (hs : s.cutShort = true) : s'.cutShort = true := by
  unfold decide at h
  split at h
  · split at h <;> · cases h; exact hs
  · cases h
    simp [hs]

/-- At the end of the file there is nothing to skip. -/
theorem skipTo_of_size_le (ks : KindSet) (h : S.kinds.size ≤ s.pos) (n : Nat) :
    S.skipTo ks n s = .ok [] s := by
  cases n with
  | zero => rfl
  | succ n => rw [skipTo, if_pos (.inl (kindAt_of_size_le h))]

/-- Any bound on the number of tokens that are left is enough for skipping some of them. -/
theorem skipTo_eq (ks : KindSet) {m n : Nat} (hm : S.kinds.size - s.pos ≤ m)
    (hn : S.kinds.size - s.pos ≤ n) : S.skipTo ks m s = S.skipTo ks n s := by
  induction m generalizing n s with
  | zero => rw [skipTo_of_size_le ks (by omega), skipTo_of_size_le ks (by omega)]
  | succ m ih =>
    match n with
    | 0 => rw [skipTo_of_size_le ks (by omega), skipTo_of_size_le ks (by omega)]
    | n + 1 =>
      rw [skipTo, skipTo]
      split
      · rfl
      · rename_i hgo
        have hlt : s.pos < S.kinds.size :=
          Nat.lt_of_not_le fun hle => hgo (.inl (kindAt_of_size_le hle))
        have hpos : (S.takeNext s).state.pos = s.pos + 1 := by
          rw [takeNext, Step.ok, Progress.advance_pos, if_pos hlt]
        have hrest := ih (n := n) (s := (S.takeNext s).state) (by omega) (by omega)
        simp only [Step.andThen, hrest]

end Setting

/-! ## Results with a greater bound -/

/-- The result `a` of going on from `s`, compared with the result `b` for a greater bound: it keeps
the note that the work was cut short, and without the note it is the same. -/
structure Refines {α : Type} (state : α → Progress) (s : Progress) (a b : α) : Prop where
  kept : s.cutShort = true → (state a).cutShort = true
  same : (state a).cutShort = false → a = b

namespace Refines

variable {α β : Type} {state : α → Progress} {state' : β → Progress} {s s' : Progress} {a b : α}

theorem refl (h : s.cutShort = true → (state a).cutShort = true) : Refines state s a a :=
  ⟨h, fun _ => rfl⟩

/-- The note may have been made on the way to where the results begin. -/
theorem of_kept (hs : s.cutShort = true → s'.cutShort = true) (h : Refines state s' a b) :
    Refines state s a b :=
  ⟨fun hcut => h.kept (hs hcut), h.same⟩

/-- What is done with the results refines if it does so from every state. -/
theorem bind (h : Refines state s a b) {f g : α → β}
    (hf : ∀ x, Refines state' (state x) (f x) (g x)) : Refines state' s (f a) (g b) := by
  refine ⟨fun hcut => (hf a).kept (h.kept hcut), fun hfull => ?_⟩
  have ha : (state a).cutShort = false := by
    rw [Bool.eq_false_iff]
    intro hcut
    rw [(hf a).kept hcut] at hfull
    cases hfull
  obtain rfl := h.same ha
  exact (hf a).same hfull

/-- One step after the other. -/
theorem andThen {a b : Step} {f g : Progress → Step} (h : Refines Step.state s a b)
    (hf : ∀ t, Refines Step.state t (f t) (g t)) :
    Refines Step.state s (a.andThen f) (b.andThen g) := by
  refine h.bind (f := fun x => x.andThen f) (g := fun x => x.andThen g) fun x => ?_
  unfold Step.andThen
  split
  · exact .refl id
  · refine ⟨(hf x.state).kept, fun hfull => ?_⟩
    rw [(hf x.state).same hfull]

end Refines

namespace Setting

/-- With the bound `n` on their depth, the results of the functions of the parser refine to those
with the bound `m`. -/
structure RefinesAt (S : Setting) (n m : Nat) : Prop where
  piece : ∀ (F : Frame) (p : Place) (piece : Piece) (s : Progress),
    Refines Step.state s (S.parsePiece n F p piece s) (S.parsePiece m F p piece s)
  block : ∀ (F : Frame) (p : Place) (base : Nat) (alts : List Piece) (otherwise : Option Nat)
    (s : Progress), Refines Step.state s (S.parseBlock n F p base alts otherwise s)
      (S.parseBlock m F p base alts otherwise s)
  turn : ∀ (F : Frame) (p : Place) (base : Nat) (alts : List Piece) (s : Progress),
    Refines Step.state s (S.parseTurn n F p base alts s) (S.parseTurn m F p base alts s)
  many : ∀ (F : Frame) (p q : Place) (alts : List Piece) (s : Progress),
    Refines Step.state s (S.parseMany n F p q alts s) (S.parseMany m F p q alts s)
  many1 : ∀ (F : Frame) (p : Place) (alts : List Piece) (s : Progress),
    Refines Step.state s (S.parseMany1 n F p alts s) (S.parseMany1 m F p alts s)
  operators : ∀ (F : Frame) (p q : Place) (alts : List Piece) (operand : List (Tree Nat))
    (s : Progress), Refines Step.state s (S.parseOperators n F p q alts operand s)
      (S.parseOperators m F p q alts operand s)
  rule : ∀ (callers : List Place) (r : Rule) (level : Nat) (s : Progress),
    Refines Prod.snd s (S.parseRule n callers r level s) (S.parseRule m callers r level s)

section
variable {S : Setting} {n m : Nat} {F : Frame} {p : Place} {s : Progress}

/-- Without any depth the note is made at once. -/
theorem RefinesAt.zero : RefinesAt S 0 m where
  piece _ _ _ _ := ⟨fun _ => rfl, nofun⟩
  block _ _ _ _ _ _ := ⟨fun _ => rfl, nofun⟩
  turn _ _ _ _ _ := ⟨fun _ => rfl, nofun⟩
  many _ _ _ _ _ := ⟨fun _ => rfl, nofun⟩
  many1 _ _ _ _ := ⟨fun _ => rfl, nofun⟩
  operators _ _ _ _ _ _ := ⟨fun _ => rfl, nofun⟩
  rule _ _ _ _ := ⟨fun _ => rfl, nofun⟩

theorem refines_resync (F : Frame) (p : Place) (inLoop : Bool) (s : Progress) :
    Refines Step.state s (S.resync F p inLoop s) (S.resync F p inLoop s) :=
  .refl fun hs => by rw [resync_cutShort, hs]

theorem refines_accept (F : Frame) (p : Place) (ks : KindSet) (after : Place)
    (assumed : List (Tree Nat)) (s : Progress) :
    Refines Step.state s (S.accept F p ks after assumed s) (S.accept F p ks after assumed s) :=
  .refl fun hs => by rw [accept_cutShort, hs]

/-- A piece, by cases on the piece. -/
theorem RefinesAt.piece_step (h : RefinesAt S n m) (piece : Piece) :
    Refines Step.state s (S.parsePiece (n + 1) F p piece s) (S.parsePiece (m + 1) F p piece s) := by
  cases piece with
  | nothing => exact .refl id
  | token k => exact refines_accept ..
  | oneOf ks => exact refines_accept ..
  | guard level =>
    simp only [parsePiece]
    split <;> exact .refl id
  | call r level =>
    exact (h.rule (S.behind p :: F.callers) r level s).bind (f := fun x => Step.ok [x.1] x.2)
      (g := fun x => Step.ok [x.1] x.2) fun _ => .refl id
  | named role q =>
    let name (a : Step) : Step :=
      { a with trees := if a.fault.isNone then Tree.lastWithRole role a.trees else a.trees }
    exact (h.piece F p q s).bind (f := name) (g := name) fun _ => .refl id
  | andThen q q' => exact (h.piece F p q s).andThen (h.piece F _ q')
  | choice alts | optional alts => exact h.block F p _ alts _ s
  | many alts => exact (refines_resync F p false s).andThen (h.many F p p alts)
  | many1 alts => exact (refines_resync F p false s).andThen (h.many1 F p alts)

/-- The alternative that is taken. -/
theorem RefinesAt.chosen (h : RefinesAt S n m) (base : Nat) (alts : List Piece)
    (otherwise : Option Nat) (s : Progress) :
    Refines Step.state s (S.parseChosen n F p base alts otherwise s)
      (S.parseChosen m F p base alts otherwise s) := by
  rcases hd : S.decide F p otherwise s with ⟨_ | _, s'⟩
  all_goals
    refine .of_kept (decide_kept hd) ?_
    simp only [parseChosen, hd]
  · split
    · exact h.piece ..
    · exact .refl id
  · exact .refl id

theorem RefinesAt.turn_step (h : RefinesAt S n m) {base : Nat} (alts : List Piece) :
    Refines Step.state s (S.parseTurn (n + 1) F p base alts s)
      (S.parseTurn (m + 1) F p base alts s) := by
  simp only [parseTurn]
  split
  · exact h.piece ..
  · exact h.block ..

theorem RefinesAt.block_step (h : RefinesAt S n m) {base : Nat} {alts : List Piece}
    {otherwise : Option Nat} :
    Refines Step.state s (S.parseBlock (n + 1) F p base alts otherwise s)
      (S.parseBlock (m + 1) F p base alts otherwise s) := by
  rw [parseBlock_succ, parseBlock_succ]
  exact (refines_resync F p false s).andThen (h.chosen base alts otherwise)

/-- A loop that may be left out. -/
theorem RefinesAt.many_step (h : RefinesAt S n m) {q : Place} {alts : List Piece} :
    Refines Step.state s (S.parseMany (n + 1) F p q alts s) (S.parseMany (m + 1) F p q alts s) := by
  rcases hd : S.decide F p (some 2) s with ⟨i | pos, s'⟩
  all_goals
    refine .of_kept (decide_kept hd) ?_
    simp only [parseMany, hd]
  · rcases i with _ | _ | i
    · exact .refl id
    · exact ((h.turn F _ _ alts s').andThen (refines_resync F _ true)).andThen (h.many F p _ alts)
    · exact .refl id
  · exact .refl id

/-- Another turn of a loop. -/
theorem RefinesAt.repeated (h : RefinesAt S n m) (alts : List Piece) (s : Progress) :
    Refines Step.state s (S.parseRepeat n F p alts s) (S.parseRepeat m F p alts s) := by
  rcases hd : S.decide F (p.move (p.offset + 2)) (some 2) s with ⟨i | pos, s'⟩
  all_goals
    refine .of_kept (decide_kept hd) ?_
    simp only [parseRepeat, hd]
  · match i with
    | 1 => exact h.many1 F p alts s'
    | 0 | _ + 2 => exact .refl id
  · exact .refl id

theorem RefinesAt.many1_step (h : RefinesAt S n m) {alts : List Piece} :
    Refines Step.state s (S.parseMany1 (n + 1) F p alts s) (S.parseMany1 (m + 1) F p alts s) := by
  rw [parseMany1_succ, parseMany1_succ]
  exact ((h.turn F p _ alts s).andThen (refines_resync F _ true)).andThen (h.repeated alts)

/-- Choosing an operator does not take the note back. -/
theorem chooseOperator_kept {alts : List Piece} {v : Verdict} {s' : Progress}
    (h : (if alts.length = 1 then (.take 1, s) else S.decide F p none s) = (v, s'))
    (hs : s.cutShort = true) : s'.cutShort = true := by
  split at h
  · cases h
    exact hs
  · exact decide_kept h hs

/-- What comes behind an operator that has been read: the next one, unless there was an error. -/
def behindOperator (S : Setting) (F : Frame) (p : Place) (alts : List Piece)
    (operand : List (Tree Nat)) (n : Nat) (b : Step) : Step :=
  match b.fault with
  | some f => ⟨.node none p.rule operand :: b.trees, b.state, some f⟩
  | none => S.parseOperators n F p (p.move (p.offset + 3)) alts
      (.node none p.rule operand :: b.trees) b.state

/-- Operators that are applied to an operand. -/
theorem RefinesAt.operators_step (h : RefinesAt S n m) {q : Place} {alts : List Piece}
    {operand : List (Tree Nat)} :
    Refines Step.state s (S.parseOperators (n + 1) F p q alts operand s)
      (S.parseOperators (m + 1) F p q alts operand s) := by
  rcases hd : S.decide F p (some 2) s with ⟨i | pos, s'⟩
  all_goals refine .of_kept (decide_kept hd) ?_
  · rcases i with _ | _ | i
    · simp only [parseOperators, hd]
      exact .refl id
    · have hresync : s'.cutShort = true → (if alts.length = 1 then Step.ok [] s'
          else S.resync F (p.move (p.offset + 1)) false s').state.cutShort = true := by
        intro hs
        split
        · exact hs
        · rw [resync_cutShort, hs]
      simp only [parseOperators, hd]
      generalize (if alts.length = 1 then Step.ok [] s'
        else S.resync F (p.move (p.offset + 1)) false s') = a at hresync ⊢
      refine .of_kept hresync ?_
      split
      · exact .refl id
      · rcases hc : (if alts.length = 1 then (Verdict.take 1, a.state)
          else S.decide F (p.move (p.offset + 1)) none a.state) with ⟨i | pos, t⟩
        all_goals
          refine .of_kept (chooseOperator_kept hc) ?_
          dsimp only
        · split
          · exact .refl id
          · rename_i q piece _
            have hpiece := (h.piece F q piece t).andThen
              (refines_resync (S := S) F (p.move (p.offset + 3)) true)
            let next := S.behindOperator F p alts (operand ++ a.trees)
            refine hpiece.bind (f := next n) (g := next m) fun b => ?_
            simp only [next, behindOperator]
            split
            · exact .refl id
            · exact h.operators ..
        · exact .refl id
    · simp only [parseOperators, hd]
      exact .refl id
  · simp only [parseOperators, hd]
    exact .refl id

/-- What comes behind the first operand of a rule: its operators, unless there was an error. -/
def behindAtom (S : Setting) (F : Frame) (p : Place) (alts : List Piece) (n : Nat) (a : Step) :
    Step :=
  match a.fault with
  | some _ => a
  | none => S.parseOperators n F p p alts a.trees a.state

/-- The right-hand side of a rule. -/
theorem RefinesAt.body_step (h : RefinesAt S n m) (F : Frame) (r : Rule) (s : Progress) :
    Refines Step.state s (S.parseBody n F r s) (S.parseBody m F r s) := by
  unfold parseBody
  split
  · exact h.piece ..
  · rename_i atoms suffixes _
    have hatom : Refines Step.state s (S.parseAtom n F r atoms s) (S.parseAtom m F r atoms s) :=
      (h.piece F _ _ s).andThen (refines_resync F _ false)
    let next := S.behindAtom F ⟨r, 1 + (Piece.choice atoms).size⟩ (suffixes.map Suffix.piece)
    refine hatom.bind (f := next n) (g := next m) fun a => ?_
    simp only [next, behindAtom]
    split
    · exact .refl id
    · exact h.operators ..

/-- The node of a rule that has been read, or given up after an error. -/
def close (S : Setting) (F : Frame) (r : Rule) (a : Step) : Tree Nat × Progress :=
  match a.fault with
  | none => (.node none r a.trees, a.state)
  | some f =>
    let b := S.giveUp F f a.state
    (.node none r (a.trees ++ b.trees), b.state)

/-- A rule, which is given up after an error. -/
theorem RefinesAt.rule_step (h : RefinesAt S n m) {callers : List Place} {r : Rule} {level : Nat} :
    Refines Prod.snd s (S.parseRule (n + 1) callers r level s)
      (S.parseRule (m + 1) callers r level s) := by
  rw [parseRule_succ, parseRule_succ]
  refine (h.body_step ⟨callers, level⟩ r s).bind (f := S.close ⟨callers, level⟩ r)
    (g := S.close ⟨callers, level⟩ r) fun a => .refl ?_
  intro hs
  simp only [close]
  split
  · exact hs
  · rw [giveUp_cutShort, hs]

/-- **A result that was not cut short does not depend on the bound**, for all functions of the
parser. -/
theorem refinesAt (k : Nat) : ∀ n, RefinesAt S n (n + k)
  | 0 => .zero
  | n + 1 => by
    have h := refinesAt k n
    rw [Nat.add_right_comm]
    exact
      { piece := fun _ _ piece _ => h.piece_step piece
        block := fun _ _ _ _ _ _ => h.block_step
        turn := fun _ _ _ alts _ => h.turn_step alts
        many := fun _ _ _ _ _ => h.many_step
        many1 := fun _ _ _ _ => h.many1_step
        operators := fun _ _ _ _ _ _ => h.operators_step
        rule := fun _ _ _ _ => h.rule_step }

end

end Setting

end JavaOutline
