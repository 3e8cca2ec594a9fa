import Mathlib.Order.Monotone.Basic
import JavaOutline.Proofs.Network.Tables
import JavaOutline.Proofs.Parser.Conservation
import JavaOutline.Proofs.Parser.Trail

/-!
# Blanks and comments do not feed back into a parse

The parser sees visible tokens only, but it remembers the token of the last error by its index in
the whole stream, where blanks and comments count, and asks after the next error whether the stream
has moved. So a blank could change what the parser does. It does not, since two visible tokens never
have the same index (`TokenStream.index_injective`), and indices are compared with each other and
nothing else: **if the indices are renamed, the parser does the same**, up to the renaming
(`Setting.renamesAt`). Token streams with the same visible kinds are therefore parsed alike
(`TokenStream.parse_eq_of_kinds_eq`).
-/

namespace JavaOutline

/-- The state with another name for the index of the last error. -/
def Progress.rename (f : Nat → Nat) (s : Progress) : Progress :=
  { s with lastError := s.lastError.map f }

/-- The step with other names for the indices of errors. -/
def Step.rename (f : Nat → Nat) (a : Step) : Step := { a with state := a.state.rename f }

/-- The parser on a stream with other names for the indices of its tokens. -/
def Setting.rename (f : Nat → Nat) (S : Setting) : Setting := { S with index := f ∘ S.index }

namespace Progress

variable {f : Nat → Nat} {s : Progress}

@[simp] theorem rename_pos : (s.rename f).pos = s.pos := rfl

@[simp] theorem rename_recovering : (s.rename f).recovering = s.recovering := rfl

@[simp] theorem rename_failed : (s.rename f).failed = s.failed := rfl

@[simp] theorem rename_leaf : (s.rename f).leaf = s.leaf := rfl

@[simp] theorem rename_lookAt (kinds : Array Kind) (i : Nat) :
    (s.rename f).lookAt kinds i = (s.lookAt kinds i).rename f := rfl

@[simp] theorem rename_settle : (s.rename f).settle = s.settle.rename f := rfl

@[simp] theorem rename_complain (pos : Nat) (cause : Cause) :
    (s.rename f).complain pos cause = (s.complain pos cause).rename f := by
  unfold complain
  rw [rename_recovering]
  split <;> rfl

@[simp] theorem rename_advance (kinds : Array Kind) :
    (s.rename f).advance kinds = (s.advance kinds).rename f := by
  unfold advance
  rw [rename_pos]
  split <;> rfl

/-- Renaming keeps apart what is not the same. -/
theorem rename_lastError_beq (hf : f.Injective) (i : Nat) :
    ((s.rename f).lastError == some (f i)) = (s.lastError == some i) := by
  cases h : s.lastError with
  | none => simp [rename, h]
  | some j =>
    rw [Bool.eq_iff_iff]
    simp [rename, h, hf.eq_iff]

end Progress

/-- Both parts of a step may be renamed one after the other. -/
theorem Step.rename_andThen {f : Nat → Nat} {a : Step} {g g' : Progress → Step}
    (hg : ∀ t, g' (t.rename f) = (g t).rename f) :
    (a.rename f).andThen g' = (a.andThen g).rename f := by
  unfold Step.andThen
  cases hfault : a.fault with
  | some e => simp [Step.rename, hfault]
  | none => simp [Step.rename, hfault, hg]

namespace Setting

variable {S : Setting} {f : Nat → Nat} {F : Frame} {p : Place} {s : Progress}

/-! ## Recovery -/

theorem rename_takeNext (s : Progress) :
    (S.rename f).takeNext (s.rename f) = (S.takeNext s).rename f := by
  simp [takeNext, Step.ok, Step.rename, rename]

theorem rename_skipTo (ks : KindSet) (n : Nat) (s : Progress) :
    (S.rename f).skipTo ks n (s.rename f) = (S.skipTo ks n s).rename f := by
  induction n generalizing s with
  | zero => rfl
  | succ n ih =>
    have hnext : (S.rename f).next (s.rename f) = S.next s := rfl
    rw [skipTo, skipTo, hnext]
    split
    · rfl
    · rw [rename_takeNext]
      exact Step.rename_andThen ih

theorem rename_drop? (ks : KindSet) (s : Progress) :
    (S.rename f).drop? ks (s.rename f) =
      ((S.drop? ks s).1.rename f, (S.drop? ks s).2.map (Step.rename f)) := by
  have hkinds : (S.rename f).kinds = S.kinds := rfl
  simp only [drop?, hkinds, Progress.rename_pos, Progress.rename_lookAt, Progress.rename_complain,
    rename_takeNext]
  split <;> rfl

theorem rename_accept (ks : KindSet) (after : Place) (assumed : List (Tree Nat)) (s : Progress) :
    (S.rename f).accept F p ks after assumed (s.rename f) =
      (S.accept F p ks after assumed s).rename f := by
  have hnet : (S.rename f).net = S.net := rfl
  have hnext (t : Progress) : (S.rename f).next (t.rename f) = S.next t := rfl
  rw [accept, accept, hnext]
  split
  · exact rename_takeNext s.settle
  · rw [rename_drop?]
    rcases S.drop? ks s with ⟨t, _ | dropped⟩
    · simp only [Option.map_none, hnet, hnext, Progress.rename_pos, Progress.rename_complain]
      split <;> rfl
    · exact Step.rename_andThen rename_takeNext

theorem rename_resync (F : Frame) (p : Place) (inLoop : Bool) (s : Progress) :
    (S.rename f).resync F p inLoop (s.rename f) = (S.resync F p inLoop s).rename f := by
  have hnet : (S.rename f).net = S.net := rfl
  have hkinds : (S.rename f).kinds = S.kinds := rfl
  have hnext : (S.rename f).next (s.rename f) = S.next s := rfl
  simp only [resync, hnet, hkinds, hnext, Progress.rename_recovering, Progress.rename_pos,
    Progress.rename_complain, rename_skipTo, rename_drop?]
  split
  · rfl
  · split
    · rfl
    · rcases S.drop? (S.net.look p).kinds s with ⟨t, _ | dropped⟩ <;> rfl

/-- Here alone indices are compared. -/
theorem rename_giveUp (hf : f.Injective) (fault : Fault) (s : Progress) :
    (S.rename f).giveUp F fault (s.rename f) = (S.giveUp F fault s).rename f := by
  have hstuck (t : Progress) : ((t.rename f).lastError == some ((S.rename f).index t.pos)) =
      (t.lastError == some (S.index t.pos)) := Progress.rename_lastError_beq hf _
  have hstart (b : Bool) (t : Progress) :
      (if b then (S.rename f).takeNext (t.rename f) else Step.ok [] (t.rename f)) =
        (if b then S.takeNext t else Step.ok [] t).rename f := by
    cases b
    · rfl
    · exact rename_takeNext t
  unfold giveUp
  simp only [Progress.rename_complain, Progress.rename_pos, Progress.rename_failed, hstuck, hstart]
  refine Step.rename_andThen fun t => ?_
  exact rename_skipTo _ _ { t with lastError := some (S.index t.pos),
                                   failed := fault.place :: t.failed }

/-- Decisions are made by the visible tokens. -/
theorem rename_decide (F : Frame) (p : Place) (otherwise : Option Nat) (s : Progress) :
    (S.rename f).decide F p otherwise (s.rename f) =
      ((S.decide F p otherwise s).1, (S.decide F p otherwise s).2.rename f) := by
  have hnet : (S.rename f).net = S.net := rfl
  have hnext : (S.rename f).next (s.rename f) = S.next s := rfl
  simp only [decide, hnet, hnext]
  split
  · split <;> rfl
  · rfl

/-! ## The functions of the parser -/

/-- With the bound `n` on their depth, the functions of the parser do the same for renamed
indices. -/
structure RenamesAt (S : Setting) (f : Nat → Nat) (n : Nat) : Prop where
  piece : ∀ (F : Frame) (p : Place) (piece : Piece) (s : Progress),
    (S.rename f).parsePiece n F p piece (s.rename f) = (S.parsePiece n F p piece s).rename f
  block : ∀ (F : Frame) (p : Place) (base : Nat) (alts : List Piece) (otherwise : Option Nat)
    (s : Progress), (S.rename f).parseBlock n F p base alts otherwise (s.rename f) =
      (S.parseBlock n F p base alts otherwise s).rename f
  turn : ∀ (F : Frame) (p : Place) (base : Nat) (alts : List Piece) (s : Progress),
    (S.rename f).parseTurn n F p base alts (s.rename f) =
      (S.parseTurn n F p base alts s).rename f
  many : ∀ (F : Frame) (p q : Place) (alts : List Piece) (s : Progress),
    (S.rename f).parseMany n F p q alts (s.rename f) = (S.parseMany n F p q alts s).rename f
  many1 : ∀ (F : Frame) (p : Place) (alts : List Piece) (s : Progress),
    (S.rename f).parseMany1 n F p alts (s.rename f) = (S.parseMany1 n F p alts s).rename f
  operators : ∀ (F : Frame) (p q : Place) (alts : List Piece) (operand : List (Tree Nat))
    (s : Progress), (S.rename f).parseOperators n F p q alts operand (s.rename f) =
      (S.parseOperators n F p q alts operand s).rename f
  rule : ∀ (callers : List Place) (r : Rule) (level : Nat) (s : Progress),
    (S.rename f).parseRule n callers r level (s.rename f) =
      ((S.parseRule n callers r level s).1, (S.parseRule n callers r level s).2.rename f)

section
variable {n : Nat}

theorem RenamesAt.zero : RenamesAt S f 0 where
  piece _ _ _ _ := rfl
  block _ _ _ _ _ _ := rfl
  turn _ _ _ _ _ := rfl
  many _ _ _ _ _ := rfl
  many1 _ _ _ _ := rfl
  operators _ _ _ _ _ _ := rfl
  rule _ _ _ _ := rfl

/-- A piece, by cases on the piece. -/
theorem RenamesAt.piece_step (h : RenamesAt S f n) (piece : Piece) :
    (S.rename f).parsePiece (n + 1) F p piece (s.rename f) =
      (S.parsePiece (n + 1) F p piece s).rename f := by
  cases piece with
  | nothing => rfl
  | token k => exact rename_accept ..
  | oneOf ks => exact rename_accept ..
  | guard level =>
    simp only [parsePiece]
    split <;> rfl
  | call r level =>
    have hrule := h.rule (S.behind p :: F.callers) r level s
    simp only [parsePiece]
    rw [show (S.rename f).behind p = S.behind p from rfl, hrule]
    rfl
  | named role q =>
    simp only [parsePiece, h.piece]
    rfl
  | andThen q q' =>
    simp only [parsePiece, h.piece]
    exact Step.rename_andThen (h.piece F _ q')
  | choice alts => exact h.block F p _ alts none s
  | optional alts => exact h.block F p _ alts _ s
  | many alts =>
    simp only [parsePiece, rename_resync]
    exact Step.rename_andThen (h.many F p p alts)
  | many1 alts =>
    simp only [parsePiece, rename_resync]
    exact Step.rename_andThen (h.many1 F p alts)

/-- The alternative that is taken. -/
theorem RenamesAt.chosen (h : RenamesAt S f n) (base : Nat) (alts : List Piece)
    (otherwise : Option Nat) (s : Progress) :
    (S.rename f).parseChosen n F p base alts otherwise (s.rename f) =
      (S.parseChosen n F p base alts otherwise s).rename f := by
  unfold parseChosen
  rw [rename_decide]
  rcases S.decide F p otherwise s with ⟨i | pos, t⟩
  · dsimp only
    split
    · exact h.piece ..
    · rfl
  · rfl

theorem RenamesAt.block_step (h : RenamesAt S f n) {base : Nat} {alts : List Piece}
    {otherwise : Option Nat} :
    (S.rename f).parseBlock (n + 1) F p base alts otherwise (s.rename f) =
      (S.parseBlock (n + 1) F p base alts otherwise s).rename f := by
  rw [parseBlock_succ, parseBlock_succ, rename_resync]
  exact Step.rename_andThen (h.chosen base alts otherwise)

theorem RenamesAt.turn_step (h : RenamesAt S f n) {base : Nat} (alts : List Piece) :
    (S.rename f).parseTurn (n + 1) F p base alts (s.rename f) =
      (S.parseTurn (n + 1) F p base alts s).rename f := by
  simp only [parseTurn]
  split
  · exact h.piece ..
  · exact h.block ..

/-- A loop that may be left out. -/
theorem RenamesAt.many_step (h : RenamesAt S f n) {q : Place} {alts : List Piece} :
    (S.rename f).parseMany (n + 1) F p q alts (s.rename f) =
      (S.parseMany (n + 1) F p q alts s).rename f := by
  simp only [parseMany, rename_decide]
  rcases S.decide F p (some 2) s with ⟨i | pos, t⟩
  · rcases i with _ | _ | i
    · rfl
    · simp only [h.turn]
      rw [Step.rename_andThen (rename_resync F _ true)]
      exact Step.rename_andThen (h.many F p _ alts)
    · rfl
  · rfl

/-- Another turn of a loop. -/
theorem RenamesAt.repeated (h : RenamesAt S f n) (alts : List Piece) (s : Progress) :
    (S.rename f).parseRepeat n F p alts (s.rename f) = (S.parseRepeat n F p alts s).rename f := by
  simp only [parseRepeat, rename_decide]
  rcases S.decide F (p.move (p.offset + 2)) (some 2) s with ⟨i | pos, t⟩
  · match i with
    | 1 => exact h.many1 F p alts t
    | 0 | _ + 2 => rfl
  · rfl

theorem RenamesAt.many1_step (h : RenamesAt S f n) {alts : List Piece} :
    (S.rename f).parseMany1 (n + 1) F p alts (s.rename f) =
      (S.parseMany1 (n + 1) F p alts s).rename f := by
  rw [parseMany1_succ, parseMany1_succ, h.turn,
    Step.rename_andThen (rename_resync F (p.move (p.offset + 2)) true)]
  exact Step.rename_andThen (h.repeated alts)

/-- Operators that are applied to an operand. -/
theorem RenamesAt.operators_step (h : RenamesAt S f n) {q : Place} {alts : List Piece}
    {operand : List (Tree Nat)} :
    (S.rename f).parseOperators (n + 1) F p q alts operand (s.rename f) =
      (S.parseOperators (n + 1) F p q alts operand s).rename f := by
  have hcheck (t : Progress) : (if alts.length = 1 then Step.ok [] (t.rename f)
      else (S.rename f).resync F (p.move (p.offset + 1)) false (t.rename f)) =
      (if alts.length = 1 then Step.ok [] t
        else S.resync F (p.move (p.offset + 1)) false t).rename f := by
    split
    · rfl
    · exact rename_resync ..
  have hchoose (t : Progress) : (if alts.length = 1 then (Verdict.take 1, t.rename f)
      else (S.rename f).decide F (p.move (p.offset + 1)) none (t.rename f)) =
      Prod.map id (Progress.rename f) (if alts.length = 1 then (Verdict.take 1, t)
        else S.decide F (p.move (p.offset + 1)) none t) := by
    split
    · rfl
    · exact rename_decide ..
  simp only [parseOperators, rename_decide]
  rcases S.decide F p (some 2) s with ⟨i | pos, t⟩
  · rcases i with _ | _ | i
    · rfl
    · simp only [hcheck]
      generalize (if alts.length = 1 then Step.ok [] t
        else S.resync F (p.move (p.offset + 1)) false t) = a
      rw [show (a.rename f).fault = a.fault from rfl, show (a.rename f).trees = a.trees from rfl,
        show (a.rename f).state = a.state.rename f from rfl, hchoose]
      split
      · rfl
      · rcases (if alts.length = 1 then (Verdict.take 1, a.state)
          else S.decide F (p.move (p.offset + 1)) none a.state) with ⟨i | pos, u⟩
        · dsimp only [Prod.map, id]
          split
          · rfl
          · simp only [h.piece, Step.rename_andThen (rename_resync F (p.move (p.offset + 3)) true)]
            generalize (S.parsePiece n F _ _ u).andThen _ = b
            rw [show (b.rename f).fault = b.fault from rfl]
            split
            · rfl
            · exact h.operators ..
        · rfl
    · rfl
  · rfl

/-- The right-hand side of a rule. -/
theorem RenamesAt.body_step (h : RenamesAt S f n) (F : Frame) (r : Rule) (s : Progress) :
    (S.rename f).parseBody n F r (s.rename f) = (S.parseBody n F r s).rename f := by
  unfold parseBody
  rw [show (S.rename f).body = S.body from rfl]
  split
  · exact h.piece ..
  · rename_i atoms suffixes _
    have hatom : (S.rename f).parseAtom n F r atoms (s.rename f) =
        (S.parseAtom n F r atoms s).rename f := by
      unfold parseAtom
      rw [h.piece]
      exact Step.rename_andThen (rename_resync F _ false)
    rw [hatom]
    generalize S.parseAtom n F r atoms s = a
    rw [show (a.rename f).fault = a.fault from rfl]
    split
    · rfl
    · exact h.operators ..

/-- A rule, which is given up after an error. -/
theorem RenamesAt.rule_step (hf : f.Injective) (h : RenamesAt S f n) {callers : List Place}
    {r : Rule} {level : Nat} :
    (S.rename f).parseRule (n + 1) callers r level (s.rename f) =
      ((S.parseRule (n + 1) callers r level s).1,
        (S.parseRule (n + 1) callers r level s).2.rename f) := by
  rw [parseRule_succ, parseRule_succ, h.body_step]
  generalize S.parseBody n ⟨callers, level⟩ r s = a
  rw [show (a.rename f).fault = a.fault from rfl]
  split
  · rfl
  · rename_i fault _
    rw [show (a.rename f).state = a.state.rename f from rfl, rename_giveUp hf]
    rfl

/-- **The parser does the same for renamed indices**, as long as no two indices get one name. -/
theorem renamesAt (hf : f.Injective) : ∀ n, RenamesAt S f n
  | 0 => .zero
  | n + 1 =>
    have h := renamesAt hf n
    { piece := fun _ _ piece _ => h.piece_step piece
      block := fun _ _ _ _ _ _ => h.block_step
      turn := fun _ _ _ alts _ => h.turn_step alts
      many := fun _ _ _ _ _ => h.many_step
      many1 := fun _ _ _ _ => h.many1_step
      operators := fun _ _ _ _ _ _ => h.operators_step
      rule := fun _ _ _ _ => h.rule_step hf }

end

/-- A parse shows no index. -/
theorem parse_rename (hf : f.Injective) (r : Rule) (level : Nat) :
    (S.rename f).parse r level = S.parse r level := by
  have hrun : (S.rename f).run (depthLimit S.kinds.size) r level =
      ((S.run (depthLimit S.kinds.size) r level).1,
        (S.run (depthLimit S.kinds.size) r level).2.rename f) :=
    (renamesAt hf _).rule [] r level .initial
  rw [parse, show (S.rename f).kinds = S.kinds from rfl, hrun]
  rfl

end Setting

/-! ## The indices of visible tokens -/

namespace TokenStream

/-- Of two visible tokens the later one has the greater index. -/
theorem indexIn_lt (ts : List Token) {i j : Nat} (h : i < j) : indexIn ts i < indexIn ts j := by
  induction ts generalizing i j with
  | nil => exact h
  | cons t ts ih =>
    simp only [indexIn]
    split
    · exact Nat.succ_lt_succ (ih h)
    · match i, j with
      | _, 0 => exact absurd h (Nat.not_lt_zero _)
      | 0, j + 1 => exact Nat.succ_pos _
      | i + 1, j + 1 => exact Nat.succ_lt_succ (ih (Nat.lt_of_succ_lt_succ h))

/-- No two visible tokens have the same index. -/
theorem index_injective (T : TokenStream) : T.index.Injective :=
  StrictMono.injective fun _ _ h => indexIn_lt T.tokens h

/-- A token stream is parsed as if it had visible tokens only. -/
theorem parse_eq_visible (T : TokenStream) (r : Rule) (level : Nat) :
    T.parse r level = (Setting.java T.kinds id).parse r level :=
  Setting.parse_rename (S := .java T.kinds id) T.index_injective r level

end TokenStream

/-- A parse without tables, as if all tokens were visible. -/
theorem TokenStream.parse_eq_plain (T : TokenStream) (r : Rule) (level : Nat) :
    T.parse r level = (⟨.plain, Rule.body, T.kinds, id⟩ : Setting).parse r level := by
  rw [parse_eq_visible, Setting.java, Network.java_eq_plain]

/-- The tree of a source text without tables. -/
theorem analyse_tree_eq_plain (r : Rule) (level : Nat) (source : List Char) :
    (analyse r level source).tree =
      ((⟨.plain, Rule.body, (TokenStream.ofSource source).kinds, id⟩ : Setting).parse r
        level).tree.map (TokenStream.ofSource source).get := by
  rw [analyse_tree, TokenStream.parse_eq_plain]

end JavaOutline
