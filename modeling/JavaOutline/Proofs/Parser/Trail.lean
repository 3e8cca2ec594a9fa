import JavaOutline.Parser.Run

/-!
# What a parse can do

Whatever alternatives it chooses and whatever errors it meets, the parser changes its state and
gives trees in a few ways only. `Trail S K R` has one constructor for each of them: looking
ahead, complaining, taking a token that the grammar wants, skipping one, assuming one that is
missing, and putting trees below a node. `K` says which kinds of tokens the grammar may want on the
way, and `R` which rules may be read.

`Setting.trailAt` shows that every function of the parser leaves a trail, for every bound on the
depth of its calls. What a whole parse preserves is then an induction over trails and never looks
into the parser again.
-/

namespace JavaOutline

/-- A stretch of a parse that leads from one state to another and gives the trees in between.
Tokens are taken as right only if their kinds satisfy `K`, and there are nodes only of the rules
`R`. -/
inductive Trail (S : Setting) (K : Kind → Bool) (R : Rule → Bool) :
    Progress → List (Tree Nat) → Progress → Prop where
  /-- Nothing happens. -/
  | refl (s : Progress) : Trail S K R s [] s
  /-- One stretch follows another. -/
  | trans {s s' s'' : Progress} {ts us : List (Tree Nat)} (h : Trail S K R s ts s')
      (h' : Trail S K R s' us s'') : Trail S K R s (ts ++ us) s''
  /-- The parser looks at a token. -/
  | look (i : Nat) (s : Progress) : Trail S K R s [] (s.lookAt S.kinds i)
  /-- The work is cut short, or it is not. -/
  | cut (b : Bool) (s : Progress) : Trail S K R s [] { s with cutShort := b }
  /-- The parser complains. -/
  | complain (pos : Nat) (cause : Cause) (s : Progress) :
      Trail S K R s [] (s.complain pos cause)
  /-- The parser remembers where it has failed. -/
  | fail (p : Place) (s : Progress) :
      Trail S K R s [] { s with lastError := some (S.index s.pos), failed := p :: s.failed }
  /-- A token is right. -/
  | accept {s : Progress} (h : K (kindAt S.kinds s.pos) = true) :
      Trail S K R s [.token none s.pos] (s.settle.advance S.kinds)
  /-- A token is skipped. -/
  | skip {s : Progress} (h : s.recovering = true) :
      Trail S K R s [.skipped s.pos] (s.advance S.kinds)
  /-- A token is skipped, and the one after it is known to be right. -/
  | drop {s : Progress} (h : s.recovering = true) :
      Trail S K R s [.skipped s.pos] (s.advance S.kinds).settle
  /-- A missing token is assumed. -/
  | assume {s : Progress} (k : Kind) (h : s.recovering = true) : Trail S K R s [.missing k] s
  /-- The trees become the children of a node. -/
  | node {s s' : Progress} {ts : List (Tree Nat)} (r : Rule) (hr : R r = true)
      (h : Trail S K R s ts s') : Trail S K R s [.node none r ts] s'
  /-- The last tree gets a name. -/
  | named {s s' : Progress} {ts : List (Tree Nat)} (role : Role) (h : Trail S K R s ts s') :
      Trail S K R s (Tree.lastWithRole role ts) s'

namespace Progress

@[simp] theorem complain_recovering (pos : Nat) (cause : Cause) (s : Progress) :
    (s.complain pos cause).recovering = true := by
  unfold complain
  split <;> simp_all

@[simp] theorem complain_pos (pos : Nat) (cause : Cause) (s : Progress) :
    (s.complain pos cause).pos = s.pos := by
  unfold complain
  split <;> rfl

@[simp] theorem advance_recovering (kinds : Array Kind) (s : Progress) :
    (s.advance kinds).recovering = s.recovering := by
  unfold advance
  split <;> rfl

@[simp] theorem lookAt_pos (kinds : Array Kind) (i : Nat) (s : Progress) :
    (s.lookAt kinds i).pos = s.pos := rfl

theorem advance_pos (kinds : Array Kind) (s : Progress) :
    (s.advance kinds).pos = if s.pos < kinds.size then s.pos + 1 else s.pos := by
  unfold advance
  split <;> rfl

end Progress

/-- Behind the last token there is only the end of the file. -/
theorem kindAt_of_size_le {kinds : Array Kind} {i : Nat} (h : kinds.size ≤ i) :
    kindAt kinds i = .endOfFile := by
  unfold kindAt
  rw [Array.getD_eq_getD_getElem?, Array.getElem?_eq_none h]
  rfl

/-! ## Steps that lead nowhere else -/

namespace Step

variable {S : Setting} {K : Kind → Bool} {R : Rule → Bool} {s : Progress} {a : Step}
  {f : Progress → Step}

/-- A step that is followed by another leaves a trail if both do. -/
theorem andThen_trail (ha : Trail S K R s a.trees a.state)
    (hf : a.fault = none → Trail S K R a.state (f a.state).trees (f a.state).state) :
    Trail S K R s (a.andThen f).trees (a.andThen f).state := by
  unfold andThen
  split
  · exact ha
  · exact ha.trans (hf ‹_›)

end Step

namespace Setting

variable {S : Setting} {K : Kind → Bool} {R : Rule → Bool} {F : Frame} {p : Place} {s : Progress}

/-- The next token is skipped while the parser recovers from an error. -/
theorem takeNext_trail (h : s.recovering = true) :
    Trail S K R s (S.takeNext s).trees (S.takeNext s).state := by
  have hleaf : s.leaf = .skipped s.pos := by simp [Progress.leaf, h]
  simp only [takeNext, Step.ok, hleaf]
  exact .skip h

/-- All tokens up to one of the given kinds are skipped. -/
theorem skipTo_trail (ks : KindSet) (n : Nat) (h : s.recovering = true) :
    Trail S K R s (S.skipTo ks n s).trees (S.skipTo ks n s).state := by
  induction n generalizing s with
  | zero => exact .refl s
  | succ n ih =>
    unfold skipTo
    split
    · exact .refl s
    · refine Step.andThen_trail (takeNext_trail h) fun _ => ih ?_
      simpa [takeNext, Step.ok] using h

/-- Where no token is dropped the parser has only looked. -/
theorem drop?_none {ks : KindSet} {s' : Progress} (h : S.drop? ks s = (s', none)) :
    s' = s.lookAt S.kinds (s.pos + 1) := by
  simp only [drop?] at h
  split at h <;> simp_all

/-- A dropped token is skipped, and the one after it is of an expected kind. -/
theorem drop?_some {ks : KindSet} {s' : Progress} {a : Step} (h : S.drop? ks s = (s', some a)) :
    Trail S K R s a.trees a.state ∧ a.fault = none ∧ a.state.settle = a.state ∧
      kindAt S.kinds (s.pos + 1) ∈ ks ∧ a.state.pos = (s.advance S.kinds).pos := by
  simp only [drop?] at h
  split at h
  case isFalse => simp at h
  case isTrue hk =>
    simp only [Prod.mk.injEq, Option.some.injEq] at h
    obtain ⟨-, rfl⟩ := h
    generalize ht : (s.lookAt S.kinds (s.pos + 1)).complain
      (s.lookAt S.kinds (s.pos + 1)).pos (.extraneous ks) = t
    have h₁ : Trail S K R s [] t := ht ▸ .trans (.look _ s) (.complain _ _ _)
    have hrec : t.recovering = true := by simp [← ht]
    have hleaf : t.leaf = .skipped t.pos := by simp [Progress.leaf, hrec]
    have hpos : t.pos = s.pos := by simp [← ht]
    refine ⟨?_, rfl, rfl, hk, ?_⟩
    · simpa [takeNext, Step.ok, hleaf] using h₁.trans (.drop hrec)
    · simp [takeNext, Step.ok, Progress.settle, Progress.advance_pos, hpos]

/-- A token that has just become the next one by dropping another is right. -/
theorem next_of_drop?_some {ks : KindSet} {s' : Progress} {a : Step} (hs : S.next s ∉ ks)
    (h : S.drop? ks s = (s', some a)) : S.next a.state ∈ ks := by
  obtain ⟨-, -, -, hk, hpos⟩ := drop?_some (K := fun _ => true) (R := fun _ => true) h
  rw [Progress.advance_pos] at hpos
  split at hpos
  · rwa [next, hpos]
  · -- At the end of the file the token behind the next one is the end of the file again.
    rename_i hend
    have hend : S.kinds.size ≤ s.pos := Nat.le_of_not_lt hend
    rw [next, kindAt_of_size_le hend] at hs
    rw [kindAt_of_size_le (Nat.le_succ_of_le hend)] at hk
    exact absurd hk hs

/-- A token that is right is taken. -/
theorem takeNext_settled {s : Progress} (hs : s.settle = s) (h : K (S.next s) = true) :
    Trail S K R s (S.takeNext s).trees (S.takeNext s).state := by
  have hleaf : s.leaf = .token none s.pos := by rw [← hs]; rfl
  have hstate : s.advance S.kinds = s.settle.advance S.kinds := by rw [hs]
  simp only [takeNext, Step.ok, hleaf, hstate]
  exact .accept h

/-- A token is taken, dropped with the one before it, or assumed, or the place fails. -/
theorem accept_trail {ks : KindSet} {after : Place} {assumed : List (Tree Nat)}
    (hks : ∀ k ∈ ks, K k = true)
    (ha : ∀ t : Progress, t.recovering = true → Trail S K R t assumed t) :
    Trail S K R s (S.accept F p ks after assumed s).trees
      (S.accept F p ks after assumed s).state := by
  unfold accept
  split
  · rename_i hk
    exact .accept (hks _ hk)
  · rename_i hk
    split
    · rename_i a hd
      obtain ⟨htrail, -, hsettle, -⟩ := drop?_some (K := K) (R := R) hd
      refine Step.andThen_trail htrail fun _ => takeNext_settled hsettle ?_
      exact hks _ (next_of_drop?_some hk hd)
    · rename_i s' hd
      obtain rfl := drop?_none hd
      split
      · have hmissing := ha _ (Progress.complain_recovering s.pos (.missing ks)
          (s.lookAt S.kinds (s.pos + 1)))
        exact (Trail.look _ s).trans ((Trail.complain _ _ _).trans hmissing)
      · exact .look _ s

/-- Checking the next token before a decision skips tokens at most. -/
theorem resync_trail (inLoop : Bool) :
    Trail S K R s (S.resync F p inLoop s).trees (S.resync F p inLoop s).state := by
  simp only [resync]
  split
  · exact .refl s
  · split
    · exact (Trail.complain _ _ s).trans (skipTo_trail _ _ (Progress.complain_recovering ..))
    · split
      · rename_i hd
        exact (drop?_some hd).1
      · rename_i hd
        obtain rfl := drop?_none hd
        exact .look _ s

/-- Giving up a rule begins with a complaint and then skips tokens at most. -/
theorem giveUp_trail_complain (f : Fault) :
    Trail S K R (s.complain f.pos f.cause) (S.giveUp F f s).trees (S.giveUp F f s).state := by
  have hrec : (s.complain f.pos f.cause).recovering = true := Progress.complain_recovering ..
  -- Where the parser is stuck it skips one token before it looks for a place to go on.
  have hstart : ∀ b : Bool,
      let a := if b then S.takeNext (s.complain f.pos f.cause)
        else Step.ok [] (s.complain f.pos f.cause)
      Trail S K R (s.complain f.pos f.cause) a.trees a.state ∧ a.state.recovering = true := by
    rintro (_ | _)
    · exact ⟨.refl _, hrec⟩
    · exact ⟨takeNext_trail hrec, by simp [takeNext, Step.ok]⟩
  simp only [giveUp]
  obtain ⟨htrail, hrec'⟩ := hstart ((s.complain f.pos f.cause).lastError ==
    some (S.index (s.complain f.pos f.cause).pos) && (s.complain f.pos f.cause).failed.contains f.place)
  exact Step.andThen_trail htrail fun _ => (Trail.fail _ _).trans (skipTo_trail _ _ hrec')

/-- Giving up a rule skips tokens at most. -/
theorem giveUp_trail (f : Fault) :
    Trail S K R s (S.giveUp F f s).trees (S.giveUp F f s).state :=
  (Trail.complain _ _ s).trans (giveUp_trail_complain f)

/-- A decision looks ahead at most. -/
theorem decide_trail {otherwise : Option Nat} {v : Verdict} {s' : Progress}
    (h : S.decide F p otherwise s = (v, s')) : Trail S K R s [] s' := by
  unfold decide at h
  split at h
  · split at h <;> · cases h; exact .refl s
  · cases h
    exact (Trail.look _ s).trans (.cut _ _)

end Setting

/-! ## The kinds and rules in a right-hand side -/

namespace Piece

mutual

/-- Does the piece want only tokens of the kinds `K` and call only the rules `R`? -/
def within (K : Kind → Bool) (R : Rule → Bool) : Piece → Bool
  | .nothing | .guard _ => true
  | .token k => K k
  | .oneOf ks => ks.all K
  | .call r _ => R r
  | .named _ p => p.within K R
  | .andThen p q => p.within K R && q.within K R
  | .choice alts | .optional alts | .many alts | .many1 alts => allWithin K R alts

/-- Do all alternatives want only tokens of the kinds `K` and call only the rules `R`? -/
def allWithin (K : Kind → Bool) (R : Rule → Bool) : List Piece → Bool
  | [] => true
  | p :: ps => p.within K R && allWithin K R ps

end

mutual

/-- Where all kinds and rules are allowed nothing is in the way. -/
theorem within_true : ∀ p : Piece, p.within (fun _ => true) (fun _ => true) = true
  | .nothing | .guard _ | .token _ | .call _ _ => rfl
  | .oneOf ks => List.all_eq_true.2 fun _ _ => rfl
  | .named _ p => within_true p
  | .andThen p q => by rw [within, within_true p, within_true q, Bool.and_self]
  | .choice alts | .optional alts | .many alts | .many1 alts => allWithin_true alts

/-- `within_true` for alternatives. -/
theorem allWithin_true : ∀ ps : List Piece, allWithin (fun _ => true) (fun _ => true) ps = true
  | [] => rfl
  | p :: ps => by rw [allWithin, within_true p, allWithin_true ps, Bool.and_self]

end

/-- `allWithin` in the natural per-element form. -/
theorem allWithin_iff {K : Kind → Bool} {R : Rule → Bool} (alts : List Piece) :
    allWithin K R alts = true ↔ ∀ p ∈ alts, p.within K R = true := by
  induction alts with
  | nil => simp [allWithin]
  | cons p ps ih => simp [allWithin, ih]

end Piece

/-- Does the right-hand side want only tokens of the kinds `K` and call only the rules `R`? -/
def Body.within (K : Kind → Bool) (R : Rule → Bool) (b : Body) : Bool := b.piece.within K R

namespace Setting

/-- The alternative with a number is one of the alternatives. -/
theorem mem_of_alternative? {r : Rule} {base i : Nat} {alts : List Piece} {q : Place}
    {piece : Piece} (h : alternative? r base alts i = some (q, piece)) : piece ∈ alts := by
  fun_induction alternative? r base alts i with
  | case1 | case2 => simp at h
  | case3 => simp_all
  | case4 _ p ps i ih => exact List.mem_cons_of_mem _ (ih h)

/-- Decides at `p` between alternatives laid out from `base` on, and parses the one that is taken. -/
def parseChosen (S : Setting) (n : Nat) (F : Frame) (p : Place) (base : Nat) (alts : List Piece)
    (otherwise : Option Nat) (s : Progress) : Step :=
  match S.decide F p otherwise s with
  | (.stuck pos, s) => .fail (noAlternative p s pos) s
  | (.take i, s) =>
    match alternative? p.rule base alts i with
    | some (q, piece) => S.parsePiece n F q piece s
    | none => .ok [] s

/-- Alternatives are chosen from after a look at the next token. -/
theorem parseBlock_succ (S : Setting) (n : Nat) (F : Frame) (p : Place) (base : Nat)
    (alts : List Piece) (otherwise : Option Nat) (s : Progress) :
    S.parseBlock (n + 1) F p base alts otherwise s =
      (S.resync F p false s).andThen (S.parseChosen n F p base alts otherwise) := by
  rw [parseBlock]
  rfl

/-- Decides behind a turn of a loop at `p` whether there is another one, and parses it. -/
def parseRepeat (S : Setting) (n : Nat) (F : Frame) (p : Place) (alts : List Piece)
    (s : Progress) : Step :=
  match S.decide F (p.move (p.offset + 2)) (some 2) s with
  | (.stuck pos, s) => .fail (noAlternative (p.move (p.offset + 2)) s pos) s
  | (.take 1, s) => S.parseMany1 n F p alts s
  | (.take _, s) => .ok [] s

/-- A loop with at least one turn begins with a turn. -/
theorem parseMany1_succ (S : Setting) (n : Nat) (F : Frame) (p : Place) (alts : List Piece)
    (s : Progress) : S.parseMany1 (n + 1) F p alts s =
      ((S.parseTurn n F p (p.offset + 4) alts s).andThen
        (S.resync F (p.move (p.offset + 2)) true)).andThen (S.parseRepeat n F p alts) := by
  rw [parseMany1]
  rfl

/-- Parses the atom with which a rule that applies operators begins, and checks what follows. -/
def parseAtom (S : Setting) (n : Nat) (F : Frame) (r : Rule) (atoms : List Piece) (s : Progress) :
    Step :=
  (S.parsePiece n F (.start r) (.choice atoms) s).andThen
    (S.resync F ⟨r, 1 + (Piece.choice atoms).size⟩ false)

/-- Parses the right-hand side of a rule, up to the error that ends it, if there is one. -/
def parseBody (S : Setting) (n : Nat) (F : Frame) (r : Rule) (s : Progress) : Step :=
  match S.body r with
  | .plain piece => S.parsePiece n F (.start r) piece s
  | .operators atoms suffixes =>
    match (S.parseAtom n F r atoms s).fault with
    | some _ => S.parseAtom n F r atoms s
    | none => S.parseOperators n F ⟨r, 1 + (Piece.choice atoms).size⟩
        ⟨r, 1 + (Piece.choice atoms).size⟩ (suffixes.map Suffix.piece)
        (S.parseAtom n F r atoms s).trees (S.parseAtom n F r atoms s).state

/-- A plain right-hand side is one piece. -/
theorem parseBody_plain {S : Setting} {n : Nat} {F : Frame} {r : Rule} {s : Progress}
    {piece : Piece} (h : S.body r = .plain piece) :
    S.parseBody n F r s = S.parsePiece n F (.start r) piece s := by
  rw [parseBody, h]

/-- A rule is its right-hand side, and given up after an error. -/
theorem parseRule_succ (S : Setting) (n : Nat) (callers : List Place) (r : Rule) (level : Nat)
    (s : Progress) :
    S.parseRule (n + 1) callers r level s =
      match (S.parseBody n ⟨callers, level⟩ r s).fault with
      | none => (.node none r (S.parseBody n ⟨callers, level⟩ r s).trees,
          (S.parseBody n ⟨callers, level⟩ r s).state)
      | some f =>
        let b := S.giveUp ⟨callers, level⟩ f (S.parseBody n ⟨callers, level⟩ r s).state
        (.node none r ((S.parseBody n ⟨callers, level⟩ r s).trees ++ b.trees), b.state) := by
  rw [parseRule]
  rfl

/-! ## The parser leaves a trail -/

/-- With a bound `n` on their depth, the functions of the parser leave trails on which only tokens
of the kinds `K` are taken as right and only the rules `R` are read, as long as they call no
others. -/
structure TrailAt (S : Setting) (K : Kind → Bool) (R : Rule → Bool) (n : Nat) : Prop where
  piece : ∀ (F : Frame) (p : Place) (piece : Piece) (s : Progress), piece.within K R = true →
    Trail S K R s (S.parsePiece n F p piece s).trees (S.parsePiece n F p piece s).state
  block : ∀ (F : Frame) (p : Place) (base : Nat) (alts : List Piece) (otherwise : Option Nat)
    (s : Progress), Piece.allWithin K R alts = true →
    Trail S K R s (S.parseBlock n F p base alts otherwise s).trees
      (S.parseBlock n F p base alts otherwise s).state
  turn : ∀ (F : Frame) (p : Place) (base : Nat) (alts : List Piece) (s : Progress),
    Piece.allWithin K R alts = true →
    Trail S K R s (S.parseTurn n F p base alts s).trees (S.parseTurn n F p base alts s).state
  many : ∀ (F : Frame) (p q : Place) (alts : List Piece) (s : Progress),
    Piece.allWithin K R alts = true →
    Trail S K R s (S.parseMany n F p q alts s).trees (S.parseMany n F p q alts s).state
  many1 : ∀ (F : Frame) (p : Place) (alts : List Piece) (s : Progress),
    Piece.allWithin K R alts = true →
    Trail S K R s (S.parseMany1 n F p alts s).trees (S.parseMany1 n F p alts s).state
  operators : ∀ (F : Frame) (p q : Place) (alts : List Piece) (operand : List (Tree Nat))
    (s₀ s : Progress), Piece.allWithin K R alts = true → R p.rule = true →
    Trail S K R s₀ operand s →
    Trail S K R s₀ (S.parseOperators n F p q alts operand s).trees
      (S.parseOperators n F p q alts operand s).state
  rule : ∀ (callers : List Place) (r : Rule) (level : Nat) (s : Progress), R r = true →
    Trail S K R s [(S.parseRule n callers r level s).1] (S.parseRule n callers r level s).2

section
variable {S : Setting} {K : Kind → Bool} {R : Rule → Bool} {n : Nat} {F : Frame} {p : Place}
  {s : Progress}

/-- Without any depth the work is cut short at once. -/
theorem TrailAt.zero : TrailAt S K R 0 where
  piece _ _ _ s _ := .cut true s
  block _ _ _ _ _ s _ := .cut true s
  turn _ _ _ _ s _ := .cut true s
  many _ _ _ _ s _ := .cut true s
  many1 _ _ _ s _ := .cut true s
  operators _ _ _ _ _ _ s _ _ h := by simpa [parseOperators, Step.ok] using h.trans (.cut true s)
  rule _ r _ s hr := .node r hr (.cut true s)

/-- A piece leaves a trail, by cases on the piece. -/
theorem TrailAt.piece_step (h : TrailAt S K R n) (piece : Piece)
    (hw : piece.within K R = true) :
    Trail S K R s (S.parsePiece (n + 1) F p piece s).trees
      (S.parsePiece (n + 1) F p piece s).state := by
  cases piece with
  | nothing => exact .refl s
  | token k =>
    refine accept_trail (fun j hj => ?_) fun t ht => .assume k ht
    rw [KindSet.mem_single] at hj
    exact hj ▸ hw
  | oneOf ks =>
    refine accept_trail (fun j hj => ?_) fun t _ => .refl t
    exact List.all_eq_true.1 hw j ((KindSet.mem_ofList j ks).1 hj)
  | guard level =>
    simp only [parsePiece]
    split <;> exact .refl s
  | call r level => exact h.rule _ r level s hw
  | named role q =>
    simp only [parsePiece]
    split
    · exact .named role (h.piece F p q s hw)
    · exact h.piece F p q s hw
  | andThen q q' =>
    simp only [Piece.within, Bool.and_eq_true] at hw
    exact Step.andThen_trail (h.piece F p q s hw.1) fun _ => h.piece F _ q' _ hw.2
  | choice alts | optional alts => exact h.block F p _ alts _ s hw
  | many alts => exact Step.andThen_trail (resync_trail false) fun _ => h.many F p p alts _ hw
  | many1 alts => exact Step.andThen_trail (resync_trail false) fun _ => h.many1 F p alts _ hw

/-- The alternative that is taken leaves its trail. -/
theorem TrailAt.chosen (h : TrailAt S K R n) {base : Nat} {alts : List Piece}
    {otherwise : Option Nat} (hw : Piece.allWithin K R alts = true) :
    Trail S K R s (S.parseChosen n F p base alts otherwise s).trees
      (S.parseChosen n F p base alts otherwise s).state := by
  unfold parseChosen
  split
  · rename_i hd
    exact decide_trail hd
  · rename_i i s' hd
    split
    · rename_i q piece hq
      have hpiece := (Piece.allWithin_iff alts).1 hw piece (mem_of_alternative? hq)
      exact (decide_trail hd).trans (h.piece F q piece s' hpiece)
    · exact decide_trail hd

/-- A choice leaves the trail of the alternative that is taken. -/
theorem TrailAt.block_step (h : TrailAt S K R n) {base : Nat} {alts : List Piece}
    {otherwise : Option Nat} (hw : Piece.allWithin K R alts = true) :
    Trail S K R s (S.parseBlock (n + 1) F p base alts otherwise s).trees
      (S.parseBlock (n + 1) F p base alts otherwise s).state := by
  rw [parseBlock_succ]
  exact Step.andThen_trail (resync_trail false) fun _ => h.chosen hw

/-- The body of a loop leaves a trail. -/
theorem TrailAt.turn_step (h : TrailAt S K R n) {base : Nat} {alts : List Piece}
    (hw : Piece.allWithin K R alts = true) :
    Trail S K R s (S.parseTurn (n + 1) F p base alts s).trees
      (S.parseTurn (n + 1) F p base alts s).state := by
  simp only [parseTurn]
  split
  · rename_i piece
    exact h.piece F _ piece s ((Piece.allWithin_iff _).1 hw piece (by simp))
  · exact h.block F p base alts none s hw

/-- A loop leaves the trails of its turns, one after the other. -/
theorem TrailAt.many_step (h : TrailAt S K R n) {q : Place} {alts : List Piece}
    (hw : Piece.allWithin K R alts = true) :
    Trail S K R s (S.parseMany (n + 1) F p q alts s).trees
      (S.parseMany (n + 1) F p q alts s).state := by
  simp only [parseMany]
  split
  · rename_i hd
    exact decide_trail hd
  · rename_i s' hd
    refine (decide_trail hd).trans (Step.andThen_trail (Step.andThen_trail ?_ ?_) ?_)
    · exact h.turn F _ _ alts s' hw
    · exact fun _ => resync_trail true
    · exact fun _ => h.many F p _ alts _ hw
  · rename_i hd
    exact decide_trail hd

/-- Another turn leaves its trail. -/
theorem TrailAt.repeated (h : TrailAt S K R n) {alts : List Piece}
    (hw : Piece.allWithin K R alts = true) :
    Trail S K R s (S.parseRepeat n F p alts s).trees (S.parseRepeat n F p alts s).state := by
  unfold parseRepeat
  split
  · rename_i hd
    exact decide_trail hd
  · rename_i s' hd
    exact (decide_trail hd).trans (h.many1 F p alts s' hw)
  · rename_i hd
    exact decide_trail hd

/-- A loop with at least one turn leaves the trails of its turns. -/
theorem TrailAt.many1_step (h : TrailAt S K R n) {alts : List Piece}
    (hw : Piece.allWithin K R alts = true) :
    Trail S K R s (S.parseMany1 (n + 1) F p alts s).trees
      (S.parseMany1 (n + 1) F p alts s).state := by
  rw [parseMany1_succ]
  refine Step.andThen_trail (Step.andThen_trail ?_ fun _ => resync_trail true) fun _ => h.repeated hw
  exact h.turn F p _ alts s hw

/-- Choosing an operator looks ahead at most; with one operator there is nothing to choose. -/
theorem chooseOperator_trail {alts : List Piece} {v : Verdict} {s' : Progress}
    (h : (if alts.length = 1 then (.take 1, s) else S.decide F p none s) = (v, s')) :
    Trail S K R s [] s' := by
  split at h
  · cases h
    exact .refl s
  · exact decide_trail h

/-- Each operator puts the operand so far below a new node and goes on with its own trail. -/
theorem TrailAt.operators_step (h : TrailAt S K R n) {q : Place} {alts : List Piece}
    {operand : List (Tree Nat)} {s₀ : Progress} (hw : Piece.allWithin K R alts = true)
    (hr : R p.rule = true) (ho : Trail S K R s₀ operand s) :
    Trail S K R s₀ (S.parseOperators (n + 1) F p q alts operand s).trees
      (S.parseOperators (n + 1) F p q alts operand s).state := by
  have extend : ∀ {ts : List (Tree Nat)} {t t' : Progress}, Trail S K R s₀ ts t →
      Trail S K R t [] t' → Trail S K R s₀ ts t' := by
    intro ts t t' hts ht
    simpa using hts.trans ht
  simp only [parseOperators]
  split
  · rename_i hd
    exact extend ho (decide_trail hd)
  · rename_i s' hd
    have ho' := extend ho (decide_trail hd)
    generalize ha : (if alts.length = 1 then Step.ok [] s'
      else S.resync F (p.move (p.offset + 1)) false s') = a
    have hoa : Trail S K R s₀ (operand ++ a.trees) a.state := by
      refine ho'.trans ?_
      rw [← ha]
      split
      · exact .refl s'
      · exact resync_trail false
    split
    · exact hoa
    · split
      · rename_i hc
        exact extend hoa (chooseOperator_trail hc)
      · rename_i i t hc
        have hot := extend hoa (chooseOperator_trail hc)
        split
        · exact hot
        · rename_i q piece hq
          have hpiece := (Piece.allWithin_iff alts).1 hw piece (mem_of_alternative? hq)
          have hb := Step.andThen_trail (h.piece F q piece t hpiece)
            fun _ => resync_trail (F := F) (p := p.move (p.offset + 3)) true
          have hwhole := (Trail.node p.rule hr hot).trans hb
          split
          · exact hwhole
          · exact h.operators F p _ alts _ s₀ _ hw hr hwhole
  · rename_i hd
    exact extend ho (decide_trail hd)

/-- A right-hand side leaves a trail: a plain one that of its piece, operators that of an atom and
of all that is applied to it. -/
theorem TrailAt.body_step (h : TrailAt S K R n) {r : Rule} (hr : R r = true)
    (hw : (S.body r).within K R = true) :
    Trail S K R s (S.parseBody n F r s).trees (S.parseBody n F r s).state := by
  unfold parseBody
  split
  · rename_i piece hplain
    rw [hplain] at hw
    exact h.piece F _ piece s hw
  · rename_i atoms suffixes hops
    rw [hops, Body.within, Body.piece, Piece.within, Bool.and_eq_true] at hw
    have hatom : Trail S K R s (S.parseAtom n F r atoms s).trees
        (S.parseAtom n F r atoms s).state :=
      Step.andThen_trail (h.piece F (.start r) (.choice atoms) s hw.1) fun _ => resync_trail false
    split
    · exact hatom
    · exact h.operators F _ _ _ _ s _ hw.2 hr hatom

/-- A rule puts what its right-hand side gives below a node, and after an error also what has been
skipped. -/
theorem TrailAt.rule_step (h : TrailAt S K R n)
    (hbody : ∀ r, R r = true → (S.body r).within K R = true) {callers : List Place} {r : Rule}
    {level : Nat} (hr : R r = true) :
    Trail S K R s [(S.parseRule (n + 1) callers r level s).1]
      (S.parseRule (n + 1) callers r level s).2 := by
  have hstep := h.body_step (F := ⟨callers, level⟩) (s := s) hr (hbody r hr)
  rw [parseRule_succ]
  split
  · exact .node r hr hstep
  · exact .node r hr (hstep.trans (giveUp_trail _))

/-- Every function of the parser leaves a trail, whatever the bound on its depth. -/
theorem trailAt (hbody : ∀ r, R r = true → (S.body r).within K R = true) :
    ∀ n, TrailAt S K R n
  | 0 => .zero
  | n + 1 =>
    have h := trailAt hbody n
    { piece := fun _ _ piece _ hw => h.piece_step piece hw
      block := fun _ _ _ _ _ _ hw => h.block_step hw
      turn := fun _ _ _ _ _ hw => h.turn_step hw
      many := fun _ _ _ _ _ hw => h.many_step hw
      many1 := fun _ _ _ _ hw => h.many1_step hw
      operators := fun _ _ _ _ _ _ _ hw hr ho => h.operators_step hw hr ho
      rule := fun _ _ _ _ hr => h.rule_step hbody hr }

end

end Setting

end JavaOutline
