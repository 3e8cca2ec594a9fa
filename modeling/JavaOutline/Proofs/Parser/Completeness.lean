import JavaOutline.Proofs.Parser.Live
import JavaOutline.Proofs.Parser.Soundness

/-!
# Completeness of the parser

Where a run goes on, each function of the parser follows one to the end of its piece of the
right-hand side without a complaint. `CompleteAt` states this for all functions at one bound on
their depth; there is one lemma for the step of each function, and `completeAt` puts them together.
-/

namespace JavaOutline

open Network

/-! ## Decisions with a choice -/

namespace Piece

mutual

/-- Is there more than one way on at every decision in the piece? -/
def branches : Piece → Bool
  | .nothing | .token _ | .oneOf _ | .guard _ | .call _ _ => true
  | .named _ p => p.branches
  | .andThen p q => p.branches && q.branches
  | .choice alts => 1 < alts.length && allBranch alts
  | .optional alts | .many alts | .many1 alts => 0 < alts.length && allBranch alts

/-- Is there more than one way on at every decision in the alternatives? -/
def allBranch : List Piece → Bool
  | [] => true
  | p :: ps => p.branches && allBranch ps

end

theorem branches_of_mem {p : Piece} {alts : List Piece} (h : allBranch alts = true)
    (hp : p ∈ alts) : p.branches = true := by
  induction alts with
  | nil => cases hp
  | cons q qs ih =>
    rw [allBranch, Bool.and_eq_true] at h
    rcases List.mem_cons.1 hp with rfl | hp
    · exact h.1
    · exact ih h.2 hp

theorem branches_choice {alts : List Piece} (h : (Piece.choice alts).branches = true) :
    1 < alts.length ∧ allBranch alts = true := by
  rwa [branches, Bool.and_eq_true, decide_eq_true_eq] at h

theorem branches_many {alts : List Piece} (h : (Piece.many alts).branches = true) :
    0 < alts.length ∧ allBranch alts = true := by
  rwa [branches, Bool.and_eq_true, decide_eq_true_eq] at h

end Piece

theorem Rule.branches (r : Rule) : r.body.piece.branches = true := by
  cases r <;> rfl

/-- The fork at `p` leads to alternatives that are laid out from `base` on and meet at `meet`, and
perhaps at once to where they meet. -/
structure Alternatives (p : Place) (base meet : Nat) (alts : List Piece) (exits : List Nat) :
    Prop where
  fork : java.node p = .fork (Piece.starts base alts ++ exits)
  holds : java.Holds ⟨p.rule, base⟩ (Piece.wires base meet alts)
  exits : ∀ exit ∈ exits, exit = meet
  nonempty : 0 < alts.length
  apart : p.offset + 1 < base
  branches : Piece.allBranch alts = true
  fits : Piece.AllFit alts

section
variable {p : Place} {next : Nat} {alts : List Piece}

theorem alternatives_choice (hp : java.Holds p ((Piece.choice alts).wire p.offset next))
    (hfits : (Piece.choice alts).Fits) (hbranches : (Piece.choice alts).branches = true) :
    Alternatives p (p.offset + 2) (p.offset + 1) alts [] where
  fork := by rw [List.append_nil]; exact hp.head
  holds := hp.right
  exits := by simp
  nonempty := Nat.zero_lt_of_lt (Piece.branches_choice hbranches).1
  apart := Nat.lt_succ_self _
  branches := (Piece.branches_choice hbranches).2
  fits := hfits.choice

theorem alternatives_optional (hp : java.Holds p ((Piece.optional alts).wire p.offset next))
    (hfits : (Piece.optional alts).Fits) (hbranches : (Piece.optional alts).branches = true) :
    Alternatives p (p.offset + 2) (p.offset + 1) alts [p.offset + 1] where
  fork := hp.head
  holds := hp.right
  exits := by simp
  nonempty := (Piece.branches_many hbranches).1
  apart := Nat.lt_succ_self _
  branches := (Piece.branches_many hbranches).2
  fits := hfits.optional

theorem alternatives_many (hp : java.Holds p ((Piece.many alts).wire p.offset next))
    (hfits : (Piece.many alts).Fits) (hbranches : (Piece.many alts).branches = true) :
    Alternatives (p.move (p.offset + 1)) (p.offset + 5) (p.offset + 2) alts [] where
  fork := by rw [List.append_nil]; exact hp 1 _ rfl
  holds := hp.right
  exits := by simp
  nonempty := (Piece.branches_many hbranches).1
  apart := by simp [Place.move]
  branches := (Piece.branches_many hbranches).2
  fits := hfits.many.1

theorem alternatives_many1 (hp : java.Holds p ((Piece.many1 alts).wire p.offset next))
    (hfits : (Piece.many1 alts).Fits) (hbranches : (Piece.many1 alts).branches = true) :
    Alternatives p (p.offset + 4) (p.offset + 1) alts [] where
  fork := by rw [List.append_nil]; exact hp.head
  holds := hp.right
  exits := by simp
  nonempty := (Piece.branches_many hbranches).1
  apart := by omega
  branches := (Piece.branches_many hbranches).2
  fits := hfits.many1.1

end

/-- The last loop of a file begins right behind its fork. -/
theorem Alternatives.ne_declarations {p : Place} {base meet : Nat} {alts : List Piece}
    {exits : List Nat} (h : Alternatives p base meet alts exits) : p ≠ ⟨.compilationUnit, 13⟩ := by
  rintro rfl
  have hfork : java.node ⟨.compilationUnit, 13⟩ = .fork [14, 17] := by
    rw [node_mk]
    decide +kernel
  have hapart := h.apart
  have hpos := h.nonempty
  have heq := Node.fork.inj (h.fork.symm.trans hfork)
  cases alts with
  | nil => cases hpos
  | cons piece alts =>
    have hbase := (List.cons.inj heq).1
    simp only at hapart
    omega

/-- The alternative with some number begins where the fork leads to, and leads to where the
alternatives meet. -/
theorem Alternatives.of_alternative? {p q : Place} {base meet i : Nat} {alts : List Piece}
    {exits : List Nat} {piece : Piece} (h : Alternatives p base meet alts exits)
    (hq : Setting.alternative? p.rule base alts i = some (q, piece)) :
    piece ∈ alts ∧ ∃ next ∈ Piece.starts base alts, q = p.move next ∧
      ∃ exit, java.Holds q (piece.wire q.offset exit) ∧
        (exit = meet ∨ java.node ⟨p.rule, exit⟩ = .fork [meet]) := by
  have hle : i ≤ alts.length := by
    refine Nat.le_of_not_lt fun hlt => ?_
    rw [Setting.alternative?_eq_none hlt] at hq
    cases hq
  cases i with
  | zero => cases alts <;> cases hq
  | succ j =>
    have hj : j < (Piece.starts base alts).length := by rwa [Piece.length_starts]
    obtain ⟨piece', hmem, halt, hexit⟩ :=
      Setting.exists_alternative h.holds (List.getElem?_eq_getElem hj)
    cases hq.symm.trans halt
    exact ⟨hmem, _, List.getElem_mem hj, rfl, hexit⟩

namespace Setting

variable {S : Setting} {n : Nat} {F : Frame} {p : Place} {s : Progress}

/-- A piece that has its nodes at a place is laid out there. -/
theorem Java.laidOut (hS : S.Java) {piece : Piece} {next : Nat}
    (h : Network.java.Holds p (piece.wire p.offset next)) : piece.LaidOut S.net p :=
  ⟨next, hS.net ▸ h⟩

theorem Java.blockAt (hS : S.Java) {base meet : Nat} {alts : List Piece}
    (h : Alternatives p base meet alts []) : BlockAt S.net p base alts := by
  refine ⟨?_, meet, hS.net ▸ h.holds⟩
  rw [hS.net, h.fork, List.append_nil]

theorem Java.sound (hS : S.Java) (n : Nat) : SoundAt S n :=
  soundAt (hS.net ▸ java_wired) hS.body n

/-! ## The functions of the parser -/

/-- With a bound `n` on their depth, the functions of the parser follow a run through the network to
the end of what they parse, provided that they start with enough depth at the right places. -/
structure CompleteAt (S : Setting) (n : Nat) : Prop where
  piece : ∀ (F : Frame) (p : Place) (next : Nat) (piece : Piece) (s : Progress),
    Network.java.Holds p (piece.wire p.offset next) → piece.Fits → piece.branches = true →
    S.Ready n piece.need s → S.Live F p s → S.Ends F (p.move next) (S.parsePiece n F p piece s)
  block : ∀ (F : Frame) (p : Place) (base meet : Nat) (alts : List Piece) (exits : List Nat)
    (otherwise : Option Nat) (s : Progress), Alternatives p base meet alts exits →
    1 < alts.length + exits.length → S.Ready n (1 + Piece.maxNeed alts) s → S.Live F p s →
    S.Ends F (p.move meet) (S.parseBlock n F p base alts otherwise s)
  turn : ∀ (F : Frame) (p : Place) (base meet : Nat) (alts : List Piece) (s : Progress),
    Alternatives p base meet alts [] → S.Ready n (2 + Piece.maxNeed alts) s → S.Live F p s →
    S.Ends F (p.move meet) (S.parseTurn n F p base alts s)
  many : ∀ (F : Frame) (p back : Place) (next : Nat) (alts : List Piece) (s : Progress),
    Network.java.Holds p ((Piece.many alts).wire p.offset next) → (Piece.many alts).Fits →
    (Piece.many alts).branches = true → S.Ready n (3 + Piece.maxNeed alts) s → S.Live F p s →
    S.Ends F (p.move next) (S.parseMany n F p back alts s)
  many1 : ∀ (F : Frame) (p : Place) (next : Nat) (alts : List Piece) (s : Progress),
    Network.java.Holds p ((Piece.many1 alts).wire p.offset next) → (Piece.many1 alts).Fits →
    (Piece.many1 alts).branches = true → S.Ready n (3 + Piece.maxNeed alts) s → S.Live F p s →
    S.Ends F (p.move next) (S.parseMany1 n F p alts s)
  operators : ∀ (F : Frame) (p back : Place) (next : Nat) (alts : List Piece)
    (operand : List (Tree Nat)) (s : Progress),
    Network.java.Holds p ((Piece.many alts).wire p.offset next) → (Piece.many alts).Fits →
    (Piece.many alts).branches = true → S.Ready n (1 + Piece.maxNeed alts) s → S.Live F p s →
    S.Ends F (p.move next) (S.parseOperators n F p back alts operand s)
  rule : ∀ (callers : List Place) (r : Rule) (level : Nat) (s : Progress), S.Ready n r.rank s →
    S.Live ⟨callers, level⟩ (.start r) s →
    S.Live ⟨callers, level⟩ ⟨r, 0⟩ (S.parseRule n callers r level s).2

theorem CompleteAt.zero : CompleteAt S 0 where
  piece _ _ _ piece _ _ _ _ h := (not_ready_zero piece.need_pos h).elim
  block _ _ _ _ _ _ _ _ _ _ h := (not_ready_zero (by omega) h).elim
  turn _ _ _ _ _ _ _ h := (not_ready_zero (by omega) h).elim
  many _ _ _ _ _ _ _ _ _ h := (not_ready_zero (by omega) h).elim
  many1 _ _ _ _ _ _ _ _ h := (not_ready_zero (by omega) h).elim
  operators _ _ _ _ _ _ _ _ _ _ h := (not_ready_zero (by omega) h).elim
  rule _ r _ _ h := (not_ready_zero (Nat.zero_lt_of_lt r.depth_bounds.1) h).elim

section

/-- At the end of an alternative one goes on where the alternatives meet. -/
theorem Ends.meet {a : Step} {exit meet : Nat} (h : S.Ends F (p.move exit) a)
    (hexit : exit = meet ∨ Network.java.node ⟨p.rule, exit⟩ = .fork [meet]) :
    S.Ends F (p.move meet) a := by
  rcases hexit with rfl | hfork
  · exact h
  · exact h.jump hfork

/-- The alternative that is taken ends where the alternatives meet. -/
theorem CompleteAt.alternative (h : CompleteAt S n) {base meet : Nat} {alts : List Piece}
    {exits : List Nat} (halts : Alternatives p base meet alts exits)
    (hs : S.Ready n (Piece.maxNeed alts) s) {i next : Nat}
    (hi : (Piece.starts base alts)[i]? = some next) (hlive : S.Live F (p.move next) s) :
    ∃ q piece, alternative? p.rule base alts (i + 1) = some (q, piece) ∧
      S.Ends F (p.move meet) (S.parsePiece n F q piece s) := by
  obtain ⟨piece, hmem, halt, exit, hholds, hexit⟩ := exists_alternative halts.holds hi
  have hneed := Piece.need_le_of_mem hmem
  have hends := h.piece F (p.move next) exit piece s hholds (halts.fits piece hmem)
    (Piece.branches_of_mem halts.branches hmem) (hs.call (.refl s) (by omega)) hlive
  exact ⟨_, piece, halt, hends.meet hexit⟩

/-- Alternatives end where they meet. -/
theorem CompleteAt.block_step (h : CompleteAt S n) (hS : S.Java) {base meet : Nat}
    {alts : List Piece} {exits : List Nat} {otherwise : Option Nat}
    (halts : Alternatives p base meet alts exits) (hmany : 1 < alts.length + exits.length)
    (hs : S.Ready (n + 1) (1 + Piece.maxNeed alts) s) (hlive : S.Live F p s) :
    S.Ends F (p.move meet) (S.parseBlock (n + 1) F p base alts otherwise s) := by
  rw [parseBlock_succ, hlive.resync hS]
  refine hlive.ends.andThen ?_
  obtain ⟨i, next, s', hd, hi, hlive'⟩ := hlive.decide hS hs.pos_le halts.fork
    (by simpa using hmany) otherwise fun hp => absurd hp halts.ne_declarations
  have hs' : S.Ready n (Piece.maxNeed alts) s' := hs.call (decide_trail hd) (by omega)
  simp only [Step.ok, parseChosen, hd]
  by_cases hlt : i < alts.length
  · rw [List.getElem?_append_left (by simpa using hlt)] at hi
    obtain ⟨q, piece, halt, hends⟩ := h.alternative halts hs' hi hlive'
    simpa only [halt] using hends
  · rw [List.getElem?_append_right (by simpa using hlt)] at hi
    obtain rfl := halts.exits next (List.mem_of_getElem? hi)
    simp only [alternative?_eq_none (show alts.length < i + 1 by omega)]
    exact hlive'.ends

/-- A turn of a loop ends where the alternatives meet. -/
theorem CompleteAt.turn_step (h : CompleteAt S n) {base meet : Nat} {alts : List Piece}
    (halts : Alternatives p base meet alts []) (hs : S.Ready (n + 1) (2 + Piece.maxNeed alts) s)
    (hlive : S.Live F p s) :
    S.Ends F (p.move meet) (S.parseTurn (n + 1) F p base alts s) := by
  simp only [parseTurn]
  split
  · rename_i piece
    obtain ⟨q, piece', halt, hends⟩ := h.alternative halts (hs.call (.refl s) (by omega))
      (i := 0) rfl (hlive.jump halts.fork)
    cases halt
    exact hends
  · rename_i hone
    refine h.block F p base meet alts [] none s halts ?_ (hs.call (.refl s) (by omega)) hlive
    have hpos := halts.nonempty
    rcases alts with _ | ⟨piece, _ | ⟨piece', alts⟩⟩
    · cases hpos
    · exact absurd rfl (hone piece)
    · simp

/-- The nodes of a loop that may be left out. -/
structure LoopAt (p : Place) (next : Nat) (alts : List Piece) : Prop where
  fork : Network.java.node p = .fork [p.offset + 1, p.offset + 4]
  turn : Alternatives (p.move (p.offset + 1)) (p.offset + 5) (p.offset + 2) alts []
  meet : Network.java.node (p.move (p.offset + 2)) = .fork [p.offset + 3]
  back : Network.java.node (p.move (p.offset + 3)) = .fork [p.offset]
  leave : Network.java.node (p.move (p.offset + 4)) = .fork [next]

theorem loopAt {next : Nat} {alts : List Piece}
    (hp : Network.java.Holds p ((Piece.many alts).wire p.offset next))
    (hfits : (Piece.many alts).Fits) (hbranches : (Piece.many alts).branches = true) :
    LoopAt p next alts where
  fork := hp 0 _ rfl
  turn := alternatives_many hp hfits hbranches
  meet := hp 2 _ rfl
  back := hp 3 _ rfl
  leave := hp 4 _ rfl

/-- A loop ends behind its last turn. -/
theorem CompleteAt.many_step (h : CompleteAt S n) (hS : S.Java) {back : Place} {next : Nat} {alts : List Piece}
    (hp : Network.java.Holds p ((Piece.many alts).wire p.offset next))
    (hfits : (Piece.many alts).Fits) (hbranches : (Piece.many alts).branches = true)
    (hs : S.Ready (n + 1) (3 + Piece.maxNeed alts) s) (hlive : S.Live F p s) :
    S.Ends F (p.move next) (S.parseMany (n + 1) F p back alts s) := by
  obtain ⟨hall, hconsume, hneed⟩ := hfits.many
  have hloop := loopAt hp hfits hbranches
  obtain ⟨i, next', s', hd, hi, hlive'⟩ := hlive.decide hS hs.pos_le hloop.fork (by simp)
    (some 2) fun _ => rfl
  have hlook : AnyTrail S s [] s' := decide_trail hd
  have hs' : S.Ready n (2 + Piece.maxNeed alts) s' := hs.call hlook (by omega)
  match i with
  | 0 =>
    obtain rfl := Option.some.inj hi
    simp only [parseMany, hd]
    have hturn := h.turn F _ _ _ alts s' hloop.turn hs' hlive'
    have hmeet : S.Ends F (p.move (p.offset + 3)) _ := hturn.jump hloop.meet
    have hback : S.Ends F p _ := hmeet.jump hloop.back
    have htrail := (S.anyTrailAt n).turn F (p.move (p.offset + 1)) (p.offset + 5) alts s'
      (Piece.allWithin_true alts)
    -- The turn takes a token, so there is depth enough for the rest of the loop.
    have hreads := (hS.sound n).turn F _ _ alts s' (hS.blockAt hloop.turn) hall hs' hturn.clean
    rw [hmeet.resync hS true]
    refine hback.andThen (h.many F p _ next alts _ hp hfits hbranches ?_ hback.live)
    exact hs'.behind htrail (hreads.lt hconsume) (by omega) (by omega)
  | 1 =>
    obtain rfl := Option.some.inj hi
    simp only [parseMany, hd]
    exact (hlive'.jump hloop.leave).ends
  | _ + 2 => cases hi

/-- A loop with at least one turn ends behind its last turn. -/
theorem CompleteAt.many1_step (h : CompleteAt S n) (hS : S.Java) {next : Nat} {alts : List Piece}
    (hp : Network.java.Holds p ((Piece.many1 alts).wire p.offset next))
    (hfits : (Piece.many1 alts).Fits) (hbranches : (Piece.many1 alts).branches = true)
    (hs : S.Ready (n + 1) (3 + Piece.maxNeed alts) s) (hlive : S.Live F p s) :
    S.Ends F (p.move next) (S.parseMany1 (n + 1) F p alts s) := by
  obtain ⟨hall, hconsume, hneed⟩ := hfits.many1
  have halts := alternatives_many1 hp hfits hbranches
  have hmeet : Network.java.node (p.move (p.offset + 1)) = .fork [p.offset + 2] := hp 1 _ rfl
  have hfork : Network.java.node (p.move (p.offset + 2)) = .fork [p.offset, p.offset + 3] :=
    hp 2 _ rfl
  have hleave : Network.java.node (p.move (p.offset + 3)) = .fork [next] := hp 3 _ rfl
  have hs' : S.Ready n (2 + Piece.maxNeed alts) s := hs.call (.refl s) (by omega)
  have hturn := h.turn F p _ _ alts s halts hs' hlive
  have hback : S.Ends F (p.move (p.offset + 2)) _ := hturn.jump hmeet
  have htrail := (S.anyTrailAt n).turn F p (p.offset + 4) alts s (Piece.allWithin_true alts)
  -- The turn takes a token, so there is depth enough for the rest of the loop.
  have hreads := (hS.sound n).turn F _ _ alts s (hS.blockAt halts) hall hs' hturn.clean
  have hbounds := htrail.pos_bounds hs.pos_le
  rw [parseMany1_succ, hback.resync hS true]
  refine hback.andThen ?_
  obtain ⟨i, next', s', hd, hi, hlive'⟩ := hback.live.decide hS hbounds.2 hfork (by simp)
    (some 2) fun _ => rfl
  have hlook : AnyTrail S _ [] s' := decide_trail hd
  have hle := (hlook.pos_bounds hbounds.2).1
  match i with
  | 0 =>
    obtain rfl := Option.some.inj hi
    simp only [parseRepeat, hd]
    refine h.many1 F p next alts s' hp hfits hbranches ?_ hlive'
    exact hs.behind (htrail.trans hlook) (Nat.lt_of_lt_of_le (hreads.lt hconsume) hle) (by omega)
      (by omega)
  | 1 =>
    obtain rfl := Option.some.inj hi
    simp only [parseRepeat, hd]
    exact (hlive'.jump hleave).ends
  | _ + 2 => cases hi

/-- The next operator is chosen well. -/
theorem Live.chooseOperator (hlive : S.Live F p s) (hS : S.Java) (hpos : s.pos ≤ S.kinds.size)
    {base meet : Nat} {alts : List Piece} (halts : Alternatives p base meet alts []) :
    (if alts.length = 1 then Step.ok [] s else S.resync F p false s) = .ok [] s ∧
      ∃ i next s', (if alts.length = 1 then (.take 1, s) else S.decide F p none s) =
          (.take (i + 1), s') ∧ (Piece.starts base alts)[i]? = some next ∧
        S.Live F (p.move next) s' := by
  split
  · rename_i hone
    obtain ⟨piece, rfl⟩ := List.length_eq_one_iff.1 hone
    exact ⟨rfl, 0, base, s, rfl, rfl, hlive.jump halts.fork⟩
  · rename_i hone
    have hnonempty := halts.nonempty
    refine ⟨hlive.resync hS false, ?_⟩
    have hfork := halts.fork
    rw [List.append_nil] at hfork
    exact hlive.decide hS hpos hfork (by rw [Piece.length_starts]; omega) none
      fun hp => absurd hp halts.ne_declarations

/-- Operators are applied up to the end of the rule. -/
theorem CompleteAt.operators_step (h : CompleteAt S n) (hS : S.Java) {back : Place} {next : Nat}
    {alts : List Piece} {operand : List (Tree Nat)}
    (hp : Network.java.Holds p ((Piece.many alts).wire p.offset next))
    (hfits : (Piece.many alts).Fits) (hbranches : (Piece.many alts).branches = true)
    (hs : S.Ready (n + 1) (1 + Piece.maxNeed alts) s) (hlive : S.Live F p s) :
    S.Ends F (p.move next) (S.parseOperators (n + 1) F p back alts operand s) := by
  obtain ⟨hall, hconsume, hneed⟩ := hfits.many
  have hloop := loopAt hp hfits hbranches
  obtain ⟨i, next', s', hd, hi, hlive'⟩ := hlive.decide hS hs.pos_le hloop.fork (by simp)
    (some 2) fun _ => rfl
  have hlook : AnyTrail S s [] s' := decide_trail hd
  match i with
  | 0 =>
    obtain rfl := Option.some.inj hi
    obtain ⟨hresync, j, start, t, hchoose, hj, hstart⟩ :=
      hlive'.chooseOperator hS (hlook.pos_bounds hs.pos_le).2 hloop.turn
    have hbefore : AnyTrail S s [] t := hlook.trans (chooseOperator_trail hchoose)
    have ht : S.Ready n (Piece.maxNeed alts) t := hs.call hbefore (by omega)
    obtain ⟨q, piece, halt, hends⟩ := h.alternative hloop.turn ht hj hstart
    have hmeet : S.Ends F (p.move (p.offset + 3)) _ := hends.jump hloop.meet
    have hback : S.Ends F p _ := hmeet.jump hloop.back
    have htrail := (S.anyTrailAt n).piece F q piece t (Piece.within_true piece)
    -- The operator takes a token, so there is depth enough for the next one.
    have hreads := (hS.sound n).alternative (hS.blockAt hloop.turn).alternatives hall ht halt
      hends.clean
    have hlt := Nat.lt_of_le_of_lt (hbefore.pos_bounds hs.pos_le).1 (hreads.lt hconsume)
    have halt : alternative? p.rule (p.offset + 5) alts (j + 1) = some (q, piece) := halt
    simp only [parseOperators, hd, hresync]
    simp only [Step.ok, hchoose, halt, hmeet.resync hS true, hback.fault]
    refine h.operators F p _ next alts _ _ hp hfits hbranches ?_ hback.live
    exact hs.behind (hbefore.trans htrail) hlt (by omega) (by omega)
  | 1 =>
    obtain rfl := Option.some.inj hi
    simp only [parseOperators, hd]
    exact ⟨rfl, hlive'.jump hloop.leave⟩
  | _ + 2 => cases hi

/-- A call ends behind it. -/
theorem CompleteAt.call (h : CompleteAt S n) (hS : S.Java) {r : Rule} {level next : Nat}
    (hp : Network.java.node p = .call r level next) (hs : S.Ready n r.rank s)
    (hlive : S.Live F p s) :
    S.Live F (p.move next) (S.parseRule n (S.behind p :: F.callers) r level s).2 := by
  have hbehind : S.behind p = p.move next := by
    rw [Setting.behind, hS.net, hp]
  have hsited := hlive.sited.drift (.call hp)
  have hnested := nested_of_call (σ := F.callers) hlive.sited.valid hp
  have hstart : S.Live ⟨p.move next :: F.callers, level⟩ (.start r) s :=
    { viable := (hlive.viable.of_call hp).accepts.viable (ρ := []) hnested rfl hsited.toSited rfl
        (.start r)
      sited := hsited
      nested := hnested
      quiet := hlive.quiet
      calm := hlive.calm }
  rw [hbehind]
  have hend := h.rule _ r level s hs hstart
  have hvalid := hsited.back.valid
  refine hlive.of_accepts hvalid ?_ (hend.viable.accepts.of_finish (node_zero r)) hend.quiet
    hend.calm
  exact .behind hlive.sited.valid (by rw [hp]; rfl) (by rw [hp]; exact List.mem_cons_self) hvalid

/-- A piece ends behind it, by cases on the piece. -/
theorem CompleteAt.piece_step (h : CompleteAt S n) (hS : S.Java) {next : Nat} (piece : Piece)
    (hp : Network.java.Holds p (piece.wire p.offset next)) (hfits : piece.Fits)
    (hbranches : piece.branches = true) (hs : S.Ready (n + 1) piece.need s)
    (hlive : S.Live F p s) : S.Ends F (p.move next) (S.parsePiece (n + 1) F p piece s) := by
  have hrefl : AnyTrail S s [] s := .refl s
  cases piece with
  | nothing => exact (hlive.jump hp.head).ends
  | token k => exact hlive.accept hp.head _ _
  | oneOf ks => exact hlive.accept hp.head _ _
  | guard level =>
    obtain ⟨hle, hlive'⟩ := hlive.guard hp.head
    simp only [parsePiece, if_pos hle]
    exact hlive'.ends
  | call r level =>
    rw [Piece.need] at hs
    exact ⟨rfl, h.call hS hp.head (hs.call hrefl (by omega)) hlive⟩
  | named role q =>
    rw [Piece.need] at hs
    have hq := h.piece F p next q s hp hfits.named hbranches (hs.call hrefl (by omega)) hlive
    exact ⟨hq.fault, hq.live⟩
  | andThen q q' =>
    rw [Piece.branches, Bool.and_eq_true] at hbranches
    rw [Piece.need] at hs
    have htrail := (S.anyTrailAt n).piece F p q s (Piece.within_true q)
    have hready : S.Ready n q.need s := hs.call hrefl (by omega)
    have hright := hp.right
    rw [Piece.length_wire] at hright
    have hq := h.piece F p _ q s hp.left hfits.left hbranches.1 hready hlive
    refine hq.andThen (h.piece F _ next q' _ hright hfits.right hbranches.2 ?_ hq.live)
    -- The second piece starts behind a token, or it counts for the need of both.
    cases hc : q.consumes with
    | true =>
      have hreads := (hS.sound n).piece F p q s (hS.laidOut hp.left) hfits.left hready hq.clean
      exact hs.behind htrail (hreads.lt hc) hfits.right.need_le (by omega)
    | false =>
      rw [hc] at hs
      exact hs.call htrail (by simp only [Bool.false_eq_true, if_false] at *; omega)
  | choice alts =>
    rw [Piece.need] at hs
    have halts := alternatives_choice hp hfits hbranches
    have hmeet : Network.java.node (p.move (p.offset + 1)) = .fork [next] := hp 1 _ rfl
    have hblock := h.block F p _ _ alts [] none s halts (Piece.branches_choice hbranches).1
      (hs.call hrefl (by omega)) hlive
    exact hblock.jump hmeet
  | optional alts =>
    rw [Piece.need] at hs
    have halts := alternatives_optional hp hfits hbranches
    have hmeet : Network.java.node (p.move (p.offset + 1)) = .fork [next] := hp 1 _ rfl
    have hblock := h.block F p _ _ alts _ (some (alts.length + 1)) s halts
      (Nat.succ_lt_succ halts.nonempty) (hs.call hrefl (by omega)) hlive
    exact hblock.jump hmeet
  | many alts =>
    rw [Piece.need] at hs
    simp only [parsePiece, hlive.resync hS]
    exact hlive.ends.andThen
      (h.many F p p next alts s hp hfits hbranches (hs.call hrefl (by omega)) hlive)
  | many1 alts =>
    rw [Piece.need] at hs
    simp only [parsePiece, hlive.resync hS]
    exact hlive.ends.andThen
      (h.many1 F p next alts s hp hfits hbranches (hs.call hrefl (by omega)) hlive)

/-- The right-hand side of a rule ends with the rule. -/
theorem CompleteAt.body_step (h : CompleteAt S n) (hS : S.Java) {r : Rule}
    (hs : S.Ready n r.body.piece.need s) (hlive : S.Live F (.start r) s) :
    S.Ends F ⟨r, 0⟩ (S.parseBody n F r s) := by
  obtain ⟨-, hfits, hconsumes⟩ := r.depth_bounds
  have hbranches := r.branches
  obtain ⟨next, hholds, hnext⟩ := java_wired.exists_start r
  refine Ends.meet (p := .start r) ?_ hnext
  unfold parseBody
  rw [hS.body]
  split
  · rename_i piece hplain
    rw [hplain] at hs hfits hbranches hholds
    exact h.piece F _ next piece s hholds hfits hbranches hs hlive
  · rename_i atoms suffixes hops
    rw [hops] at hs hfits hconsumes hbranches hholds
    rw [Body.piece, Piece.need] at hs
    rw [Body.piece, Piece.branches, Bool.and_eq_true] at hbranches
    have hright := hholds.right
    rw [Piece.length_wire] at hright
    have hready : S.Ready n (Piece.choice atoms).need s := hs.call (.refl s) (by omega)
    have hatom := h.piece F (.start r) _ (.choice atoms) s hholds.left hfits.left hbranches.1 hready
      hlive
    have htrail := (S.anyTrailAt n).piece F (.start r) (.choice atoms) s (Piece.within_true _)
    have hreads := (hS.sound n).piece F (.start r) (.choice atoms) s (hS.laidOut hholds.left)
      hfits.left hready hatom.clean
    have hsame : S.parseAtom n F r atoms s = S.parsePiece n F (.start r) (.choice atoms) s :=
      hatom.resync hS false
    -- The atom takes a token, so there is depth enough for the operators.
    have hconsume : (Piece.choice atoms).consumes = true := by
      have hpiece := hconsumes (Rule.consumes_of_operators hops)
      simpa [Body.piece, Piece.consumes] using hpiece
    obtain ⟨-, -, hneed⟩ := hfits.right.many
    simp only [hsame, hatom.fault]
    refine h.operators F ⟨r, 1 + (Piece.choice atoms).size⟩ _ next _ _ _ hright hfits.right
      hbranches.2 ?_ hatom.live
    exact hs.behind htrail (hreads.lt hconsume) (by omega) (by omega)

/-- A rule ends at its end. -/
theorem CompleteAt.rule_step (h : CompleteAt S n) (hS : S.Java) {callers : List Place} {r : Rule}
    {level : Nat} (hs : S.Ready (n + 1) r.rank s) (hlive : S.Live ⟨callers, level⟩ (.start r) s) :
    S.Live ⟨callers, level⟩ ⟨r, 0⟩ (S.parseRule (n + 1) callers r level s).2 := by
  have hneed := r.depth_bounds.1
  have hbody := h.body_step hS (hs.call (.refl s) (by omega)) hlive
  rw [parseRule_succ]
  simp only [hbody.fault]
  exact hbody.live

/-- Every function of the parser follows a run to the end, whatever the bound on its depth. -/
theorem completeAt (hS : S.Java) : ∀ n, CompleteAt S n
  | 0 => .zero
  | n + 1 =>
    have h := completeAt hS n
    { piece := fun _ _ _ piece _ hp hfits hb hs hl => h.piece_step hS piece hp hfits hb hs hl
      block := fun _ _ _ _ _ _ _ _ halts hmany hs hl => h.block_step hS halts hmany hs hl
      turn := fun _ _ _ _ _ _ halts hs hl => h.turn_step halts hs hl
      many := fun _ _ _ _ _ _ hp hfits hb hs hl => h.many_step hS hp hfits hb hs hl
      many1 := fun _ _ _ _ _ hp hfits hb hs hl => h.many1_step hS hp hfits hb hs hl
      operators := fun _ _ _ _ _ _ _ hp hfits hb hs hl => h.operators_step hS hp hfits hb hs hl
      rule := fun _ _ _ _ hs hl => h.rule_step hS hs hl }

end

end Setting

end JavaOutline
