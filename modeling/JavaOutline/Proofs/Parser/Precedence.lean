import JavaOutline.Proofs.Grammar.Levels
import JavaOutline.Proofs.Parser.Sentences
import JavaOutline.Proofs.Parser.Indices
import JavaOutline.Proofs.Prediction.Preference

/-!
# Operators bind by their levels

A call of `expression` with a level only applies operators of this level or higher, so the last
operand of an operator binds as tightly as its place asks for (`Tree.Graded`). No guard says anything
about first operands. That they bind tightly enough as well (`Tree.Settled`) is due to the decisions:
the loop of an operand goes on with an operator as long as that leads to the end of the parse
(`Setting.Java.decide_operator`), so an operator that is left to an outer loop is one that the operand
may not have.

`Setting.ClimbsAt` states both for all functions of the parser at one bound on their depth, for
parses without complaints; that a run goes on to the end of the parse is passed on from behind a
piece to the place before it (`Climbs.accepts`). There is one lemma for the step of each function, and
`Setting.climbsAt` puts them together.
-/

namespace JavaOutline

open Network Tree

/-! ## The loop of an expression -/

theorem direct_expressionLoop : java.direct expressionLoop = none := by decide +kernel

theorem eq_expressionLoop {p : Place} (hrule : p.rule = .expression)
    (hloop : p.rule.body.operatorLoop? = some p.offset) : p = expressionLoop := by
  obtain ⟨r, o⟩ := p
  obtain rfl : r = .expression := hrule
  obtain rfl := Option.some.inj (hloop.symm.trans atLoop_expression)
  rfl

/-- Behind an operand one comes back to the loop, so not every operator need be allowed in it. -/
theorem nested_of_leadsTo (level : Nat) {callers : List Place} {ret : Place}
    (h : LeadsTo expressionLoop ret) : Nested .expression level (ret :: callers) := by
  intro o ho
  obtain rfl := Option.some.inj (ho.symm.trans atLoop_expression)
  exact .inr ⟨ret, callers, rfl, h⟩

/-- At the loop of an expression with these ways back, one more operator of this level or higher
leads to the end of the parse. -/
abbrev Continues (kinds : Array Kind) (level : Nat) (callers : List Place) (i : Nat) : Prop :=
  (Choice.mk kinds i level callers expressionLoop).Good 1

/-- An operator behind a guard at the node `o` that leads to the end of the parse could as well be
applied to the operand from which one comes to `ret`. -/
theorem Accepts.continues {kinds : Array Kind} {level l o next i : Nat} {callers : List Place}
    {ret : Place} {nexts : List Nat} (hproper : Proper .expression (ret :: callers))
    (hret : LeadsTo expressionLoop ret)
    (hblock : java.node ⟨.expression, expressionLoop.offset + 1⟩ = .fork nexts) (ho : o ∈ nexts)
    (hguard : java.node ⟨.expression, o⟩ = .guard l next) (hle : level ≤ l)
    (h : Accepts kinds ⟨.expression, o⟩ callers i) : Continues kinds level (ret :: callers) i := by
  have hvalid : (⟨.expression, o⟩ : Place).Valid := Place.valid_of_node (by rw [hguard]; nofun)
  have hvalid' : (⟨.expression, next⟩ : Place).Valid := (hvalid.guard hguard).valid
  have hmem : next ∈ (java.node ⟨.expression, o⟩).nexts := by
    rw [hguard]
    exact List.mem_cons_self
  -- From the fork of the operators one comes to the guard, and from there to the operator.
  have hblockIn : InLoop .expression expressionLoop.offset ⟨.expression, expressionLoop.offset + 1⟩ :=
    ⟨rfl, Place.valid_of_node (by rw [hblock]; nofun), Nat.le_succ _, by simp⟩
  have hin : InLoop .expression expressionLoop.offset ⟨.expression, o⟩ := by
    refine (loop_expression.inLoop_next hblockIn (by rw [hblock]; exact ho) hvalid).resolve_right
      fun heq => ?_
    exact absurd (congrArg Place.offset heq.1) (by simp)
  have hin' : InLoop .expression expressionLoop.offset ⟨.expression, next⟩ := by
    refine (loop_expression.inLoop_next hin hmem hvalid').resolve_right fun heq => ?_
    have hfork := loop_expression.fork
    rw [← heq.1, hguard] at hfork
    cases hfork
  have hback : Sited ret callers := Sited.back (p := expressionLoop) ⟨valid_expressionLoop, hproper⟩
  have hsited : Sited ⟨.expression, next⟩ callers := ⟨hvalid', hret.rule ▸ hback.proper⟩
  have hinside := (h.of_guard hguard).inside_operand loop_expression hret hsited hin'
  have hviable := hinside.viable (ρ := []) (nested_of_leadsTo level hret) rfl ⟨hvalid', hproper⟩ rfl
    (.behind hvalid (by rw [hguard]; rfl) hmem hvalid')
  exact ⟨_, _, node_expressionLoop, by simp, .fork hblock ho (.guard hguard (fun _ => hle) hviable)⟩

/-- **Wherever one more operator leads to the end of the parse, it is applied.** -/
theorem Setting.Java.decide_operator {S : Setting} (hS : S.Java) {F : Frame} {s : Progress}
    (hF : Proper .expression F.callers) (hnested : Nested .expression F.level F.callers)
    (hpos : s.pos ≤ S.kinds.size) (hgood : Continues S.kinds F.level F.callers s.pos) :
    (S.decide F expressionLoop (some 2) s).1 = .take 1 := by
  have hsited : Sited expressionLoop F.callers := ⟨valid_expressionLoop, hF⟩
  unfold Setting.decide
  rw [hS.net, direct_expressionLoop]
  exact Choice.forecast_operator (C := ⟨S.kinds, s.pos, F.level, F.callers, expressionLoop⟩) hsited
    hnested hpos hS.closed (Choice.shut hsited rfl nofun) rfl hgood

/-! ## What has been read -/

namespace Setting

/-- On the way from the place `p` to the place `q` trees have been built in which all operators are at
their places. The claim about first operands supposes that a run goes on from `q` to the end of the
parse; then one also goes on from `p`. -/
structure Climbs (S : Setting) (callers : List Place) (p q : Place) (s : Progress)
    (ts : List (Tree Nat)) (s' : Progress) : Prop where
  accepts : Accepts S.kinds q callers s'.pos → Accepts S.kinds p callers s.pos
  graded : ∀ n ∈ nodesAll ts, n.1 = .expression → Graded (kindAt S.kinds) n.2
  settled : Accepts S.kinds q callers s'.pos →
    ∀ n ∈ nodesAll ts, n.1 = .expression → Settled (kindAt S.kinds) n.2

/-- No more operators of this level or higher can be applied. -/
def Spent (S : Setting) (level : Nat) (callers : List Place) (i : Nat) : Prop :=
  Nested .expression level callers → ¬ Continues S.kinds level callers i

/-- An operand with this level has ended, from which one comes back to the loop of the operators. -/
def Closes (S : Setting) (level : Nat) (callers : List Place) (i : Nat) : Prop :=
  ∃ ret, Proper .expression (ret :: callers) ∧ LeadsTo expressionLoop ret ∧
    S.Spent level (ret :: callers) i

/-- The last of the trees is an operand that has been read with this level. -/
structure LastOperand (S : Setting) (callers : List Place) (level : Nat)
    (ts : List (Tree Nat)) (i : Nat) : Prop where
  last : ∃ right ∈ rightOperand? ts, ∀ l ∈ level? (kindAt S.kinds) right, level ≤ l
  closes : S.Closes level callers i

/-- The trees have been read by one of the alternatives, and end as it does. -/
def Chosen (S : Setting) (callers : List Place) (alts : List Piece) (a : Step) : Prop :=
  ∃ piece ∈ alts, a.trees.map (symbol (kindAt S.kinds)) ∈ piece.words ∧
    ∀ m, piece.ending? = some m → m ≠ 0 → S.LastOperand callers m a.trees a.state.pos

/-- A piece has been read up to the node `next`. -/
structure Parsed (S : Setting) (F : Frame) (p : Place) (next : Nat) (piece : Piece)
    (s : Progress) (a : Step) : Prop where
  climbs : S.Climbs F.callers p (p.move next) s a.trees a.state
  ending : ∀ m, piece.ending? = some m → m ≠ 0 →
    S.LastOperand F.callers m a.trees a.state.pos
  chosen : ∀ alts, piece = .choice alts → S.Chosen F.callers alts a

/-- The children of an expression up to the place `q` have operators of the frame's level or higher,
and their operands are as they should be. -/
structure Whole (S : Setting) (F : Frame) (q : Place) (children : List (Tree Nat))
    (i : Nat) : Prop where
  level : ∀ l ∈ level? (kindAt S.kinds) children, F.level ≤ l
  graded : Graded (kindAt S.kinds) children
  settled : Accepts S.kinds q F.callers i → Settled (kindAt S.kinds) children

/-- The children of an expression that is to be the first operand of the next operator. -/
structure Operand (S : Setting) (F : Frame) (children : List (Tree Nat)) (i : Nat) :
    Prop extends S.Whole F expressionLoop children i where
  closes : (rightOperand? children).isSome →
    S.Closes (operandLevel (children.map (symbol (kindAt S.kinds)))) F.callers i

variable {S : Setting} {callers : List Place} {n : Nat} {F : Frame} {p q back : Place}
  {s s' t : Progress} {ts us : List (Tree Nat)}

namespace Climbs

theorem nil (h : Accepts S.kinds q callers s'.pos → Accepts S.kinds p callers s.pos) :
    S.Climbs callers p q s [] s' :=
  ⟨h, by simp [nodesAll], by simp [nodesAll]⟩

theorem append {r : Place} (h : S.Climbs callers p q s ts s')
    (h' : S.Climbs callers q r s' us t) : S.Climbs callers p r s (ts ++ us) t where
  accepts ha := h.accepts (h'.accepts ha)
  graded n hn := by
    rw [nodesAll_append, List.mem_append] at hn
    exact hn.elim (h.graded n) (h'.graded n)
  settled ha n hn := by
    rw [nodesAll_append, List.mem_append] at hn
    exact hn.elim (h.settled (h'.accepts ha) n) (h'.settled ha n)

/-- The way may have begun earlier, without any trees. -/
theorem before {p' : Place} (h : S.Climbs callers p q s ts s')
    (hp : Accepts S.kinds p callers s.pos → Accepts S.kinds p' callers t.pos) :
    S.Climbs callers p' q t ts s' :=
  { h with accepts := fun ha => hp (h.accepts ha) }

/-- The way may have gone on, without any trees. -/
theorem behind {q' : Place} (h : S.Climbs callers p q s ts s')
    (hq : Accepts S.kinds q' callers t.pos → Accepts S.kinds q callers s'.pos) :
    S.Climbs callers p q' s ts t where
  accepts ha := h.accepts (hq ha)
  graded := h.graded
  settled ha := h.settled (hq ha)

theorem named (h : S.Climbs callers p q s ts s') (role : Role) :
    S.Climbs callers p q s (lastWithRole role ts) s' where
  accepts := h.accepts
  graded := by rw [nodesAll_lastWithRole]; exact h.graded
  settled := by rw [nodesAll_lastWithRole]; exact h.settled

/-- The trees become the children of a node. -/
theorem node {r : Rule} (h : S.Climbs callers p q s ts s') (role : Option Role)
    (hr : r = .expression → Graded (kindAt S.kinds) ts ∧
      (Accepts S.kinds q callers s'.pos → Settled (kindAt S.kinds) ts)) :
    S.Climbs callers p q s [.node role r ts] s' where
  accepts := h.accepts
  graded n hn := by
    rw [nodesAll, nodes, nodesAll, List.append_nil, List.mem_cons] at hn
    rcases hn with rfl | hn
    · exact fun heq => (hr heq).1
    · exact h.graded n hn
  settled ha n hn := by
    rw [nodesAll, nodes, nodesAll, List.append_nil, List.mem_cons] at hn
    rcases hn with rfl | hn
    · exact fun heq => (hr heq).2 ha
    · exact h.settled ha n hn

end Climbs

/-! ## The functions of the parser -/

/-- With a bound `n` on their depth, the functions of the parser put operators at their places,
provided that they start with enough depth at the right places and end without a complaint. -/
structure ClimbsAt (S : Setting) (n : Nat) : Prop where
  piece : ∀ (F : Frame) (p : Place) (next : Nat) (piece : Piece) (s : Progress),
    Network.java.Holds p (piece.wire p.offset next) → piece.Fits → piece.branches = true →
    S.Ready n piece.need s → Proper p.rule F.callers → (S.parsePiece n F p piece s).Clean →
    S.Parsed F p next piece s (S.parsePiece n F p piece s)
  block : ∀ (F : Frame) (p : Place) (base meet : Nat) (alts : List Piece) (s : Progress),
    Alternatives p base meet alts [] → S.Ready n (1 + Piece.maxNeed alts) s →
    Proper p.rule F.callers → (S.parseBlock n F p base alts none s).Clean →
    S.Climbs F.callers p (p.move meet) s (S.parseBlock n F p base alts none s).trees
        (S.parseBlock n F p base alts none s).state ∧
      S.Chosen F.callers alts (S.parseBlock n F p base alts none s)
  optional : ∀ (F : Frame) (p : Place) (base meet : Nat) (alts : List Piece) (alt : Nat)
    (s : Progress), Alternatives p base meet alts [meet] → S.Ready n (1 + Piece.maxNeed alts) s →
    Proper p.rule F.callers → (S.parseBlock n F p base alts (some alt) s).Clean →
    S.Climbs F.callers p (p.move meet) s (S.parseBlock n F p base alts (some alt) s).trees
      (S.parseBlock n F p base alts (some alt) s).state
  turn : ∀ (F : Frame) (p : Place) (base meet : Nat) (alts : List Piece) (s : Progress),
    Alternatives p base meet alts [] → S.Ready n (2 + Piece.maxNeed alts) s →
    Proper p.rule F.callers → (S.parseTurn n F p base alts s).Clean →
    S.Climbs F.callers p (p.move meet) s (S.parseTurn n F p base alts s).trees
      (S.parseTurn n F p base alts s).state
  many : ∀ (F : Frame) (p back : Place) (next : Nat) (alts : List Piece) (s : Progress),
    Network.java.Holds p ((Piece.many alts).wire p.offset next) → (Piece.many alts).Fits →
    (Piece.many alts).branches = true → S.Ready n (3 + Piece.maxNeed alts) s →
    Proper p.rule F.callers → (S.parseMany n F p back alts s).Clean →
    S.Climbs F.callers p (p.move next) s (S.parseMany n F p back alts s).trees
      (S.parseMany n F p back alts s).state
  many1 : ∀ (F : Frame) (p : Place) (next : Nat) (alts : List Piece) (s : Progress),
    Network.java.Holds p ((Piece.many1 alts).wire p.offset next) → (Piece.many1 alts).Fits →
    (Piece.many1 alts).branches = true → S.Ready n (3 + Piece.maxNeed alts) s →
    Proper p.rule F.callers → (S.parseMany1 n F p alts s).Clean →
    S.Climbs F.callers p (p.move next) s (S.parseMany1 n F p alts s).trees
      (S.parseMany1 n F p alts s).state
  operators : ∀ (F : Frame) (p back : Place) (next : Nat) (atoms : List Piece)
    (suffixes : List Suffix) (operand : List (Tree Nat)) (s₀ s : Progress),
    p.rule.body = .operators atoms suffixes → p.rule.body.operatorLoop? = some p.offset →
    Network.java.Holds p ((Piece.many (suffixes.map Suffix.piece)).wire p.offset next) →
    (Piece.many (suffixes.map Suffix.piece)).Fits →
    (Piece.many (suffixes.map Suffix.piece)).branches = true →
    S.Ready n (1 + Piece.maxNeed (suffixes.map Suffix.piece)) s → Proper p.rule F.callers →
    S.Climbs F.callers (.start p.rule) p s₀ operand s →
    (p.rule = .expression → S.Operand F operand s.pos) →
    (S.parseOperators n F p back (suffixes.map Suffix.piece) operand s).Clean →
    S.Climbs F.callers (.start p.rule) (p.move next) s₀
        (S.parseOperators n F p back (suffixes.map Suffix.piece) operand s).trees
        (S.parseOperators n F p back (suffixes.map Suffix.piece) operand s).state ∧
      (p.rule = .expression →
        S.Whole F (p.move next)
            (S.parseOperators n F p back (suffixes.map Suffix.piece) operand s).trees
            (S.parseOperators n F p back (suffixes.map Suffix.piece) operand s).state.pos ∧
          S.Spent F.level F.callers
            (S.parseOperators n F p back (suffixes.map Suffix.piece) operand s).state.pos)
  rule : ∀ (callers : List Place) (r : Rule) (level : Nat) (s : Progress), S.Ready n r.rank s →
    Proper r callers → (S.parseRule n callers r level s).2.complaints = [] →
    S.Climbs callers (.start r) ⟨r, 0⟩ s [(S.parseRule n callers r level s).1]
        (S.parseRule n callers r level s).2 ∧
      (r = .expression →
        (∃ children, (S.parseRule n callers r level s).1 = .node none .expression children ∧
          ∀ l ∈ level? (kindAt S.kinds) children, level ≤ l) ∧
        S.Spent level callers (S.parseRule n callers r level s).2.pos)

theorem ClimbsAt.zero : ClimbsAt S 0 where
  piece _ _ _ piece _ _ _ _ h := (not_ready_zero piece.need_pos h).elim
  block _ _ _ _ _ _ _ h := (not_ready_zero (by omega) h).elim
  optional _ _ _ _ _ _ _ _ h := (not_ready_zero (by omega) h).elim
  turn _ _ _ _ _ _ _ h := (not_ready_zero (by omega) h).elim
  many _ _ _ _ _ _ _ _ _ h := (not_ready_zero (by omega) h).elim
  many1 _ _ _ _ _ _ _ _ h := (not_ready_zero (by omega) h).elim
  operators _ _ _ _ _ _ _ _ _ _ _ _ _ _ h := (not_ready_zero (by omega) h).elim
  rule _ r _ _ h := (not_ready_zero (Nat.zero_lt_of_lt r.depth_bounds.1) h).elim

/-- A token that is taken leads behind it. -/
theorem climbs_accept {ks : KindSet} {next : Nat} {after : Place} {assumed : List (Tree Nat)}
    (hp : Network.java.node p = .take ks next) (hs : s.Honest)
    (hclean : (S.accept F p ks after assumed s).Clean) :
    S.Climbs F.callers p (p.move next) s (S.accept F p ks after assumed s).trees
      (S.accept F p ks after assumed s).state := by
  obtain ⟨hk, heq⟩ := accept_clean hs hclean
  rw [heq]
  refine ⟨fun ha => .take hp hk ?_, ?_, ?_⟩
  · rw [takeNext, Step.ok, Progress.advance_pos] at ha
    exact ha
  all_goals simp [takeNext, Step.ok, Progress.leaf, Progress.settle, nodesAll, nodes]

/-- What has been read in a call has been read where the call is. -/
theorem Climbs.of_call {r : Rule} {level next : Nat} (hp : Network.java.node p = .call r level next)
    (h : S.Climbs (p.move next :: callers) (.start r) ⟨r, 0⟩ s ts s') :
    S.Climbs callers p (p.move next) s ts s' where
  accepts ha := .drift (.call hp) (h.accepts (.drift (.back (node_zero r)) ha))
  graded := h.graded
  settled ha := h.settled (.drift (.back (node_zero r)) ha)

/-- What stands before the last operand does not matter for it. -/
theorem LastOperand.append {m i : Nat} (h : S.LastOperand callers m us i)
    (ts : List (Tree Nat)) : S.LastOperand callers m (ts ++ us) i := by
  obtain ⟨right, hright, hlevel⟩ := h.last
  exact ⟨⟨right, rightOperand?_append hright, hlevel⟩, h.closes⟩

/-- A call reads its rule, and a call of an operand reads an operand with its level. -/
theorem ClimbsAt.call (h : ClimbsAt S n) (hS : S.Java) {r : Rule} {level next : Nat}
    (hp : Network.java.node p = .call r level next) (hs : S.Ready n r.rank s)
    (hF : Proper p.rule F.callers)
    (hclean : (S.parseRule n (S.behind p :: F.callers) r level s).2.complaints = []) :
    S.Climbs F.callers p (p.move next) s
        [(S.parseRule n (S.behind p :: F.callers) r level s).1]
        (S.parseRule n (S.behind p :: F.callers) r level s).2 ∧
      (r = .expression → level ≠ 0 → S.LastOperand F.callers level
        [(S.parseRule n (S.behind p :: F.callers) r level s).1]
        (S.parseRule n (S.behind p :: F.callers) r level s).2.pos) := by
  have hbehind : S.behind p = p.move next := by
    rw [Setting.behind, hS.net, hp]
  have hvalid : p.Valid := Place.valid_of_node (by rw [hp]; rintro ⟨⟩)
  have hproper : Proper r (p.move next :: F.callers) := .cons hvalid hp hF
  rw [hbehind] at hclean ⊢
  obtain ⟨hclimbs, hexpression⟩ := h.rule _ r level s hs hproper hclean
  refine ⟨hclimbs.of_call hp, ?_⟩
  rintro rfl hlevel
  obtain ⟨⟨children, htree, hlevels⟩, hspent⟩ := hexpression rfl
  obtain ⟨-, o, ho, hleads⟩ := leadsTo_of_call hvalid hp hlevel
  obtain rfl := Option.some.inj (ho.symm.trans atLoop_expression)
  refine ⟨⟨children, ?_, hlevels⟩, _, hproper, hleads, hspent⟩
  rw [htree]
  rfl

/-- A piece is read, by cases on the piece. -/
theorem ClimbsAt.piece_step (h : ClimbsAt S n) (hS : S.Java) {next : Nat} (piece : Piece)
    (hp : Network.java.Holds p (piece.wire p.offset next)) (hfits : piece.Fits)
    (hbranches : piece.branches = true) (hs : S.Ready (n + 1) piece.need s)
    (hF : Proper p.rule F.callers) (hclean : (S.parsePiece (n + 1) F p piece s).Clean) :
    S.Parsed F p next piece s (S.parsePiece (n + 1) F p piece s) := by
  have hrefl : AnyTrail S s [] s := .refl s
  cases piece with
  | nothing => exact ⟨.nil fun ha => .of_jump hp.head ha, by rintro _ ⟨⟩, by rintro _ ⟨⟩⟩
  | token k => exact ⟨climbs_accept hp.head hs.honest hclean, by rintro _ ⟨⟩, by rintro _ ⟨⟩⟩
  | oneOf ks => exact ⟨climbs_accept hp.head hs.honest hclean, by rintro _ ⟨⟩, by rintro _ ⟨⟩⟩
  | guard level =>
    have hfault := hclean.fault
    simp only [parsePiece] at hfault ⊢
    split at hfault
    · rename_i hle
      rw [if_pos hle]
      exact ⟨.nil fun ha => .drift (.guard hp.head) ha, by rintro _ ⟨⟩, by rintro _ ⟨⟩⟩
    · cases hfault
  | call r level =>
    rw [Piece.need] at hs
    obtain ⟨hclimbs, hoperand⟩ := h.call hS hp.head (hs.call hrefl (by omega)) hF hclean.complaints
    refine ⟨hclimbs, fun m hm => ?_, by rintro _ ⟨⟩⟩
    cases r with
    | expression =>
      obtain rfl := Option.some.inj hm
      exact hoperand rfl
    | _ => cases hm
  | named role q =>
    rw [Piece.need] at hs
    have hq : (S.parsePiece n F p q s).Clean := ⟨hclean.fault, hclean.complaints⟩
    have hparsed := h.piece F p next q s hp hfits.named hbranches (hs.call hrefl (by omega)) hF hq
    simp only [parsePiece, hq.fault]
    exact ⟨hparsed.climbs.named role, by rintro _ ⟨⟩, by rintro _ ⟨⟩⟩
  | andThen q q' =>
    rw [Piece.branches, Bool.and_eq_true] at hbranches
    have hright := hp.right
    rw [Piece.length_wire] at hright
    obtain ⟨-, hs', hq', heq⟩ := (hS.sound n).andThen_parts (hS.laidOut hp) hfits hs hclean
    have hq : (S.parsePiece n F p q s).Clean :=
      (Step.Clean.andThen hclean ((S.anyTrailAt n).piece F _ q' _ (Piece.within_true q'))).1
    rw [Piece.need] at hs
    have hfirst := h.piece F p _ q s hp.left hfits.left hbranches.1 (hs.call hrefl (by omega)) hF hq
    have hsecond := h.piece F _ next q' _ hright hfits.right hbranches.2 hs' hF hq'
    rw [heq]
    exact ⟨hfirst.climbs.append hsecond.climbs, fun m hm hne => (hsecond.ending m hm hne).append _,
      by rintro _ ⟨⟩⟩
  | choice alts =>
    rw [Piece.need] at hs
    have hmeet : Network.java.node (p.move (p.offset + 1)) = .fork [next] := hp 1 _ rfl
    obtain ⟨hclimbs, hchosen⟩ := h.block F p _ _ alts s (alternatives_choice hp hfits hbranches)
      (hs.call hrefl (by omega)) hF hclean
    refine ⟨hclimbs.behind (Accepts.of_jump hmeet), by rintro _ ⟨⟩, ?_⟩
    rintro _ ⟨⟩
    exact hchosen
  | optional alts =>
    rw [Piece.need] at hs
    have hmeet : Network.java.node (p.move (p.offset + 1)) = .fork [next] := hp 1 _ rfl
    have hclimbs := h.optional F p _ _ alts _ s (alternatives_optional hp hfits hbranches)
      (hs.call hrefl (by omega)) hF hclean
    exact ⟨hclimbs.behind (Accepts.of_jump hmeet), by rintro _ ⟨⟩, by rintro _ ⟨⟩⟩
  | many alts =>
    rw [Piece.need] at hs
    have heq : S.parsePiece (n + 1) F p (.many alts) s = S.parseMany n F p p alts s :=
      resync_andThen_clean hs.honest
        (fun t => (S.anyTrailAt n).many F p p alts t (Piece.allWithin_true alts)) hclean
    rw [heq] at hclean ⊢
    exact ⟨h.many F p p next alts s hp hfits hbranches (hs.call hrefl (by omega)) hF hclean, by rintro _ ⟨⟩,
      by rintro _ ⟨⟩⟩
  | many1 alts =>
    rw [Piece.need] at hs
    have heq : S.parsePiece (n + 1) F p (.many1 alts) s = S.parseMany1 n F p alts s :=
      resync_andThen_clean hs.honest
        (fun t => (S.anyTrailAt n).many1 F p alts t (Piece.allWithin_true alts)) hclean
    rw [heq] at hclean ⊢
    exact ⟨h.many1 F p next alts s hp hfits hbranches (hs.call hrefl (by omega)) hF hclean, by rintro _ ⟨⟩,
      by rintro _ ⟨⟩⟩

/-- The alternative that is taken leads from the fork to where the alternatives meet. -/
theorem ClimbsAt.alternative (h : ClimbsAt S n) {base meet i : Nat} {alts : List Piece}
    {exits : List Nat} {piece : Piece} (halts : Alternatives p base meet alts exits)
    (hs : S.Ready n (Piece.maxNeed alts) s) (hF : Proper p.rule F.callers)
    (hq : alternative? p.rule base alts i = some (q, piece))
    (hclean : (S.parsePiece n F q piece s).Clean) :
    S.Climbs F.callers p (p.move meet) s (S.parsePiece n F q piece s).trees
        (S.parsePiece n F q piece s).state ∧
      ∀ m, piece.ending? = some m → m ≠ 0 → S.LastOperand F.callers m
        (S.parsePiece n F q piece s).trees (S.parsePiece n F q piece s).state.pos := by
  obtain ⟨hmem, start, hstart, rfl, exit, hholds, hexit⟩ := halts.of_alternative? hq
  have hneed := Piece.need_le_of_mem hmem
  have hparsed := h.piece F (p.move start) exit piece s hholds (halts.fits piece hmem)
    (Piece.branches_of_mem halts.branches hmem) (hs.call (.refl s) (by omega)) hF hclean
  refine ⟨(hparsed.climbs.before ?_).behind ?_, hparsed.ending⟩
  · exact fun ha => .drift (.fork halts.fork (List.mem_append_left _ hstart)) ha
  · rcases hexit with rfl | hfork
    · exact id
    · exact Accepts.of_jump hfork

/-- Alternatives without a way out are read by one of them. -/
theorem ClimbsAt.block_step (h : ClimbsAt S n) (hS : S.Java) {base meet : Nat}
    {alts : List Piece} (halts : Alternatives p base meet alts [])
    (hs : S.Ready (n + 1) (1 + Piece.maxNeed alts) s) (hF : Proper p.rule F.callers)
    (hclean : (S.parseBlock (n + 1) F p base alts none s).Clean) :
    S.Climbs F.callers p (p.move meet) s (S.parseBlock (n + 1) F p base alts none s).trees
        (S.parseBlock (n + 1) F p base alts none s).state ∧
      S.Chosen F.callers alts (S.parseBlock (n + 1) F p base alts none s) := by
  obtain ⟨i, q, piece, t, hq, htrail, hpos, heq⟩ :=
    parseBlock_taken (hS.net ▸ java_wired) (hS.blockAt halts) hs.honest hclean
  rw [heq] at hclean ⊢
  have ht : S.Ready n (Piece.maxNeed alts) t := hs.call htrail (by omega)
  obtain ⟨hclimbs, hending⟩ := h.alternative halts ht hF hq hclean
  have hmem : piece ∈ alts := mem_of_alternative? hq
  have hneed := Piece.need_le_of_mem hmem
  have hlaid := (hS.blockAt halts).alternatives.of_alternative? hq
  have hreads := (hS.sound n).piece F q piece t hlaid (halts.fits piece hmem)
    (ht.call (.refl t) (by omega)) hclean
  exact ⟨hclimbs.before fun ha => hpos ▸ ha, piece, hmem, hreads.word, hending⟩

/-- Alternatives with a way out. -/
theorem ClimbsAt.optional_step (h : ClimbsAt S n) {base meet alt : Nat} {alts : List Piece}
    (halts : Alternatives p base meet alts [meet])
    (hs : S.Ready (n + 1) (1 + Piece.maxNeed alts) s) (hF : Proper p.rule F.callers)
    (hclean : (S.parseBlock (n + 1) F p base alts (some alt) s).Clean) :
    S.Climbs F.callers p (p.move meet) s
      (S.parseBlock (n + 1) F p base alts (some alt) s).trees
      (S.parseBlock (n + 1) F p base alts (some alt) s).state := by
  rw [parseBlock_succ] at hclean ⊢
  have heq := resync_andThen_clean hs.honest
    (fun t => (S.anyTrailAt n).chosen (Piece.allWithin_true alts)) hclean
  rw [heq] at hclean ⊢
  unfold parseChosen at hclean ⊢
  split at hclean
  · exact absurd hclean.fault (by simp [Step.fail])
  · rename_i i t hd
    have hpos : t.pos = s.pos := decide_pos hd
    split at hclean
    · rename_i q piece hq
      have ht : S.Ready n (Piece.maxNeed alts) t := hs.call (decide_trail hd) (by omega)
      exact (h.alternative halts ht hF hq hclean).1.before fun ha => hpos ▸ ha
    · refine .nil fun ha => .drift (.fork halts.fork (List.mem_append_right _ List.mem_cons_self)) ?_
      rw [← hpos]
      exact ha

/-- A turn of a loop. -/
theorem ClimbsAt.turn_step (h : ClimbsAt S n) {base meet : Nat} {alts : List Piece}
    (halts : Alternatives p base meet alts []) (hs : S.Ready (n + 1) (2 + Piece.maxNeed alts) s)
    (hF : Proper p.rule F.callers) (hclean : (S.parseTurn (n + 1) F p base alts s).Clean) :
    S.Climbs F.callers p (p.move meet) s (S.parseTurn (n + 1) F p base alts s).trees
      (S.parseTurn (n + 1) F p base alts s).state := by
  simp only [parseTurn] at hclean ⊢
  split at hclean
  · rename_i piece
    have hs' : S.Ready n (Piece.maxNeed [piece]) s := hs.call (.refl s) (by omega)
    exact (h.alternative halts hs' hF (i := 1) rfl hclean).1
  · exact (h.block F p base meet alts s halts (hs.call (.refl s) (by omega)) hF hclean).1

/-- A turn of a loop leads back to its fork. -/
theorem Climbs.turn {next : Nat} {alts : List Piece} (hloop : LoopAt p next alts)
    (hpos : t.pos = s.pos)
    (h : S.Climbs callers (p.move (p.offset + 1)) (p.move (p.offset + 2)) t ts s') :
    S.Climbs callers p p s ts s' := by
  refine (h.before fun ha => ?_).behind fun ha => ?_
  · exact .drift (.fork hloop.fork (by simp)) (hpos ▸ ha)
  · exact .of_jump hloop.meet (.of_jump hloop.back ha)

/-- A loop reads turns, one after the other. -/
theorem ClimbsAt.many_step (h : ClimbsAt S n) (hS : S.Java) {next : Nat} {alts : List Piece}
    (hp : Network.java.Holds p ((Piece.many alts).wire p.offset next))
    (hfits : (Piece.many alts).Fits) (hbranches : (Piece.many alts).branches = true)
    (hs : S.Ready (n + 1) (3 + Piece.maxNeed alts) s) (hF : Proper p.rule F.callers)
    (hclean : (S.parseMany (n + 1) F p back alts s).Clean) :
    S.Climbs F.callers p (p.move next) s (S.parseMany (n + 1) F p back alts s).trees
      (S.parseMany (n + 1) F p back alts s).state := by
  have hloop := loopAt hp hfits hbranches
  simp only [parseMany] at hclean ⊢
  split at hclean
  · exact absurd hclean.fault (by simp [Step.fail])
  · rename_i t hd
    have hpos : t.pos = s.pos := decide_pos hd
    have ht : S.Ready n (2 + Piece.maxNeed alts) t := hs.call (decide_trail hd) (by omega)
    obtain ⟨hturn, -, hready, hrest, heq⟩ := (hS.sound n).many_turn (hS.laidOut hp) hfits ht rfl hclean
    have hclimbs := h.turn F _ _ _ alts t hloop.turn ht hF hturn
    have hrests := h.many F p _ next alts _ hp hfits hbranches hready hF hrest
    rw [heq]
    exact (Climbs.turn hloop hpos hclimbs).append hrests
  · rename_i i t hne hd
    have hpos : t.pos = s.pos := decide_pos hd
    refine .nil fun ha => .drift (.fork hloop.fork (by simp)) (.of_jump hloop.leave ?_)
    rw [← hpos]
    exact ha

/-- A loop with at least one turn reads turns, one after the other. -/
theorem ClimbsAt.many1_step (h : ClimbsAt S n) (hS : S.Java) {next : Nat} {alts : List Piece}
    (hp : Network.java.Holds p ((Piece.many1 alts).wire p.offset next))
    (hfits : (Piece.many1 alts).Fits) (hbranches : (Piece.many1 alts).branches = true)
    (hs : S.Ready (n + 1) (3 + Piece.maxNeed alts) s) (hF : Proper p.rule F.callers)
    (hclean : (S.parseMany1 (n + 1) F p alts s).Clean) :
    S.Climbs F.callers p (p.move next) s (S.parseMany1 (n + 1) F p alts s).trees
      (S.parseMany1 (n + 1) F p alts s).state := by
  have halts := alternatives_many1 hp hfits hbranches
  have hmeet : Network.java.node (p.move (p.offset + 1)) = .fork [p.offset + 2] := hp 1 _ rfl
  have hfork : Network.java.node (p.move (p.offset + 2)) = .fork [p.offset, p.offset + 3] :=
    hp 2 _ rfl
  have hleave : Network.java.node (p.move (p.offset + 3)) = .fork [next] := hp 3 _ rfl
  have hs' : S.Ready n (2 + Piece.maxNeed alts) s := hs.call (.refl s) (by omega)
  rw [parseMany1_succ] at hclean ⊢
  obtain ⟨hturn, -, hready, hrest, heq⟩ := (hS.sound n).many1_turn (hS.laidOut hp) hfits hs' rfl hclean
  have hclimbs := h.turn F p _ _ alts s halts hs' hF hturn
  rw [heq]
  refine (hclimbs.behind (Accepts.of_jump hmeet)).append ?_
  unfold parseRepeat at hrest ⊢
  split at hrest
  · exact absurd hrest.fault (by simp [Step.fail])
  · rename_i t hd
    have hpos : t.pos = _ := decide_pos hd
    have hrests := h.many1 F p next alts t hp hfits hbranches
      (hready.call (decide_trail hd) (by omega)) hF hrest
    exact hrests.before fun ha => .drift (.fork hfork (by simp)) (hpos ▸ ha)
  · rename_i i t hne hd
    have hpos : t.pos = _ := decide_pos hd
    refine .nil fun ha => .drift (.fork hfork (by simp)) (.of_jump hleave ?_)
    rw [← hpos]
    exact ha

/-- The children that a piece of the rule has given end as the piece does. -/
theorem Operand.of_levelled {piece : Piece} {level : Option Nat} {children : List (Tree Nat)}
    {i : Nat} (hlevelled : piece.Levelled level (children.map (symbol (kindAt S.kinds))))
    (hlevel : ∀ l ∈ level, F.level ≤ l)
    (hending : ∀ m, piece.ending? = some m → m ≠ 0 → S.LastOperand F.callers m children i)
    (hsettled : Accepts S.kinds expressionLoop F.callers i →
      Settled (kindAt S.kinds) children) : S.Operand F children i := by
  have hlast : (rightOperand? children).isSome → S.LastOperand F.callers
      (operandLevel (children.map (symbol (kindAt S.kinds)))) children i := by
    intro hright
    cases hm : piece.ending? with
    | none => exact absurd (rightOperand?_isSome_iff.1 hright) (hlevelled.last hm)
    | some m =>
      rw [hlevelled.ending m hm]
      exact hending m hm (hlevelled.ending m hm ▸ operandLevel_ne_zero _)
  refine ⟨⟨?_, ?_, hsettled⟩, fun hright => (hlast hright).closes⟩
  · intro l hl
    rw [level?, hlevelled.level] at hl
    exact hlevel l hl
  · intro right hright
    obtain ⟨right', hright', hlevels⟩ := (hlast (Option.isSome_of_mem hright)).last
    obtain rfl := Option.mem_unique hright hright'
    exact hlevels

/-- An atom may be the first operand of an operator. -/
theorem Operand.of_chosen {atoms : List Piece} {suffixes : List Suffix} {a : Step}
    (hbody : Rule.expression.body = .operators atoms suffixes)
    (h : S.Chosen F.callers atoms a) : S.Operand F a.trees a.state.pos := by
  obtain ⟨atom, hmem, hword, hending⟩ := h
  have hlevelled := levelled_of_atom hbody hmem hword
  refine .of_levelled hlevelled nofun hending fun _ l hl => ?_
  rw [level?, hlevelled.level] at hl
  cases hl

/-- A guard is passed only if its level is allowed. -/
theorem level_le_of_guard {level : Nat} (hs : S.Ready n 1 s)
    (hclean : (S.parsePiece n F q (.guard level) s).Clean) : F.level ≤ level := by
  cases n with
  | zero => exact (not_ready_zero Nat.one_pos hs).elim
  | succ n =>
    have hfault := hclean.fault
    simp only [parsePiece] at hfault
    split at hfault
    · assumption
    · cases hfault

/-- An operator is read only if its level is allowed. -/
theorem level_le_of_suffix {suffix : Suffix} (hs : S.Ready n suffix.piece.need s)
    (hclean : (S.parsePiece n F q suffix.piece s).Clean) : F.level ≤ suffix.level := by
  cases n with
  | zero => exact (not_ready_zero (Piece.need_pos _) hs).elim
  | succ n =>
    have hguard := (Step.Clean.andThen hclean
      ((S.anyTrailAt n).piece F _ suffix.rest _ (Piece.within_true _))).1
    refine level_le_of_guard (hs.call (.refl s) ?_) hguard
    simp only [Suffix.piece, Piece.need]
    omega

/-- The operand and an operator behind it are an operand for the next operator. The operator could
have been applied to the last operand of the operand, if that allowed it. -/
theorem ClimbsAt.suffix (h : ClimbsAt S n) (hS : S.Java) {atoms : List Piece}
    {suffixes : List Suffix} {operand : List (Tree Nat)} {i next : Nat} {piece : Piece}
    (hbody : Rule.expression.body = .operators atoms suffixes)
    (hp : Network.java.Holds expressionLoop
      ((Piece.many (suffixes.map Suffix.piece)).wire expressionLoop.offset next))
    (hfits : (Piece.many (suffixes.map Suffix.piece)).Fits)
    (hbranches : (Piece.many (suffixes.map Suffix.piece)).branches = true)
    (hs : S.Ready n (Piece.maxNeed (suffixes.map Suffix.piece)) s)
    (hF : Proper .expression F.callers) (hoperand : S.Operand F operand s.pos)
    (hq : alternative? .expression (expressionLoop.offset + 5) (suffixes.map Suffix.piece) i =
      some (q, piece))
    (hclean : (S.parsePiece n F q piece s).Clean) :
    S.Operand F (.node none .expression operand :: (S.parsePiece n F q piece s).trees)
      (S.parsePiece n F q piece s).state.pos := by
  have hloop := loopAt hp hfits hbranches
  have halts := hloop.turn
  obtain ⟨hmem, start, hstart, rfl, exit, hholds, hexit⟩ := halts.of_alternative? hq
  obtain ⟨suffix, hsuffix, rfl⟩ := List.mem_map.1 hmem
  have hneed := Piece.need_le_of_mem hmem
  have hready : S.Ready n suffix.piece.need s := hs.call (.refl s) (by omega)
  have hparsed := h.piece F _ exit suffix.piece s hholds (halts.fits _ hmem)
    (Piece.branches_of_mem halts.branches hmem) hready hF hclean
  have hreads := (hS.sound n).piece F _ suffix.piece s (hS.laidOut hholds) (halts.fits _ hmem) hready
    hclean
  have hword := hreads.word
  rw [Suffix.piece, Piece.words_andThen, Piece.words_guard, one_mul] at hword
  have hlevelled := levelled_of_suffix hbody hsuffix hword
  have hle := level_le_of_suffix hready hclean
  refine .of_levelled hlevelled ?_ ?_ ?_
  · rintro _ ⟨⟩
    exact hle
  · exact fun m hm hne => (hparsed.ending m hm hne).append [_]
  · intro haccepts l hl left hleft hright
    obtain rfl := Option.some.inj hleft
    obtain rfl := Option.some.inj (hlevelled.level.symm.trans hl)
    refine Nat.lt_of_not_le fun hlevel => ?_
    obtain ⟨ret, hproper, hleads, hspent⟩ := hoperand.closes hright
    refine hspent (nested_of_leadsTo _ hleads) ?_
    have hmeet : Accepts S.kinds ⟨.expression, expressionLoop.offset + 2⟩ F.callers _ :=
      .of_jump hloop.meet (.of_jump hloop.back haccepts)
    have hbegin := hparsed.climbs.accepts (hexit.elim (fun heq => heq ▸ hmeet) (.of_jump · hmeet))
    exact hbegin.continues hproper hleads halts.fork (List.mem_append_left _ hstart)
      hholds.left.head hlevel

/-- Each operator makes a node of what has been read, and the loop is left where no more operators can
be applied. -/
theorem ClimbsAt.operators_step (h : ClimbsAt S n) (hS : S.Java) {next : Nat}
    {atoms : List Piece} {suffixes : List Suffix} {operand : List (Tree Nat)} {s₀ : Progress}
    (hbody : p.rule.body = .operators atoms suffixes)
    (hat : p.rule.body.operatorLoop? = some p.offset)
    (hp : Network.java.Holds p ((Piece.many (suffixes.map Suffix.piece)).wire p.offset next))
    (hfits : (Piece.many (suffixes.map Suffix.piece)).Fits)
    (hbranches : (Piece.many (suffixes.map Suffix.piece)).branches = true)
    (hs : S.Ready (n + 1) (1 + Piece.maxNeed (suffixes.map Suffix.piece)) s)
    (hF : Proper p.rule F.callers) (hclimbs : S.Climbs F.callers (.start p.rule) p s₀ operand s)
    (hoperand : p.rule = .expression → S.Operand F operand s.pos)
    (hclean : (S.parseOperators (n + 1) F p back (suffixes.map Suffix.piece) operand s).Clean) :
    S.Climbs F.callers (.start p.rule) (p.move next) s₀
        (S.parseOperators (n + 1) F p back (suffixes.map Suffix.piece) operand s).trees
        (S.parseOperators (n + 1) F p back (suffixes.map Suffix.piece) operand s).state ∧
      (p.rule = .expression →
        S.Whole F (p.move next)
            (S.parseOperators (n + 1) F p back (suffixes.map Suffix.piece) operand s).trees
            (S.parseOperators (n + 1) F p back (suffixes.map Suffix.piece) operand s).state.pos ∧
          S.Spent F.level F.callers
            (S.parseOperators (n + 1) F p back (suffixes.map Suffix.piece) operand s).state.pos) := by
  obtain ⟨hall, hconsume, hneed⟩ := hfits.many
  have hloop := loopAt hp hfits hbranches
  rcases parseOperators_clean (hS.net ▸ java_wired) (hS.laidOut hp) hs.honest hclean with
    ⟨i, t, hd, hne, heq⟩ | ⟨i, q, piece, t, hq, hbefore, hpos, hpiece, heq⟩
  · have hpos : t.pos = s.pos := decide_pos hd
    have hback : Accepts S.kinds (p.move next) F.callers t.pos → Accepts S.kinds p F.callers s.pos :=
      fun ha => .drift (.fork hloop.fork (by simp)) (.of_jump hloop.leave (hpos ▸ ha))
    rw [heq]
    refine ⟨hclimbs.behind hback, fun hrule => ?_⟩
    obtain rfl := eq_expressionLoop hrule hat
    have hoperand := hoperand hrule
    refine ⟨{ hoperand.toWhole with settled := fun ha => hoperand.settled (hback ha) },
      fun hnested hgood => hne ?_⟩
    have htake := hS.decide_operator hF hnested hs.pos_le (hpos ▸ hgood)
    rw [hd] at htake
    exact Verdict.take.inj htake
  · rw [heq] at hclean ⊢
    have htrail := (S.anyTrailAt n).piece F q piece t (Piece.within_true piece)
    have ht : S.Ready n (Piece.maxNeed (suffixes.map Suffix.piece)) t := hs.call hbefore (by omega)
    obtain ⟨hturn, -⟩ := h.alternative hloop.turn ht hF hq hpiece
    have hreads := (hS.sound n).alternative (hS.blockAt hloop.turn).alternatives hall ht hq hpiece
    have hlt := Nat.lt_of_le_of_lt hpos.ge (hreads.lt hconsume)
    have hnode := hclimbs.node none fun hrule =>
      ⟨(hoperand hrule).graded, eq_expressionLoop hrule hat ▸ (hoperand hrule).settled⟩
    refine h.operators F p _ next atoms suffixes _ s₀ _ hbody hat hp hfits hbranches ?_ hF
      (hnode.append (Climbs.turn hloop hpos hturn)) ?_ hclean
    · exact hs.behind (hbefore.trans htrail) hlt (by omega) (by omega)
    · intro hrule
      obtain rfl := eq_expressionLoop hrule hat
      exact h.suffix hS hbody hp hfits hbranches ht hF (hpos ▸ hoperand hrule) hq hpiece

/-- The right-hand side of a rule. -/
theorem ClimbsAt.body_step (h : ClimbsAt S n) (hS : S.Java) {r : Rule}
    (hs : S.Ready n r.body.piece.need s) (hF : Proper r F.callers)
    (hclean : (S.parseBody n F r s).Clean) :
    S.Climbs F.callers (.start r) ⟨r, 0⟩ s (S.parseBody n F r s).trees
        (S.parseBody n F r s).state ∧
      (r = .expression →
        S.Whole F ⟨r, 0⟩ (S.parseBody n F r s).trees (S.parseBody n F r s).state.pos ∧
          S.Spent F.level F.callers (S.parseBody n F r s).state.pos) := by
  obtain ⟨-, hfits, -⟩ := r.depth_bounds
  have hbranches := r.branches
  obtain ⟨next, hholds, hnext⟩ := java_wired.exists_start r
  have hend : ∀ i, Accepts S.kinds ⟨r, 0⟩ F.callers i → Accepts S.kinds ⟨r, next⟩ F.callers i :=
    fun i ha => hnext.elim (fun heq => heq ▸ ha) (.of_jump · ha)
  cases hbody : r.body with
  | plain piece =>
    rw [parseBody_plain (hS.body ▸ hbody)] at hclean ⊢
    rw [hbody] at hs hfits hbranches hholds
    have hparsed := h.piece F (.start r) next piece s hholds hfits hbranches hs hF hclean
    refine ⟨hparsed.climbs.behind (hend _), ?_⟩
    rintro rfl
    cases hbody
  | operators atoms suffixes =>
    obtain ⟨hatom, hreads, hready, heq⟩ :=
      (hS.sound n).atom (hS.net ▸ java_wired) hS.body hbody rfl hs hclean
    rw [heq] at hclean ⊢
    rw [hbody] at hs hfits hbranches hholds
    rw [Body.piece, Piece.need] at hs
    rw [Body.piece, Piece.branches, Bool.and_eq_true] at hbranches
    have hright := hholds.right
    rw [Piece.length_wire] at hright
    have hparsed := h.piece F (.start r) _ (.choice atoms) s hholds.left hfits.left hbranches.1
      (hs.call (.refl s) (by omega)) hF hatom
    have hloop : r.body.operatorLoop? = some (1 + (Piece.choice atoms).size) := by rw [hbody]; rfl
    obtain ⟨hclimbs, hexpression⟩ := h.operators F ⟨r, 1 + (Piece.choice atoms).size⟩ _ next atoms
      suffixes _ s _ hbody hloop hright hfits.right hbranches.2 hready hF hparsed.climbs
      (fun hr : r = _ => .of_chosen (hr ▸ hbody) (hparsed.chosen atoms rfl)) hclean
    refine ⟨hclimbs.behind (hend _), fun hr => ?_⟩
    obtain ⟨hwhole, hspent⟩ := hexpression hr
    exact ⟨{ hwhole with settled := fun ha => hwhole.settled (hend _ ha) }, hspent⟩

/-- A rule becomes a node. -/
theorem ClimbsAt.rule_step (h : ClimbsAt S n) (hS : S.Java) {r : Rule} {level : Nat}
    (hs : S.Ready (n + 1) r.rank s) (hF : Proper r callers)
    (hclean : (S.parseRule (n + 1) callers r level s).2.complaints = []) :
    S.Climbs callers (.start r) ⟨r, 0⟩ s [(S.parseRule (n + 1) callers r level s).1]
        (S.parseRule (n + 1) callers r level s).2 ∧
      (r = .expression →
        (∃ children, (S.parseRule (n + 1) callers r level s).1 = .node none .expression children ∧
          ∀ l ∈ level? (kindAt S.kinds) children, level ≤ l) ∧
        S.Spent level callers (S.parseRule (n + 1) callers r level s).2.pos) := by
  have hneed := r.depth_bounds.1
  have hs' : S.Ready n r.body.piece.need s := hs.call (.refl s) (by omega)
  have htrail := (S.anyTrailAt n).body_step (F := ⟨callers, level⟩) (s := s) (r := r) rfl
    (Piece.within_true (S.body r).piece)
  rw [parseRule_succ] at hclean ⊢
  split at hclean
  · rename_i hfault
    obtain ⟨hclimbs, hexpression⟩ := h.body_step hS hs' hF ⟨hfault, hclean⟩
    refine ⟨hclimbs.node none fun hr => ?_, ?_⟩
    · exact ⟨(hexpression hr).1.graded, (hexpression hr).1.settled⟩
    · rintro rfl
      obtain ⟨hwhole, hspent⟩ := hexpression rfl
      exact ⟨⟨_, rfl, hwhole.level⟩, hspent⟩
  · exact absurd hclean (giveUp_complains (htrail.honest hs.honest) _)

/-- Every function of the parser puts operators at their places, whatever the bound on its depth. -/
theorem climbsAt (hS : S.Java) : ∀ n, ClimbsAt S n
  | 0 => .zero
  | n + 1 =>
    have h := climbsAt hS n
    { piece := fun _ _ _ piece _ hp hfits hb hs hF hc => h.piece_step hS piece hp hfits hb hs hF hc
      block := fun _ _ _ _ _ _ halts hs hF hc => h.block_step hS halts hs hF hc
      optional := fun _ _ _ _ _ _ _ halts hs hF hc => h.optional_step halts hs hF hc
      turn := fun _ _ _ _ _ _ halts hs hF hc => h.turn_step halts hs hF hc
      many := fun _ _ _ _ _ _ hp hfits hb hs hF hc => h.many_step hS hp hfits hb hs hF hc
      many1 := fun _ _ _ _ _ hp hfits hb hs hF hc => h.many1_step hS hp hfits hb hs hF hc
      operators := fun _ _ _ _ _ _ _ _ _ hbody hat hp hfits hb hs hF hclimbs ho hc =>
        h.operators_step hS hbody hat hp hfits hb hs hF hclimbs ho hc
      rule := fun _ _ _ _ hs hF hc => h.rule_step hS hs hF hc }

end Setting

/-! ## Whole parses -/

/-- A parse without complaints puts operators at their places. -/
theorem TokenStream.parse_climbs {T : TokenStream} {r : Rule} {level : Nat}
    (hclosed : Closed T.kinds) (h : (T.parse r level).complaints = []) :
    (∃ t : Progress, t.pos = (T.parse r level).next ∧
      (Setting.java T.kinds T.index).Climbs [] (.start r) ⟨r, 0⟩ .initial
        [(T.parse r level).tree] t) ∧
      ∀ children ∈ (T.parse r level).tree.expression?,
        ∀ l ∈ level? (kindAt T.kinds) children, level ≤ l := by
  have hS : (Setting.java T.kinds T.index).Java := ⟨rfl, rfl, hclosed⟩
  have hready : (Setting.java T.kinds T.index).Ready (depthLimit T.kinds.size) r.rank .initial :=
    ⟨Progress.honest_initial, Nat.zero_le _, depthLimit_ge ..⟩
  obtain ⟨hclimbs, hexpression⟩ := (Setting.climbsAt hS _).rule [] r level _ hready
    (.nil r) (List.reverse_eq_nil_iff.1 h)
  refine ⟨⟨_, rfl, hclimbs⟩, fun children hchildren => ?_⟩
  obtain ⟨_, -, hreads⟩ := parse_reads h
  have hroot := (List.cons.inj hreads.word).1
  unfold expression? at hchildren
  split at hchildren
  · rename_i htree
    rw [htree] at hroot
    cases hroot
    obtain ⟨⟨children', htree', hlevel⟩, -⟩ := hexpression rfl
    cases htree.symm.trans htree'
    cases hchildren
    exact hlevel
  · cases hchildren

/-- **Operators bind by their levels.** In a parse without complaints the operator at the root has the
level with which the parse began or a higher one, and everywhere the last operand binds as tightly as
its operator asks for. Where the parse comes to the end of the file, all first operands bind tightly
enough as well. -/
theorem operators_bind_by_level (r : Rule) (level : Nat) (source : List Char)
    (h : ((TokenStream.ofSource source).parse r level).complaints = []) :
    (∀ children ∈ (analyse r level source).tree.expression?,
        ∀ l ∈ level? Token.kind children, level ≤ l) ∧
      (∀ n ∈ (analyse r level source).tree.nodes, n.1 = .expression → Graded Token.kind n.2) ∧
      ((analyse r level source).next = .endOfFile →
        ∀ n ∈ (analyse r level source).tree.nodes, n.1 = .expression → Settled Token.kind n.2) := by
  have hclosed := closed_kinds source
  have hkind : Token.kind ∘ (TokenStream.ofSource source).get =
      kindAt (TokenStream.ofSource source).kinds :=
    funext fun i => TokenStream.get_kind source i
  obtain ⟨⟨t, ht, hclimbs⟩, hroot⟩ := TokenStream.parse_climbs hclosed h
  simp only [analyse_tree, expression?_map, nodes_map, List.forall_mem_map, Option.mem_def,
    Option.map_eq_some_iff]
  have hnodes : ∀ t : Tree Nat, nodesAll [t] = t.nodes := fun t => by
    rw [nodesAll, nodesAll, List.append_nil]
  refine ⟨?_, fun n hn hr => ?_, fun hend n hn hr => ?_⟩
  · rintro _ ⟨children, hchildren, rfl⟩
    rw [level?_mapAll, hkind]
    exact hroot children hchildren
  · exact graded_mapAll.2 (hkind ▸ hclimbs.graded n (hnodes _ ▸ hn) hr)
  · rw [analyse_next_eq_endOfFile] at hend
    have hS : (Setting.java (TokenStream.ofSource source).kinds
      (TokenStream.ofSource source).index).Java := ⟨rfl, rfl, hclosed⟩
    have hle : (TokenStream.ofSource source).kinds.size ≤ t.pos := by
      rw [TokenStream.size_kinds, ht, hend]
    have haccepts : Accepts (TokenStream.ofSource source).kinds ⟨r, 0⟩ [] t.pos :=
      .done (node_zero r) hle
    exact settled_mapAll.2 (hkind ▸ hclimbs.settled haccepts n (hnodes _ ▸ hn) hr)

/-- In `class A{int x=a-b*c;}` all operators are at their places. -/
theorem operators_bind_in_difference :
    ((TokenStream.ofSource "class A\x7bint x=a-b*c;\x7d".toList).parse
        .compilationUnit 0).complaints = [] ∧
      ∀ n ∈ (analyse .compilationUnit 0 "class A\x7bint x=a-b*c;\x7d".toList).tree.nodes,
        n.1 = .expression → Graded Token.kind n.2 ∧ Settled Token.kind n.2 := by
  have hleaves : differenceFirst.leaves =
      (TokenStream.ofSource "class A\x7bint x=a-b*c;\x7d".toList).kinds.toList := by decide +kernel
  have hderives : differenceFirst.Derives id := by decide +kernel
  obtain ⟨hquiet, hend⟩ := TokenStream.parse_sentence 0 (closed_kinds _) (m := 0)
    ⟨differenceFirst, hderives, rfl, by simpa using hleaves⟩
  rw [TokenStream.size_kinds] at hend
  obtain ⟨-, hgraded, hsettled⟩ := operators_bind_by_level .compilationUnit 0 _ hquiet
  refine ⟨hquiet, fun n hn hr => ⟨hgraded n hn hr, hsettled ?_ n hn hr⟩⟩
  exact (analyse_next_eq_endOfFile ..).2 (Nat.le_antisymm (analyse_next_le ..) hend)

/-! ## An operator that is left to a node -/

/-- What a body begins with, and what may follow as an operator. -/
def Body.parts : Body → List Piece × List Piece
  | .plain piece => ([piece], [])
  | .operators atoms suffixes => (atoms, suffixes.map Suffix.piece)

deriving instance DecidableEq for Progress

/-- The step has read children with these symbols without an error and has ended in this state. -/
def Step.Reads (b : Step) (kind : Nat → Kind) (w : List Symbol) (t : Progress) : Prop :=
  b.fault.isNone ∧ b.state = t ∧ b.trees.map (symbol kind) = w

instance (b : Step) (kind : Nat → Kind) (w : List Symbol) (t : Progress) :
    Decidable (b.Reads kind w t) :=
  inferInstanceAs (Decidable (_ ∧ _ ∧ _))

theorem Step.Reads.eq_ok {b : Step} {kind : Nat → Kind} {w : List Symbol} {t : Progress}
    (h : b.Reads kind w t) : b = .ok b.trees t := by
  obtain ⟨trees, state, fault⟩ := b
  obtain ⟨hfault, hstate, -⟩ := h
  cases Option.isNone_iff_eq_none.1 hfault
  cases hstate
  rfl

namespace Setting

section
variable {S : Setting} {n i : Nat} {F : Frame} {p : Place} {r : Rule} {atoms alts : List Piece}
  {suffixes : List Suffix} {ts : List (Tree Nat)} {s s' t u : Progress} (back : Place)
  (operand : List (Tree Nat))

/-- Parses the operator that is the alternative `i` of a loop, with what belongs to it. -/
def parseOperator (S : Setting) (n : Nat) (F : Frame) (p : Place) (alts : List Piece) (i : Nat)
    (s : Progress) : Step :=
  match alternative? p.rule (p.offset + 5) alts i with
  | none => .fail (noAlternative p s s.pos) s
  | some (q, piece) => (S.parsePiece n F q piece s).andThen (S.resync F (p.move (p.offset + 3)) true)

/-- An operator that is chosen and parsed without an error becomes the root. -/
theorem parseOperators_of_take (hmany : alts.length ≠ 1)
    (hloop : S.decide F p (some 2) s = (.take 1, s'))
    (hnext : (S.net.look (p.move (p.offset + 1))).kinds.contains (S.next s') = true)
    (hblock : S.decide F (p.move (p.offset + 1)) none s' = (.take i, t))
    (hread : S.parseOperator n F p alts i t = .ok ts u) :
    S.parseOperators (n + 1) F p back alts operand s =
      S.parseOperators n F p (p.move (p.offset + 3)) alts (.node none p.rule operand :: ts) u := by
  have hsync : S.resync F (p.move (p.offset + 1)) false s' = .ok [] s' := by
    rw [resync, hnext, Bool.or_true, if_pos rfl]
  unfold parseOperator at hread
  split at hread
  · cases hread
  · rename_i q piece hpiece
    rw [parseOperators, hloop]
    simp only [if_neg hmany, hsync, Step.ok, hblock, hpiece, hread, List.append_nil]

/-- Where no operator is chosen the operand is all. -/
theorem parseOperators_of_leave (hloop : S.decide F p (some 2) s = (.take 2, t)) :
    S.parseOperators (n + 1) F p back alts operand s = .ok operand t := by
  rw [parseOperators, hloop]
  rfl

theorem parseRule_of_operators (hbody : S.body r = .operators atoms suffixes)
    (hatom : S.parseAtom n F r atoms s = .ok operand s')
    (hend : S.parseOperators n F ⟨r, 1 + (Piece.choice atoms).size⟩
      ⟨r, 1 + (Piece.choice atoms).size⟩ (suffixes.map Suffix.piece) operand s' = .ok ts t) :
    S.parseRule (n + 1) F.callers r F.level s = (.node none r ts, t) := by
  simp only [parseRule_succ, parseBody, hbody, hatom, hend, Step.ok]

end

/-- The parser on the tokens of `1<1<<T,U>this()`. -/
def shifting : Setting where
  net := .plain
  body := Rule.body
  kinds := #[.decimalLiteral, .lt, .decimalLiteral, .lt, .lt, .identifier, .comma, .identifier, .gt,
    .kwThis, .lparen, .rparen]
  index := id

/-- The state between two of the tokens. No error has been found so far. -/
def shiftingAt (pos seen : Nat) : Progress := { Progress.initial with pos := pos, seen := seen }

-- One run of the parser in three parts, because the kernel keeps all it has evaluated for one theorem.

/-- The comparison is parsed, and its last operand leaves the shift to it. -/
theorem shifting_comparison :
    (shifting.parseAtom 13999999 ⟨[], 0⟩ .expression Rule.expression.body.parts.1 .initial).Reads
        (kindAt shifting.kinds) [.rule .primary] (shiftingAt 1 1) ∧
      shifting.decide ⟨[], 0⟩ expressionLoop (some 2) (shiftingAt 1 1) =
        (.take 1, shiftingAt 1 2) ∧
      shifting.decide ⟨[], 0⟩ ⟨.expression, 46⟩ none (shiftingAt 1 2) = (.take 4, shiftingAt 1 2) ∧
      (shifting.parseOperator 13999998 ⟨[], 0⟩ expressionLoop Rule.expression.body.parts.2 4
          (shiftingAt 1 2)).Reads
        (kindAt shifting.kinds) [.token .lt, .rule .expression] (shiftingAt 3 11) := by
  decide +kernel

/-- The shift is chosen for the comparison. -/
theorem shifting_choice :
    shifting.decide ⟨[], 0⟩ expressionLoop (some 2) (shiftingAt 3 11) =
        (.take 1, shiftingAt 3 11) ∧
      shifting.decide ⟨[], 0⟩ ⟨.expression, 46⟩ none (shiftingAt 3 11) =
        (.take 3, shiftingAt 3 12) := by
  decide +kernel

/-- The shift is parsed, and nothing behind it. -/
theorem shifting_shift :
    (shifting.parseOperator 13999997 ⟨[], 0⟩ expressionLoop Rule.expression.body.parts.2 3
          (shiftingAt 3 12)).Reads
        (kindAt shifting.kinds) [.token .lt, .token .lt, .rule .expression] (shiftingAt 6 12) ∧
      shifting.decide ⟨[], 0⟩ expressionLoop (some 2) (shiftingAt 6 12) =
        (.take 2, shiftingAt 6 12) := by
  decide +kernel

/-- The tree of the run: a shift, with the comparison for its first operand. -/
theorem shifting_run : ∃ atom comparison shift : List (Tree Nat),
    shifting.run (depthLimit shifting.kinds.size) .expression 0 =
      (.node none .expression (.node none .expression
        (.node none .expression atom :: comparison) :: shift), shiftingAt 6 12) ∧
      comparison.map (symbol (kindAt shifting.kinds)) = [.token .lt, .rule .expression] ∧
      shift.map (symbol (kindAt shifting.kinds)) = [.token .lt, .token .lt, .rule .expression] := by
  obtain ⟨hatom, hloop, hblock, hcomparison⟩ := shifting_comparison
  obtain ⟨hloop', hblock'⟩ := shifting_choice
  obtain ⟨hshift, hend⟩ := shifting_shift
  have htaken (back : Place) (operand : List (Tree Nat)) :=
    parseOperators_of_take back operand (by decide) hloop (by decide +kernel) hblock hcomparison.eq_ok
  have htaken' (back : Place) (operand : List (Tree Nat)) :=
    parseOperators_of_take back operand (by decide) hloop' (by decide +kernel) hblock' hshift.eq_ok
  have hrun := parseRule_of_operators (F := ⟨[], 0⟩) _ rfl hatom.eq_ok
    ((htaken _ _).trans ((htaken' _ _).trans (parseOperators_of_leave _ _ hend)))
  exact ⟨_, _, _, hrun, hcomparison.2.2, hshift.2.2⟩

end Setting

open Setting in
/-- Where an expression is followed by something else, an operator may be left to a node whose first
operand could have had it: here a shift is applied to a comparison. What follows is read as a list of
types when the operand of the comparison is left, and not at all in the end. -/
theorem shift_of_comparison :
    ((TokenStream.ofSource "1<1<<T,U>this()".toList).parse .expression 0).complaints = [] ∧
      ∃ children ∈ (analyse .expression 0 "1<1<<T,U>this()".toList).tree.expression?,
        ¬ Settled Token.kind children := by
  have hkinds : (TokenStream.ofSource "1<1<<T,U>this()".toList).kinds = shifting.kinds := by
    decide +kernel
  have hkind : Token.kind ∘ (TokenStream.ofSource "1<1<<T,U>this()".toList).get =
      kindAt shifting.kinds := by
    rw [← hkinds]
    exact funext fun i => TokenStream.get_kind _ i
  have hparser : (⟨.plain, Rule.body, shifting.kinds, id⟩ : Setting) = shifting := rfl
  obtain ⟨atom, comparison, shift, hrun, hcomparison, hshift⟩ := shifting_run
  rw [analyse_tree_eq_plain, TokenStream.parse_eq_plain, hkinds, hparser, parse, hrun]
  refine ⟨rfl, _, rfl, fun hsettled => ?_⟩
  rw [settled_mapAll, hkind] at hsettled
  have hlt := hsettled 12 (by rw [level?, List.map_cons, hshift]; rfl) _ rfl
    (rightOperand?_isSome_iff.2 (by rw [List.map_cons, hcomparison]; rfl))
  rw [List.map_cons, hcomparison] at hlt
  exact absurd hlt (Nat.lt_irrefl 12)

end JavaOutline
