import JavaOutline.Proofs.Grammar.Depth
import JavaOutline.Proofs.Grammar.Language
import JavaOutline.Proofs.Network.Wiring
import JavaOutline.Proofs.Parser.Clean
import JavaOutline.Proofs.Prediction.Alternatives
import Mathlib.Order.CompletePartialOrder

/-!
# A parse without complaints is a derivation

The parser never comes back to a decision, so a wrong decision shows as a complaint later on. This
file shows that it shows in any case: if there is no complaint, the tree that has been built is a
derivation in the grammar. `Reads` says what a function of the parser has to give in that case, and
`Setting.SoundAt` says so for all of them at one bound `n` on their depth. The induction goes over
`n`, with one step lemma for each function; `Setting.Ready` is what a function needs at its start,
above all enough depth for the tokens that are left.
-/

namespace JavaOutline

open Computability

/-! ## What has been read -/

/-- On the way from `s` to `s'` trees have been built that derive a word of `L`, and at least one
token has been taken if `consumes`. -/
structure Reads (kinds : Array Kind) (L : Language Symbol) (consumes : Bool) (s : Progress)
    (ts : List (Tree Nat)) (s' : Progress) : Prop where
  word : ts.map (Tree.symbol (kindAt kinds)) ∈ L
  derives : Tree.DerivesAll (kindAt kinds) ts
  le : s.pos ≤ s'.pos
  lt : consumes = true → s.pos < s'.pos

namespace Reads

variable {kinds : Array Kind} {L L' : Language Symbol} {c c' : Bool} {s s' s'' : Progress}
  {ts us : List (Tree Nat)}

/-- Nothing has been read. -/
theorem nil (h : s.pos ≤ s'.pos) : Reads kinds 1 false s [] s' :=
  ⟨rfl, trivial, h, by simp⟩

/-- One thing has been read, and then another. -/
theorem append (h : Reads kinds L c s ts s') (h' : Reads kinds L' c' s' us s'') :
    Reads kinds (L * L') (c || c') s (ts ++ us) s'' where
  word := by
    rw [List.map_append]
    exact Language.append_mem_mul h.word h'.word
  derives := (Tree.derivesAll_append ts us).2 ⟨h.derives, h'.derives⟩
  le := Nat.le_trans h.le h'.le
  lt hc := by
    rcases Bool.or_eq_true_iff.1 hc with hc | hc
    · exact Nat.lt_of_lt_of_le (h.lt hc) h'.le
    · exact Nat.lt_of_le_of_lt h.le (h'.lt hc)

/-- A word of one language may be a word of another one. -/
theorem weaken (h : Reads kinds L c s ts s') (hL : L ≤ L') (hc : c' = true → c = true) :
    Reads kinds L' c' s ts s' :=
  ⟨hL h.word, h.derives, h.le, fun hc' => h.lt (hc hc')⟩

/-- The way may have begun earlier, without any trees. -/
theorem of_le (h : Reads kinds L c s' ts s'') (hle : s.pos ≤ s'.pos) : Reads kinds L c s ts s'' :=
  ⟨h.word, h.derives, Nat.le_trans hle h.le, fun hc => Nat.lt_of_le_of_lt hle (h.lt hc)⟩

/-- The way may have gone on, without any trees. -/
theorem extend (h : Reads kinds L c s ts s') (hle : s'.pos ≤ s''.pos) : Reads kinds L c s ts s'' :=
  ⟨h.word, h.derives, Nat.le_trans h.le hle, fun hc => Nat.lt_of_lt_of_le (h.lt hc) hle⟩

/-- A name for the last tree does not matter. -/
theorem named (h : Reads kinds L c s ts s') (role : Role) :
    Reads kinds L c s (Tree.lastWithRole role ts) s' :=
  ⟨by simpa using h.word, by simpa using h.derives, h.le, h.lt⟩

/-- What the right-hand side of a rule derives goes below a node of the rule. -/
theorem node {r : Rule} (h : Reads kinds r.language c s ts s') :
    Reads kinds {[.rule r]} c s [.node none r ts] s' :=
  ⟨rfl, ⟨⟨h.word, h.derives⟩, trivial⟩, h.le, h.lt⟩

end Reads

namespace Setting

/-- The functions of the parser leave trails. -/
theorem anyTrailAt (S : Setting) (n : Nat) : TrailAt S (fun _ => true) (fun _ => true) n :=
  trailAt (fun r _ => Piece.within_true (S.body r).piece) n

/-- The state before a function of the parser with the bound `n` on its depth: errors so far have
been complained about, and the depth is enough for all tokens that are left and for `d` calls. -/
structure Ready (S : Setting) (n d : Nat) (s : Progress) : Prop where
  honest : s.Honest
  pos_le : s.pos ≤ S.kinds.size
  depth : (S.kinds.size - s.pos) * tokenDepth + d ≤ n

namespace Ready

variable {S : Setting} {n n' d d' : Nat} {s s' : Progress} {ts : List (Tree Nat)}

/-- One call deeper, and possibly further on. -/
theorem call (h : S.Ready n d s) (htrail : AnyTrail S s ts s') (hd : d' + n ≤ d + n') :
    S.Ready n' d' s' := by
  have hbounds := htrail.pos_bounds h.pos_le
  have hdepth := h.depth
  refine ⟨htrail.honest h.honest, hbounds.2, ?_⟩
  unfold tokenDepth at *
  omega

/-- Behind a token the depth is enough for anything. -/
theorem behind (h : S.Ready n d s) (htrail : AnyTrail S s ts s') (hlt : s.pos < s'.pos)
    (hd : d' ≤ tokenDepth) (hn : n ≤ d + n') : S.Ready n' d' s' := by
  have hbounds := htrail.pos_bounds h.pos_le
  have hdepth := h.depth
  refine ⟨htrail.honest h.honest, hbounds.2, ?_⟩
  unfold tokenDepth at *
  omega

end Ready

/-! ## The functions of the parser -/

/-- With a bound `n` on their depth, the functions of the parser read words of the grammar, provided
that they start with enough depth at the right places and end without a complaint. -/
structure SoundAt (S : Setting) (n : Nat) : Prop where
  piece : ∀ (F : Frame) (p : Place) (piece : Piece) (s : Progress), piece.LaidOut S.net p →
    piece.Fits → S.Ready n piece.need s → (S.parsePiece n F p piece s).Clean →
    Reads S.kinds piece.words piece.consumes s (S.parsePiece n F p piece s).trees
      (S.parsePiece n F p piece s).state
  block : ∀ (F : Frame) (p : Place) (base : Nat) (alts : List Piece) (s : Progress),
    BlockAt S.net p base alts → Piece.AllFit alts → S.Ready n (1 + Piece.maxNeed alts) s →
    (S.parseBlock n F p base alts none s).Clean →
    Reads S.kinds (Piece.anyWords alts) (Piece.allConsume alts) s
      (S.parseBlock n F p base alts none s).trees (S.parseBlock n F p base alts none s).state
  optional : ∀ (F : Frame) (p : Place) (base : Nat) (alts : List Piece) (alt : Nat) (s : Progress),
    AlternativesAt S.net p.rule base alts → Piece.AllFit alts →
    S.Ready n (1 + Piece.maxNeed alts) s → (S.parseBlock n F p base alts (some alt) s).Clean →
    Reads S.kinds (1 + Piece.anyWords alts) false s (S.parseBlock n F p base alts (some alt) s).trees
      (S.parseBlock n F p base alts (some alt) s).state
  turn : ∀ (F : Frame) (p : Place) (base : Nat) (alts : List Piece) (s : Progress),
    BlockAt S.net p base alts → Piece.AllFit alts → S.Ready n (2 + Piece.maxNeed alts) s →
    (S.parseTurn n F p base alts s).Clean →
    Reads S.kinds (Piece.anyWords alts) (Piece.allConsume alts) s
      (S.parseTurn n F p base alts s).trees (S.parseTurn n F p base alts s).state
  many : ∀ (F : Frame) (p back : Place) (alts : List Piece) (s : Progress),
    (Piece.many alts).LaidOut S.net p → (Piece.many alts).Fits →
    S.Ready n (3 + Piece.maxNeed alts) s → (S.parseMany n F p back alts s).Clean →
    Reads S.kinds (Piece.anyWords alts)∗ false s (S.parseMany n F p back alts s).trees
      (S.parseMany n F p back alts s).state
  many1 : ∀ (F : Frame) (p : Place) (alts : List Piece) (s : Progress),
    (Piece.many1 alts).LaidOut S.net p → (Piece.many1 alts).Fits →
    S.Ready n (3 + Piece.maxNeed alts) s → (S.parseMany1 n F p alts s).Clean →
    Reads S.kinds (Piece.anyWords alts * (Piece.anyWords alts)∗) true s
      (S.parseMany1 n F p alts s).trees (S.parseMany1 n F p alts s).state
  operators : ∀ (F : Frame) (p back : Place) (atoms : List Piece) (suffixes : List Suffix)
    (operand : List (Tree Nat)) (s₀ s : Progress), p.rule.body = .operators atoms suffixes →
    (Piece.many (suffixes.map Suffix.piece)).LaidOut S.net p →
    (Piece.many (suffixes.map Suffix.piece)).Fits →
    S.Ready n (1 + Piece.maxNeed (suffixes.map Suffix.piece)) s →
    Reads S.kinds p.rule.language true s₀ operand s →
    (S.parseOperators n F p back (suffixes.map Suffix.piece) operand s).Clean →
    Reads S.kinds p.rule.language true s₀
      (S.parseOperators n F p back (suffixes.map Suffix.piece) operand s).trees
      (S.parseOperators n F p back (suffixes.map Suffix.piece) operand s).state
  rule : ∀ (callers : List Place) (r : Rule) (level : Nat) (s : Progress), S.Ready n r.rank s →
    (S.parseRule n callers r level s).2.complaints = [] →
    Reads S.kinds {[.rule r]} r.consumes s [(S.parseRule n callers r level s).1]
      (S.parseRule n callers r level s).2

section
variable {S : Setting} {n : Nat} {F : Frame} {p : Place} {s : Progress}

/-- There is no way to start without any depth. -/
theorem not_ready_zero {d : Nat} (hd : 0 < d) : ¬ S.Ready 0 d s := by
  intro h
  have hdepth := h.depth
  omega

theorem SoundAt.zero : SoundAt S 0 where
  piece _ _ piece _ _ _ h := (not_ready_zero piece.need_pos h).elim
  block _ _ _ _ _ _ _ h := (not_ready_zero (by omega) h).elim
  optional _ _ _ _ _ _ _ _ h := (not_ready_zero (by omega) h).elim
  turn _ _ _ _ _ _ _ h := (not_ready_zero (by omega) h).elim
  many _ _ _ _ _ _ _ h := (not_ready_zero (by omega) h).elim
  many1 _ _ _ _ _ _ h := (not_ready_zero (by omega) h).elim
  operators _ _ _ _ _ _ _ _ _ _ _ h := (not_ready_zero (by omega) h).elim
  rule _ r _ _ h := (not_ready_zero (Nat.zero_lt_of_lt r.depth_bounds.1) h).elim

/-- A token that is taken is of a wanted kind, and the parser moves on unless it is the end of the
file. -/
theorem accept_reads {ks : KindSet} {after : Place} {assumed : List (Tree Nat)} (hs : s.Honest)
    (h : (S.accept F p ks after assumed s).Clean) :
    ∃ k ∈ ks, Reads S.kinds {[.token k]} (k ≠ .endOfFile) s (S.accept F p ks after assumed s).trees
      (S.accept F p ks after assumed s).state := by
  obtain ⟨hk, heq⟩ := accept_clean hs h
  have hpos : (s.settle.advance S.kinds).pos = if s.pos < S.kinds.size then s.pos + 1 else s.pos :=
    Progress.advance_pos ..
  refine ⟨S.next s, hk, ?_⟩
  rw [heq]
  refine ⟨rfl, ⟨trivial, trivial⟩, ?_, fun hend => ?_⟩
  · simp only [takeNext, Step.ok, hpos]
    split <;> omega
  · -- Behind the last token there is only the end of the file.
    have hlt : s.pos < S.kinds.size := by
      refine Nat.lt_of_not_le fun hle => ?_
      simp [next, kindAt_of_size_le hle] at hend
    simp only [takeNext, Step.ok, hpos, if_pos hlt]
    omega

/-- A decision without a way out takes one of the ways on. -/
theorem decide_take (hnet : S.net.Wired Rule.body) {nexts : List Nat}
    (hp : S.net.node p = .fork nexts) {i : Nat} {s' : Progress}
    (h : S.decide F p none s = (.take i, s')) : 1 ≤ i ∧ i ≤ nexts.length := by
  unfold decide at h
  split at h
  · rename_i sets hsets
    have hlength := hnet.direct p sets nexts hsets hp
    split at h
    · rename_i j hj
      cases h
      have hlt := (List.findIdx?_eq_some_iff_findIdx_eq.1 hj).1
      omega
    · rename_i hnone
      cases hnone
    · cases h
  · obtain ⟨hverdict, -⟩ := Prod.mk.inj h
    exact forecast_take hp hverdict

/-- A decision takes no token. -/
theorem decide_pos {otherwise : Option Nat} {v : Verdict} {s' : Progress}
    (h : S.decide F p otherwise s = (v, s')) : s'.pos = s.pos := by
  unfold decide at h
  split at h
  · split at h <;> · cases h; rfl
  · cases h
    rfl

/-- Two pieces one after the other: the first one reads its word, and the second one starts where
the first one ends, with enough depth. -/
theorem SoundAt.andThen_parts (h : SoundAt S n) {q q' : Piece} (hp : (q.andThen q').LaidOut S.net p)
    (hfits : (q.andThen q').Fits) (hs : S.Ready (n + 1) (q.andThen q').need s)
    (hclean : (S.parsePiece (n + 1) F p (.andThen q q') s).Clean) :
    Reads S.kinds q.words q.consumes s (S.parsePiece n F p q s).trees
        (S.parsePiece n F p q s).state ∧
      S.Ready n q'.need (S.parsePiece n F p q s).state ∧
      (S.parsePiece n F (p.move (p.offset + q.size)) q' (S.parsePiece n F p q s).state).Clean ∧
      S.parsePiece (n + 1) F p (.andThen q q') s =
        ⟨(S.parsePiece n F p q s).trees ++
            (S.parsePiece n F (p.move (p.offset + q.size)) q' (S.parsePiece n F p q s).state).trees,
          (S.parsePiece n F (p.move (p.offset + q.size)) q' (S.parsePiece n F p q s).state).state,
          none⟩ := by
  rw [Piece.need] at hs
  have htrail := (S.anyTrailAt n).piece F p q s (Piece.within_true q)
  have htrail' := (S.anyTrailAt n).piece F (p.move (p.offset + q.size)) q'
    (S.parsePiece n F p q s).state (Piece.within_true q')
  obtain ⟨hq, hq', heq⟩ := Step.Clean.andThen hclean htrail'
  have hreads := h.piece F p q s hp.left hfits.left (hs.call (.refl s) (by omega)) hq
  refine ⟨hreads, ?_, hq', heq⟩
  -- The second piece starts behind a token, or it counts for the need of both.
  cases hc : q.consumes with
  | true => exact hs.behind htrail (hreads.lt hc) hfits.right.need_le (by omega)
  | false =>
    rw [hc] at hs
    exact hs.call htrail (by simp only [Bool.false_eq_true, if_false] at *; omega)

/-- A piece reads one of its words, by cases on the piece. -/
theorem SoundAt.piece_step (h : SoundAt S n) (piece : Piece) (hp : piece.LaidOut S.net p)
    (hfits : piece.Fits) (hs : S.Ready (n + 1) piece.need s)
    (hclean : (S.parsePiece (n + 1) F p piece s).Clean) :
    Reads S.kinds piece.words piece.consumes s (S.parsePiece (n + 1) F p piece s).trees
      (S.parsePiece (n + 1) F p piece s).state := by
  have hrefl : AnyTrail S s [] s := .refl s
  cases piece with
  | nothing => exact .nil (Nat.le_refl _)
  | token k =>
    obtain ⟨j, hj, hreads⟩ := accept_reads hs.honest hclean
    rw [KindSet.mem_single] at hj
    subst hj
    exact hreads
  | oneOf ks =>
    obtain ⟨k, hk, hreads⟩ := accept_reads hs.honest hclean
    rw [KindSet.mem_ofList] at hk
    refine hreads.weaken (fun w hw => Piece.mem_words_oneOf.2 ⟨k, hk, hw⟩) fun hconsumes => ?_
    exact List.all_eq_true.1 hconsumes k hk
  | guard level =>
    have hfault := hclean.fault
    simp only [parsePiece] at hfault ⊢
    split at hfault
    · rename_i hle
      rw [if_pos hle]
      exact .nil (Nat.le_refl _)
    · cases hfault
  | call r level =>
    rw [Piece.need] at hs
    exact h.rule _ r level s (hs.call hrefl (by omega)) hclean.complaints
  | named role q =>
    rw [Piece.need] at hs
    have hq : (S.parsePiece n F p q s).Clean := ⟨hclean.fault, hclean.complaints⟩
    have hreads := h.piece F p q s hp hfits.named (hs.call hrefl (by omega)) hq
    simp only [parsePiece, hq.fault]
    exact hreads.named role
  | andThen q q' =>
    obtain ⟨hreads, hs', hq', heq⟩ := h.andThen_parts hp hfits hs hclean
    rw [heq]
    exact hreads.append (h.piece F _ q' _ hp.right hfits.right hs' hq')
  | choice alts =>
    rw [Piece.need] at hs
    exact h.block F p _ alts s hp.choice hfits.choice (hs.call hrefl (by omega)) hclean
  | optional alts =>
    rw [Piece.need] at hs
    exact h.optional F p _ alts _ s hp.optional hfits.optional (hs.call hrefl (by omega)) hclean
  | many alts =>
    rw [Piece.need] at hs
    have heq : S.parsePiece (n + 1) F p (.many alts) s = S.parseMany n F p p alts s :=
      resync_andThen_clean hs.honest
        (fun t => (S.anyTrailAt n).many F p p alts t (Piece.allWithin_true alts)) hclean
    rw [heq] at hclean ⊢
    exact h.many F p p alts s hp hfits (hs.call hrefl (by omega)) hclean
  | many1 alts =>
    rw [Piece.need] at hs
    have heq : S.parsePiece (n + 1) F p (.many1 alts) s = S.parseMany1 n F p alts s :=
      resync_andThen_clean hs.honest
        (fun t => (S.anyTrailAt n).many1 F p alts t (Piece.allWithin_true alts)) hclean
    rw [heq] at hclean ⊢
    exact (h.many1 F p alts s hp hfits (hs.call hrefl (by omega)) hclean).weaken (le_refl _)
      fun _ => rfl

/-- The alternative that is taken reads one of its words. -/
theorem SoundAt.alternative (h : SoundAt S n) {base : Nat} {alts : List Piece}
    (halts : AlternativesAt S.net p.rule base alts) (hfits : Piece.AllFit alts)
    (hs : S.Ready n (Piece.maxNeed alts) s) {i : Nat} {q : Place} {piece : Piece}
    (hq : alternative? p.rule base alts i = some (q, piece))
    (hclean : (S.parsePiece n F q piece s).Clean) :
    Reads S.kinds (Piece.anyWords alts) (Piece.allConsume alts) s
      (S.parsePiece n F q piece s).trees (S.parsePiece n F q piece s).state := by
  have hmem : piece ∈ alts := mem_of_alternative? hq
  have hneed := Piece.need_le_of_mem hmem
  have hready : S.Ready n piece.need s := hs.call (.refl s) (by omega)
  have hreads := h.piece F q piece s (halts.of_alternative? hq) (hfits piece hmem) hready hclean
  refine hreads.weaken (fun w hw => Piece.mem_anyWords.2 ⟨piece, hmem, hw⟩) fun hall => ?_
  exact Piece.consumes_of_mem hall hmem

/-- Without a way out one of the alternatives is taken. -/
theorem parseBlock_taken (hnet : S.net.Wired Rule.body) {base : Nat} {alts : List Piece}
    (hblock : BlockAt S.net p base alts) (hs : s.Honest)
    (hclean : (S.parseBlock (n + 1) F p base alts none s).Clean) :
    ∃ i q piece t, alternative? p.rule base alts i = some (q, piece) ∧ AnyTrail S s [] t ∧
      t.pos = s.pos ∧ S.parseBlock (n + 1) F p base alts none s = S.parsePiece n F q piece t := by
  rw [parseBlock_succ] at hclean ⊢
  have heq := resync_andThen_clean hs
    (fun t => (S.anyTrailAt n).chosen (Piece.allWithin_true alts)) hclean
  rw [heq] at hclean ⊢
  unfold parseChosen at hclean ⊢
  split at hclean
  · exact absurd hclean.fault (by simp [Step.fail])
  · rename_i i t hd
    obtain ⟨hi, hi'⟩ := decide_take hnet hblock.fork hd
    rw [Piece.length_starts] at hi'
    have hsome : (alternative? p.rule base alts i).isSome = true := alternative?_isSome hi hi'
    obtain ⟨⟨q, piece⟩, hq⟩ := Option.isSome_iff_exists.1 hsome
    exact ⟨i, q, piece, t, hq, decide_trail hd, decide_pos hd, by simp only [hq]⟩

/-- Alternatives without a way out read a word of one of them. -/
theorem SoundAt.block_step (h : SoundAt S n) (hnet : S.net.Wired Rule.body) {base : Nat}
    {alts : List Piece} (hblock : BlockAt S.net p base alts) (hfits : Piece.AllFit alts)
    (hs : S.Ready (n + 1) (1 + Piece.maxNeed alts) s)
    (hclean : (S.parseBlock (n + 1) F p base alts none s).Clean) :
    Reads S.kinds (Piece.anyWords alts) (Piece.allConsume alts) s
      (S.parseBlock (n + 1) F p base alts none s).trees
      (S.parseBlock (n + 1) F p base alts none s).state := by
  obtain ⟨i, q, piece, t, hq, htrail, hpos, heq⟩ := parseBlock_taken hnet hblock hs.honest hclean
  rw [heq] at hclean ⊢
  have ht : S.Ready n (Piece.maxNeed alts) t := hs.call htrail (by omega)
  exact (h.alternative hblock.alternatives hfits ht hq hclean).of_le hpos.ge

/-- Alternatives with a way out read a word of one of them, or nothing. -/
theorem SoundAt.optional_step (h : SoundAt S n) {base alt : Nat} {alts : List Piece}
    (halts : AlternativesAt S.net p.rule base alts) (hfits : Piece.AllFit alts)
    (hs : S.Ready (n + 1) (1 + Piece.maxNeed alts) s)
    (hclean : (S.parseBlock (n + 1) F p base alts (some alt) s).Clean) :
    Reads S.kinds (1 + Piece.anyWords alts) false s
      (S.parseBlock (n + 1) F p base alts (some alt) s).trees
      (S.parseBlock (n + 1) F p base alts (some alt) s).state := by
  rw [parseBlock_succ] at hclean ⊢
  have heq := resync_andThen_clean hs.honest
    (fun t => (S.anyTrailAt n).chosen (Piece.allWithin_true alts)) hclean
  rw [heq] at hclean ⊢
  unfold parseChosen at hclean ⊢
  split at hclean
  · exact absurd hclean.fault (by simp [Step.fail])
  · rename_i i s' hd
    have htrail : AnyTrail S s [] s' := decide_trail hd
    have hle := (htrail.pos_bounds hs.pos_le).1
    split at hclean
    · rename_i q piece hq
      have hs' : S.Ready n (Piece.maxNeed alts) s' := hs.call htrail (by omega)
      have hreads := (h.alternative halts hfits hs' hq hclean).of_le hle
      exact hreads.weaken le_add_self (by simp)
    · rename_i hnone
      exact (Reads.nil hle).weaken le_self_add id

/-- A turn of a loop reads a word of one of the alternatives. -/
theorem SoundAt.turn_step (h : SoundAt S n) {base : Nat} {alts : List Piece}
    (hblock : BlockAt S.net p base alts) (hfits : Piece.AllFit alts)
    (hs : S.Ready (n + 1) (2 + Piece.maxNeed alts) s)
    (hclean : (S.parseTurn (n + 1) F p base alts s).Clean) :
    Reads S.kinds (Piece.anyWords alts) (Piece.allConsume alts) s
      (S.parseTurn (n + 1) F p base alts s).trees (S.parseTurn (n + 1) F p base alts s).state := by
  simp only [parseTurn] at hclean ⊢
  split at hclean
  · rename_i piece
    have hs' : S.Ready n (Piece.maxNeed [piece]) s := hs.call (.refl s) (by omega)
    exact h.alternative hblock.alternatives hfits hs' (i := 1) rfl hclean
  · exact h.block F p base alts s hblock hfits (hs.call (.refl s) (by omega)) hclean

/-- A turn of a loop takes a token, and the rest of the loop starts behind it with enough depth. -/
theorem SoundAt.many_turn (h : SoundAt S n) {back : Place} {alts : List Piece} {turn : Step}
    (hp : (Piece.many alts).LaidOut S.net p) (hfits : (Piece.many alts).Fits)
    (hs : S.Ready n (2 + Piece.maxNeed alts) s)
    (hturn : S.parseTurn n F (p.move (p.offset + 1)) (p.offset + 5) alts s = turn)
    (hclean : ((turn.andThen (S.resync F (p.move (p.offset + 3)) true)).andThen
      (S.parseMany n F p back alts)).Clean) :
    turn.Clean ∧ Reads S.kinds (Piece.anyWords alts) true s turn.trees turn.state ∧
      S.Ready n (3 + Piece.maxNeed alts) turn.state ∧
      (S.parseMany n F p back alts turn.state).Clean ∧
      (turn.andThen (S.resync F (p.move (p.offset + 3)) true)).andThen
          (S.parseMany n F p back alts) =
        ⟨turn.trees ++ (S.parseMany n F p back alts turn.state).trees,
          (S.parseMany n F p back alts turn.state).state, none⟩ := by
  subst hturn
  obtain ⟨hall, hconsume, hneed⟩ := hfits.many
  have htrail := (S.anyTrailAt n).turn F (p.move (p.offset + 1)) (p.offset + 5) alts s
    (Piece.allWithin_true alts)
  obtain ⟨hturn, hrest, heq⟩ := hclean.andThen
    ((S.anyTrailAt n).many F p back alts _ (Piece.allWithin_true alts))
  have hsame := andThen_resync_clean (htrail.honest hs.honest) hturn
  rw [hsame] at hturn hrest heq ⊢
  have hreads := h.turn F _ _ alts s hp.many hall hs hturn
  have hready : S.Ready n (3 + Piece.maxNeed alts) _ :=
    hs.behind htrail (hreads.lt hconsume) (by omega) (by omega)
  exact ⟨hturn, hreads.weaken (le_refl _) fun _ => hconsume, hready, hrest, heq⟩

/-- A loop reads turns, one after the other. -/
theorem SoundAt.many_step (h : SoundAt S n) {back : Place} {alts : List Piece}
    (hp : (Piece.many alts).LaidOut S.net p) (hfits : (Piece.many alts).Fits)
    (hs : S.Ready (n + 1) (3 + Piece.maxNeed alts) s)
    (hclean : (S.parseMany (n + 1) F p back alts s).Clean) :
    Reads S.kinds (Piece.anyWords alts)∗ false s (S.parseMany (n + 1) F p back alts s).trees
      (S.parseMany (n + 1) F p back alts s).state := by
  rw [← Language.one_add_self_mul_kstar_eq_kstar]
  simp only [parseMany] at hclean ⊢
  split at hclean
  · exact absurd hclean.fault (by simp [Step.fail])
  · rename_i s' hd
    have hlook : AnyTrail S s [] s' := decide_trail hd
    have hle := (hlook.pos_bounds hs.pos_le).1
    obtain ⟨-, hreads, ht, hrest, heq⟩ :=
      h.many_turn hp hfits (hs.call hlook (by omega)) rfl hclean
    have hreads' := h.many F p _ alts _ hp hfits ht hrest
    rw [heq]
    exact ((hreads.append hreads').of_le hle).weaken le_add_self (by simp)
  · rename_i i s' hne hd
    have hlook : AnyTrail S s [] s' := decide_trail hd
    exact (Reads.nil (hlook.pos_bounds hs.pos_le).1).weaken le_self_add id

/-- The first turn of a loop takes a token, and what follows starts behind it with enough depth. -/
theorem SoundAt.many1_turn (h : SoundAt S n) {alts : List Piece} {turn : Step}
    (hp : (Piece.many1 alts).LaidOut S.net p) (hfits : (Piece.many1 alts).Fits)
    (hs : S.Ready n (2 + Piece.maxNeed alts) s)
    (hturn : S.parseTurn n F p (p.offset + 4) alts s = turn)
    (hclean : ((turn.andThen (S.resync F (p.move (p.offset + 2)) true)).andThen
      (S.parseRepeat n F p alts)).Clean) :
    turn.Clean ∧ Reads S.kinds (Piece.anyWords alts) true s turn.trees turn.state ∧
      S.Ready n (3 + Piece.maxNeed alts) turn.state ∧ (S.parseRepeat n F p alts turn.state).Clean ∧
      (turn.andThen (S.resync F (p.move (p.offset + 2)) true)).andThen (S.parseRepeat n F p alts) =
        ⟨turn.trees ++ (S.parseRepeat n F p alts turn.state).trees,
          (S.parseRepeat n F p alts turn.state).state, none⟩ := by
  subst hturn
  obtain ⟨hall, hconsume, hneed⟩ := hfits.many1
  have htrail := (S.anyTrailAt n).turn F p (p.offset + 4) alts s (Piece.allWithin_true alts)
  obtain ⟨hturn, hrest, heq⟩ := hclean.andThen
    ((S.anyTrailAt n).repeated (Piece.allWithin_true alts))
  have hsame := andThen_resync_clean (htrail.honest hs.honest) hturn
  rw [hsame] at hturn hrest heq ⊢
  have hreads := h.turn F p _ alts s hp.many1 hall hs hturn
  have hready : S.Ready n (3 + Piece.maxNeed alts) _ :=
    hs.behind htrail (hreads.lt hconsume) (by omega) (by omega)
  exact ⟨hturn, hreads.weaken (le_refl _) fun _ => hconsume, hready, hrest, heq⟩

/-- A loop with at least one turn reads turns, one after the other. -/
theorem SoundAt.many1_step (h : SoundAt S n) {alts : List Piece}
    (hp : (Piece.many1 alts).LaidOut S.net p) (hfits : (Piece.many1 alts).Fits)
    (hs : S.Ready (n + 1) (3 + Piece.maxNeed alts) s)
    (hclean : (S.parseMany1 (n + 1) F p alts s).Clean) :
    Reads S.kinds (Piece.anyWords alts * (Piece.anyWords alts)∗) true s
      (S.parseMany1 (n + 1) F p alts s).trees (S.parseMany1 (n + 1) F p alts s).state := by
  rw [parseMany1_succ] at hclean ⊢
  obtain ⟨-, hreads, hready, hrest, heq⟩ :=
    h.many1_turn hp hfits (hs.call (.refl s) (by omega)) rfl hclean
  rw [heq]
  suffices hturns : Reads S.kinds (Piece.anyWords alts)∗ false _ _ _ from
    (hreads.append hturns).weaken (le_refl _) fun _ => rfl
  -- Whatever is decided behind the turn, any number of turns follow.
  rw [← Language.one_add_self_mul_kstar_eq_kstar]
  unfold parseRepeat at hrest ⊢
  split at hrest
  · exact absurd hrest.fault (by simp [Step.fail])
  · rename_i s' hd
    have hreads' := h.many1 F p alts s' hp hfits (hready.call (decide_trail hd) (by omega)) hrest
    exact (hreads'.of_le (decide_pos hd).ge).weaken le_add_self (by simp)
  · rename_i i s' hne hd
    exact (Reads.nil (decide_pos hd).ge).weaken le_self_add id

/-- What operators are applied does not depend on the operand. -/
theorem parseOperators_state (back : Place) (alts : List Piece) (operand operand' : List (Tree Nat)) :
    (S.parseOperators n F p back alts operand s).state =
      (S.parseOperators n F p back alts operand' s).state := by
  induction n generalizing back operand operand' s with
  | zero => rfl
  | succ n ih =>
    simp only [parseOperators]
    split
    · rfl
    · split
      · rfl
      · split
        · rfl
        · split
          · rfl
          · split
            · rfl
            · exact ih _ _ _
    · rfl

/-- Operators do not take back a complaint. -/
theorem complaints_of_parseOperators {back : Place} {alts : List Piece} {operand : List (Tree Nat)}
    (h : (S.parseOperators n F p back alts operand s).state.complaints = []) : s.complaints = [] := by
  have htrail := (S.anyTrailAt n).operators F p back alts [] s s (Piece.allWithin_true alts) rfl
    (.refl s)
  rw [parseOperators_state back alts operand []] at h
  exact htrail.complaints_eq_nil h

/-- An operator without its guard is its rest. -/
theorem words_suffix_le (suffixes : List Suffix) :
    Piece.anyWords (suffixes.map Suffix.piece) ≤ Piece.anyWords (suffixes.map Suffix.rest) := by
  intro w hw
  obtain ⟨piece, hpiece, hw⟩ := Piece.mem_anyWords.1 hw
  obtain ⟨suffix, hsuffix, rfl⟩ := List.mem_map.1 hpiece
  refine Piece.mem_anyWords.2 ⟨suffix.rest, List.mem_map_of_mem hsuffix, ?_⟩
  rwa [Suffix.piece, Piece.words_andThen, Piece.words_guard, one_mul] at hw

/-- Where there is nothing to choose between, or nothing to complain about, the next operator is
chosen at once. -/
theorem chooseOperator_clean {alts : List Piece} {a : Step} (hs : s.Honest)
    (ha : (if alts.length = 1 then Step.ok [] s else S.resync F p false s) = a) (hclean : a.Clean) :
    a = .ok [] s := by
  subst ha
  split at hclean
  · rename_i hone
    rw [if_pos hone]
  · rename_i hone
    rw [if_neg hone]
    exact resync_clean hs hclean

/-- Without a complaint the loop of the operators is left, or an operator is chosen and read, and the
loop goes on behind it with what has been read as the first operand. -/
theorem parseOperators_clean (hnet : S.net.Wired Rule.body) {back : Place} {alts : List Piece}
    {operand : List (Tree Nat)} (hp : (Piece.many alts).LaidOut S.net p) (hs : s.Honest)
    (hclean : (S.parseOperators (n + 1) F p back alts operand s).Clean) :
    (∃ i t, S.decide F p (some 2) s = (.take i, t) ∧ i ≠ 1 ∧
      S.parseOperators (n + 1) F p back alts operand s = .ok operand t) ∨
    ∃ i q piece t, alternative? p.rule (p.offset + 5) alts i = some (q, piece) ∧
      AnyTrail S s [] t ∧ t.pos = s.pos ∧ (S.parsePiece n F q piece t).Clean ∧
      S.parseOperators (n + 1) F p back alts operand s =
        S.parseOperators n F p (p.move (p.offset + 3)) alts
        (.node none p.rule operand :: (S.parsePiece n F q piece t).trees)
        (S.parsePiece n F q piece t).state := by
  simp only [parseOperators] at hclean ⊢
  split at hclean
  · exact absurd hclean.fault (by simp)
  · rename_i s' hd
    have hlook : AnyTrail S s [] s' := decide_trail hd
    generalize ha : (if alts.length = 1 then Step.ok [] s'
      else S.resync F (p.move (p.offset + 1)) false s') = a at hclean ⊢
    split at hclean
    · exact absurd hclean.fault (by simp)
    · rename_i hfault
      split at hclean
      · exact absurd hclean.fault (by simp)
      · rename_i i t hc
        have hchoose : AnyTrail S a.state [] t := chooseOperator_trail hc
        -- The operator has been chosen among those that there are.
        have hpos : t.pos = a.state.pos ∧ 1 ≤ i ∧ i ≤ alts.length := by
          split at hc
          · rename_i hone
            cases hc
            exact ⟨rfl, Nat.le_refl 1, hone.ge⟩
          · have hi := decide_take hnet hp.many.fork hc
            rw [Piece.length_starts] at hi
            exact ⟨decide_pos hc, hi⟩
        have hsome : (alternative? p.rule (p.offset + 5) alts i).isSome = true :=
          alternative?_isSome hpos.2.1 hpos.2.2
        obtain ⟨⟨q, piece⟩, hq⟩ := Option.isSome_iff_exists.1 hsome
        simp only [hq] at hclean ⊢
        split at hclean
        · exact absurd hclean.fault (by simp)
        · rename_i hbfault
          have hb := Step.Clean.mk hbfault (complaints_of_parseOperators hclean.complaints)
          have hpiece := (hb.andThen (resync_trail true)).1
          have htrail := (S.anyTrailAt n).piece F q piece t (Piece.within_true piece)
          have haclean : a.Clean :=
            ⟨hfault, hchoose.complaints_eq_nil (htrail.complaints_eq_nil hpiece.complaints)⟩
          obtain rfl := chooseOperator_clean (hlook.honest hs) ha haclean
          have hbefore : AnyTrail S s [] t := hlook.trans hchoose
          have hsame := andThen_resync_clean (htrail.honest (hbefore.honest hs)) hb
          refine .inr ⟨i, q, piece, t, hq, hbefore, hpos.1.trans (decide_pos hd), hpiece, ?_⟩
          simp only [hsame, Step.ok, List.append_nil]
  · rename_i i s' hne hd
    exact .inl ⟨i, s', hd, hne, rfl⟩

/-- Each operator makes a node of what has been read and reads its own rest. -/
theorem SoundAt.operators_step (h : SoundAt S n) (hnet : S.net.Wired Rule.body) {back : Place}
    {atoms : List Piece} {suffixes : List Suffix} {operand : List (Tree Nat)} {s₀ : Progress}
    (hbody : p.rule.body = .operators atoms suffixes)
    (hp : (Piece.many (suffixes.map Suffix.piece)).LaidOut S.net p)
    (hfits : (Piece.many (suffixes.map Suffix.piece)).Fits)
    (hs : S.Ready (n + 1) (1 + Piece.maxNeed (suffixes.map Suffix.piece)) s)
    (ho : Reads S.kinds p.rule.language true s₀ operand s)
    (hclean : (S.parseOperators (n + 1) F p back (suffixes.map Suffix.piece) operand s).Clean) :
    Reads S.kinds p.rule.language true s₀
      (S.parseOperators (n + 1) F p back (suffixes.map Suffix.piece) operand s).trees
      (S.parseOperators (n + 1) F p back (suffixes.map Suffix.piece) operand s).state := by
  obtain ⟨hall, hconsume, hneed⟩ := hfits.many
  rcases parseOperators_clean hnet hp hs.honest hclean with
    ⟨i, t, hd, -, heq⟩ | ⟨i, q, piece, t, hq, hbefore, hpos, hpiece, heq⟩
  · rw [heq]
    exact ho.extend (decide_pos hd).ge
  · rw [heq] at hclean ⊢
    have htrail := (S.anyTrailAt n).piece F q piece t (Piece.within_true piece)
    have ht : S.Ready n (Piece.maxNeed (suffixes.map Suffix.piece)) t := hs.call hbefore (by omega)
    have hreads := h.alternative hp.many.alternatives hall ht hq hpiece
    have hwhole : Reads S.kinds p.rule.language true s₀
        (.node none p.rule operand :: (S.parsePiece n F q piece t).trees)
        (S.parsePiece n F q piece t).state := by
      refine ((ho.extend hpos.ge).node.append hreads).weaken ?_ fun _ => rfl
      rw [Rule.language_operators hbody]
      exact le_add_of_le_right (mul_le_mul_right (words_suffix_le suffixes) _)
    have hlt := Nat.lt_of_le_of_lt hpos.ge (hreads.lt hconsume)
    refine h.operators F p _ atoms suffixes _ s₀ _ hbody hp hfits ?_ hwhole hclean
    exact hs.behind (hbefore.trans htrail) hlt (by omega) (by omega)

/-- The atom with which a rule that applies operators begins takes a token, and the operators start
behind it with enough depth. -/
theorem SoundAt.atom (h : SoundAt S n) (hnet : S.net.Wired Rule.body) (hS : S.body = Rule.body)
    {r : Rule} {atoms : List Piece} {suffixes : List Suffix}
    (hops : r.body = .operators atoms suffixes) {atom : Step}
    (hatom : S.parsePiece n F (.start r) (.choice atoms) s = atom)
    (hs : S.Ready n r.body.piece.need s) (hclean : (S.parseBody n F r s).Clean) :
    atom.Clean ∧ Reads S.kinds (Piece.anyWords atoms) true s atom.trees atom.state ∧
      S.Ready n (1 + Piece.maxNeed (suffixes.map Suffix.piece)) atom.state ∧
      S.parseBody n F r s = S.parseOperators n F ⟨r, 1 + (Piece.choice atoms).size⟩
        ⟨r, 1 + (Piece.choice atoms).size⟩ (suffixes.map Suffix.piece) atom.trees atom.state := by
  subst hatom
  obtain ⟨-, hfits, hconsumes⟩ := r.depth_bounds
  have hstart := hnet.start r
  rw [hops] at hs hfits hconsumes hstart
  rw [Body.piece, Piece.need] at hs
  unfold parseBody at hclean ⊢
  rw [hS, hops] at hclean ⊢
  dsimp only at hclean ⊢
  split at hclean
  · rename_i f hfault
    exact absurd hclean.fault (by simp [hfault])
  · rename_i hfault
    have hatom : (S.parseAtom n F r atoms s).Clean :=
      ⟨hfault, complaints_of_parseOperators hclean.complaints⟩
    have htrail := (S.anyTrailAt n).piece F (.start r) (.choice atoms) s (Piece.within_true _)
    have hsame : S.parseAtom n F r atoms s = S.parsePiece n F (.start r) (.choice atoms) s :=
      andThen_resync_clean (htrail.honest hs.honest) hatom
    rw [hsame] at hatom ⊢
    have hreads := h.piece F _ (.choice atoms) s hstart.left hfits.left
      (hs.call (.refl s) (by omega)) hatom
    have hconsume : (Piece.choice atoms).consumes = true := by
      have hpiece := hconsumes (Rule.consumes_of_operators hops)
      simpa [Body.piece, Piece.consumes] using hpiece
    obtain ⟨-, -, hneed⟩ := hfits.right.many
    refine ⟨hatom, hreads.weaken (le_refl _) fun _ => hconsume, ?_, rfl⟩
    exact hs.behind htrail (hreads.lt hconsume) (by omega) (by omega)

/-- The right-hand side of a rule reads one of its words. -/
theorem SoundAt.body_step (h : SoundAt S n) (hnet : S.net.Wired Rule.body)
    (hS : S.body = Rule.body) {r : Rule} (hs : S.Ready n r.body.piece.need s)
    (hclean : (S.parseBody n F r s).Clean) :
    Reads S.kinds r.language r.consumes s (S.parseBody n F r s).trees
      (S.parseBody n F r s).state := by
  obtain ⟨-, hfits, hconsumes⟩ := r.depth_bounds
  have hstart := hnet.start r
  cases hbody : r.body with
  | plain piece =>
    rw [parseBody_plain (hS ▸ hbody)] at hclean ⊢
    rw [hbody] at hs hfits hconsumes hstart
    rw [Rule.language_plain hbody]
    exact (h.piece F _ piece s hstart hfits hs hclean).weaken (le_refl _) hconsumes
  | operators atoms suffixes =>
    obtain ⟨-, hreads, hready, heq⟩ := h.atom hnet hS hbody rfl hs hclean
    rw [heq] at hclean ⊢
    rw [hbody] at hfits hstart
    have hoperand : Reads S.kinds r.language true _ _ _ :=
      hreads.weaken (by rw [Rule.language_operators hbody]; exact le_self_add) id
    exact (h.operators F ⟨r, 1 + (Piece.choice atoms).size⟩ _ atoms suffixes _ s _ hbody
      hstart.right hfits.right hready hoperand hclean).weaken (le_refl _) fun _ => rfl

/-- A rule reads itself: a node above what its right-hand side reads. -/
theorem SoundAt.rule_step (h : SoundAt S n) (hnet : S.net.Wired Rule.body)
    (hS : S.body = Rule.body) {callers : List Place} {r : Rule} {level : Nat}
    (hs : S.Ready (n + 1) r.rank s)
    (hclean : (S.parseRule (n + 1) callers r level s).2.complaints = []) :
    Reads S.kinds {[.rule r]} r.consumes s [(S.parseRule (n + 1) callers r level s).1]
      (S.parseRule (n + 1) callers r level s).2 := by
  have hneed := r.depth_bounds.1
  have hs' : S.Ready n r.body.piece.need s := hs.call (.refl s) (by omega)
  have htrail := (S.anyTrailAt n).body_step (F := ⟨callers, level⟩) (s := s) (r := r) rfl
    (Piece.within_true (S.body r).piece)
  rw [parseRule_succ] at hclean ⊢
  split at hclean
  · rename_i hfault
    exact (h.body_step hnet hS hs' ⟨hfault, hclean⟩).node
  · exact absurd hclean (giveUp_complains (htrail.honest hs.honest) _)

/-- Every function of the parser reads words of the grammar, whatever the bound on its depth. -/
theorem soundAt (hnet : S.net.Wired Rule.body) (hS : S.body = Rule.body) : ∀ n, SoundAt S n
  | 0 => .zero
  | n + 1 =>
    have h := soundAt hnet hS n
    { piece := fun _ _ piece _ hp hfits hs hclean => h.piece_step piece hp hfits hs hclean
      block := fun _ _ _ _ _ hp hfits hs hclean => h.block_step hnet hp hfits hs hclean
      optional := fun _ _ _ _ _ _ hp hfits hs hclean => h.optional_step hp hfits hs hclean
      turn := fun _ _ _ _ _ hp hfits hs hclean => h.turn_step hp hfits hs hclean
      many := fun _ _ _ _ _ hp hfits hs hclean => h.many_step hp hfits hs hclean
      many1 := fun _ _ _ _ hp hfits hs hclean => h.many1_step hp hfits hs hclean
      operators := fun _ _ _ _ _ _ _ _ hbody hp hfits hs ho hclean =>
        h.operators_step hnet hbody hp hfits hs ho hclean
      rule := fun _ _ _ _ hs hclean => h.rule_step hnet hS hs hclean }

end

end Setting

/-! ## Whole parses -/

/-- The bound on the depth of a parse is enough for every rule. -/
theorem depthLimit_ge (r : Rule) (tokens : Nat) :
    tokens * tokenDepth + r.rank ≤ depthLimit tokens := by
  have hrank : r.rank ≤ tokenDepth := by cases r <;> decide
  unfold depthLimit
  unfold tokenDepth at *
  omega

/-- A parse without complaints reads its rule. -/
theorem TokenStream.parse_reads {T : TokenStream} {r : Rule} {level : Nat}
    (h : (T.parse r level).complaints = []) : ∃ t : Progress, t.pos = (T.parse r level).next ∧
    Reads T.kinds {[.rule r]} r.consumes .initial [(T.parse r level).tree] t := by
  have hready : (Setting.java T.kinds T.index).Ready (depthLimit T.kinds.size) r.rank .initial :=
    ⟨Progress.honest_initial, Nat.zero_le _, depthLimit_ge r T.kinds.size⟩
  exact ⟨_, rfl, (Setting.soundAt (S := .java T.kinds T.index) Network.java_wired rfl _).rule [] r
    level _ hready (List.reverse_eq_nil_iff.1 h)⟩

/-- A source text without complaints has a derivation of its rule, with its tokens at the leaves. -/
theorem analyse_derives {r : Rule} {level : Nat} {source : List Char}
    (h : ((TokenStream.ofSource source).parse r level).complaints = []) :
    (analyse r level source).tree.Derives Token.kind ∧
      (analyse r level source).tree.symbol Token.kind = .rule r := by
  obtain ⟨t, -, hreads⟩ := TokenStream.parse_reads h
  have hkind : Token.kind ∘ (TokenStream.ofSource source).get =
      kindAt (TokenStream.ofSource source).kinds :=
    funext fun i => TokenStream.get_kind source i
  rw [analyse_tree, Tree.derives_map, Tree.symbol_map, hkind]
  exact ⟨hreads.derives.1, List.cons.inj hreads.word |>.1⟩

/-- **A parse without complaints is a derivation.** Its tree has no leaves from error recovery, its
root belongs to the rule with which the parse began, and at every node the tokens and rules of the
children form a word of the right-hand side. -/
theorem derivation_of_no_complaints (r : Rule) (level : Nat) (source : List Char)
    (h : ((TokenStream.ofSource source).parse r level).complaints = []) :
    (analyse r level source).tree.Intact ∧
      (∃ role children, (analyse r level source).tree = .node role r children) ∧
      ∀ n ∈ (analyse r level source).tree.nodes, n.2.map (Tree.symbol Token.kind) ∈ n.1.language := by
  obtain ⟨hderives, hroot⟩ := analyse_derives h
  refine ⟨hderives.intact, ?_, fun n hn => (hderives.of_mem_nodes n hn).1⟩
  cases htree : (analyse r level source).tree with
  | node role r' children =>
    rw [htree] at hroot
    cases hroot
    exact ⟨role, children, rfl⟩
  | token | skipped | missing =>
    rw [htree] at hroot
    cases hroot

/-- A file with one empty class is parsed without complaints, and so its tree is a derivation. -/
theorem derivation_of_empty_class :
    ((TokenStream.ofSource "class A{}".toList).parse .compilationUnit 0).complaints = [] ∧
      (analyse .compilationUnit 0 "class A{}".toList).tree.Intact ∧
      ∀ n ∈ (analyse .compilationUnit 0 "class A{}".toList).tree.nodes,
        n.2.map (Tree.symbol Token.kind) ∈ n.1.language := by
  have hquiet : ((TokenStream.ofSource "class A{}".toList).parse .compilationUnit 0).complaints =
      [] := by decide +kernel
  obtain ⟨hintact, -, hwords⟩ := derivation_of_no_complaints .compilationUnit 0 _ hquiet
  exact ⟨hquiet, hintact, hwords⟩

end JavaOutline
