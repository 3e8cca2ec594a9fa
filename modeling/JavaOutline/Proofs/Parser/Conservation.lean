import JavaOutline.Proofs.Lexer.Stream
import JavaOutline.Proofs.Parser.Complaints

/-!
# No token is lost

The leaves of a syntax tree are the visible tokens up to the one at which the parser has stopped,
each once and in order, whatever errors there were (`Trail.leavesAll_eq`). Behind them only the end
of the file can follow. It is a terminal at most once, and then the last child of a compilation
unit, the one rule that wants it (`parse_terminals`). Any further leaf for the end of the file has
been skipped: a parser that fails at the end of the file, returns to the caller and fails there at
a place where it has failed before skips the next token, and the next token is the end of the file
(`end_skipped_at_unclosed_patterns`).
-/

namespace JavaOutline

namespace Trail

variable {S : Setting} {K : Kind → Bool} {R : Rule → Bool} {s s' : Progress}
  {ts : List (Tree Nat)}

/-- The parser never goes back, and never behind the end of the file. -/
theorem pos_bounds (h : Trail S K R s ts s') (hs : s.pos ≤ S.kinds.size) :
    s.pos ≤ s'.pos ∧ s'.pos ≤ S.kinds.size := by
  induction h with
  | refl | look | cut | fail | assume => exact ⟨Nat.le_refl _, hs⟩
  | complain => simpa using hs
  | trans _ _ ih ih' =>
    have h₁ := ih hs
    have h₂ := ih' h₁.2
    exact ⟨Nat.le_trans h₁.1 h₂.1, h₂.2⟩
  | accept | skip | drop =>
    simp only [Progress.settle, Progress.advance_pos]
    split <;> omega
  | node _ _ _ ih | named _ _ ih => exact ih hs

/-- The positions of one stretch and those of the next are the positions of both. Once the end of
the file is among them no other token can follow. -/
theorem range'_append_range' {i j k size m m' : Nat} (hij : i ≤ j) (hjk : j ≤ k) (hk : k ≤ size)
    (hm : m ≠ 0 → j = size) :
    List.range' i (j - i) ++ List.replicate m size ++
        (List.range' j (k - j) ++ List.replicate m' size) =
      List.range' i (k - i) ++ List.replicate (m + m') size := by
  have hjoin : List.range' i (j - i) ++ List.range' j (k - j) = List.range' i (k - i) := by
    have h := List.range'_append_1 (s := i) (m := j - i) (n := k - j)
    rwa [Nat.add_sub_cancel' hij, show j - i + (k - j) = k - i by omega] at h
  cases m with
  | zero => rw [List.replicate_zero, List.append_nil, ← List.append_assoc, hjoin, Nat.zero_add]
  | succ m =>
    obtain rfl : j = size := hm (Nat.succ_ne_zero m)
    obtain rfl : k = j := by omega
    simp [List.append_assoc, List.replicate_append_replicate]

/-- One token is taken: it is the next one, or the end of the file once more. -/
theorem range'_advance {i size : Nat} (hi : i ≤ size) :
    ∃ m, [i] = List.range' i ((if i < size then i + 1 else i) - i) ++ List.replicate m size ∧
      (m ≠ 0 → (if i < size then i + 1 else i) = size) := by
  split
  · exact ⟨0, by simp, by simp⟩
  · obtain rfl : i = size := by omega
    exact ⟨1, by simp, by simp⟩

/-- The leaves on a trail are the tokens from its first position up to its last one, and behind
them the end of the file any number of times. -/
theorem leavesAll_eq (h : Trail S K R s ts s') (hs : s.pos ≤ S.kinds.size) :
    ∃ m, Tree.leavesAll ts =
        List.range' s.pos (s'.pos - s.pos) ++ List.replicate m S.kinds.size ∧
      (m ≠ 0 → s'.pos = S.kinds.size) := by
  induction h with
  | refl | look | cut | fail | assume => exact ⟨0, by simp [Tree.leaves], by simp⟩
  | complain => exact ⟨0, by simp, by simp⟩
  | trans h h' ih ih' =>
    have hb := h.pos_bounds hs
    have hb' := h'.pos_bounds hb.2
    obtain ⟨m, hl, hm⟩ := ih hs
    obtain ⟨m', hl', hm'⟩ := ih' hb.2
    refine ⟨m + m', ?_, fun hne => ?_⟩
    · rw [Tree.leavesAll_append, hl, hl', range'_append_range' hb.1 hb'.1 hb'.2 hm]
    · rcases Nat.eq_zero_or_pos m with rfl | hpos
      · exact hm' (by omega)
      · have := hm (by omega)
        omega
  | accept | skip | drop =>
    simp only [Tree.leavesAll_cons, Tree.leaves, Tree.leavesAll_nil, List.append_nil,
      Progress.settle, Progress.advance_pos]
    exact range'_advance hs
  | node _ _ _ ih => simpa [Tree.leaves] using ih hs
  | named _ _ ih => simpa using ih hs

/-- Only tokens of the kinds `K` become terminals. -/
theorem terminals_kind (h : Trail S K R s ts s') :
    ∀ i ∈ Tree.terminalsAll ts, K (kindAt S.kinds i) = true := by
  induction h with
  | refl | look | cut | complain | fail | skip | drop | assume => simp [Tree.terminals]
  | trans _ _ ih ih' =>
    intro i hi
    rw [Tree.terminalsAll_append, List.mem_append] at hi
    exact hi.elim (ih i) (ih' i)
  | accept hk => simpa [Tree.terminals] using hk
  | node _ _ _ ih => simpa [Tree.terminals] using ih
  | named _ _ ih => simpa using ih

end Trail

/-! ## The end of the file as a terminal -/

/-- Any kind but the end of the file. -/
def Kind.isInner (k : Kind) : Bool := k != .endOfFile

/-- Any rule but the one for a whole file. -/
def Rule.isInner (r : Rule) : Bool := r != .compilationUnit

/-- Only a compilation unit wants the end of the file, and no rule wants a compilation unit. -/
theorem Rule.within_inner (r : Rule) (h : r.isInner = true) :
    r.body.within Kind.isInner Rule.isInner = true := by
  revert h
  cases r <;> decide

/-- A step whose last tree may be a terminal for the end of the file, and no other one is. -/
def Step.EndsOnce (kinds : Array Kind) (a : Step) : Prop :=
  ∃ ts us, a.trees = ts ++ us ∧
    (∀ i ∈ Tree.terminalsAll ts, kindAt kinds i ≠ .endOfFile) ∧
    (us = [] ∨ ∃ i, us = [.token none i] ∧ kindAt kinds i = .endOfFile ∧ a.fault = none)

namespace Step

variable {S : Setting} {s : Progress} {a : Step} {f : Progress → Step}

/-- On a trail of inner kinds there is no terminal for the end of the file. -/
theorem EndsOnce.of_trail (h : Trail S Kind.isInner Rule.isInner s a.trees a.state) :
    a.EndsOnce S.kinds :=
  ⟨a.trees, [], by simp, fun i hi => by simpa [Kind.isInner] using h.terminals_kind i hi, .inl rfl⟩

/-- What comes before the last step does not matter as long as it leaves a trail of inner kinds. -/
theorem EndsOnce.andThen (ha : Trail S Kind.isInner Rule.isInner s a.trees a.state)
    (hf : a.fault = none → (f a.state).EndsOnce S.kinds) : (a.andThen f).EndsOnce S.kinds := by
  unfold Step.andThen
  split
  · exact .of_trail ha
  · obtain ⟨ts, us, htrees, hts, hus⟩ := hf ‹_›
    refine ⟨a.trees ++ ts, us, by simp [htrees], fun i hi => ?_, hus⟩
    rw [Tree.terminalsAll_append, List.mem_append] at hi
    rcases hi with hi | hi
    · simpa [Kind.isInner] using ha.terminals_kind i hi
    · exact hts i hi

end Step

namespace Setting

variable {S : Setting} {F : Frame} {p : Place} {s : Progress}

/-- Where the end of the file is wanted it is the last tree or none. -/
theorem accept_end_endsOnce {after : Place} :
    (S.accept F p (.single .endOfFile) after [.missing .endOfFile] s).EndsOnce S.kinds := by
  have taken : ∀ t : Progress, t.settle = t → S.next t = .endOfFile →
      (S.takeNext t).EndsOnce S.kinds := by
    intro t ht hnext
    refine ⟨[], [.token none t.pos], ?_, by simp, .inr ⟨t.pos, rfl, hnext, rfl⟩⟩
    rw [takeNext, Step.ok, ← ht]
    rfl
  unfold accept
  split
  · rename_i hnext
    exact taken _ rfl ((KindSet.mem_single _ _).1 hnext)
  · rename_i hnext
    split
    · rename_i a hd
      obtain ⟨htrail, -, hsettle, -⟩ := drop?_some hd
      refine .andThen htrail fun _ => taken _ hsettle ?_
      exact (KindSet.mem_single _ _).1 (next_of_drop?_some hnext hd)
    · rename_i hd
      obtain rfl := drop?_none hd
      split
      · exact ⟨[.missing .endOfFile], [], rfl, by simp [Tree.terminals], .inl rfl⟩
      · exact ⟨[], [], rfl, by simp, .inl rfl⟩

/-- The alternatives of a compilation unit: declarations, or a module and the end of the file. -/
theorem compilationUnit_body : ∃ declarations,
    declarations.within Kind.isInner Rule.isInner = true ∧
      Rule.compilationUnit.body = .plain (.choice
        [declarations, .andThen (.call .moduleDeclaration 0) (.token .endOfFile)]) :=
  ⟨_, by decide, rfl⟩

/-- Inside a compilation unit the parser leaves trails of inner kinds. -/
theorem trailAt_inner (hS : S.body = Rule.body) (n : Nat) :
    TrailAt S Kind.isInner Rule.isInner n :=
  trailAt (hS ▸ Rule.within_inner) n

/-- A module and the end of the file, at any depth. -/
theorem module_endsOnce (hS : S.body = Rule.body) (n : Nat) :
    (S.parsePiece n F p (.andThen (.call .moduleDeclaration 0) (.token .endOfFile)) s).EndsOnce
      S.kinds := by
  cases n with
  | zero => exact .of_trail (s := s) (.cut true s)
  | succ n =>
    refine .andThen ((trailAt_inner hS n).piece F p (.call .moduleDeclaration 0) s rfl) fun _ => ?_
    cases n with
    | zero => exact .of_trail (.cut true _)
    | succ n => exact accept_end_endsOnce

/-- The right-hand side of a compilation unit, at any depth. -/
theorem compilationUnit_endsOnce (hS : S.body = Rule.body) (n : Nat) :
    (S.parseBody n F .compilationUnit s).EndsOnce S.kinds := by
  obtain ⟨declarations, hw, hbody⟩ := compilationUnit_body
  rw [← hS] at hbody
  rw [parseBody_plain hbody]
  match n with
  | 0 => exact .of_trail (s := s) (.cut true s)
  | 1 => exact .of_trail (s := s) (.cut true s)
  | n + 2 =>
    refine .andThen (resync_trail false) fun _ => ?_
    split
    · rename_i hd
      exact .of_trail (decide_trail hd)
    · rename_i i s' hd
      split
      · rename_i q piece hq
        rcases List.mem_cons.1 (mem_of_alternative? hq) with rfl | hlast
        · exact .of_trail ((trailAt_inner hS n).piece F q _ s' hw)
        · obtain rfl := List.mem_singleton.1 hlast
          exact module_endsOnce hS n
      · exact .of_trail (decide_trail hd)

/-- A tree has no terminal for the end of the file, unless it is a compilation unit that ends with
it. -/
theorem parseRule_terminals (hS : S.body = Rule.body) (n : Nat) (callers : List Place) (r : Rule)
    (level : Nat) (s : Progress) :
    (∀ i ∈ (S.parseRule n callers r level s).1.terminals, kindAt S.kinds i ≠ .endOfFile) ∨
      r = .compilationUnit ∧ ∃ ts i,
        (S.parseRule n callers r level s).1 = .node none r (ts ++ [.token none i]) ∧
        kindAt S.kinds i = .endOfFile ∧
        ∀ j ∈ Tree.terminalsAll ts, kindAt S.kinds j ≠ .endOfFile := by
  by_cases hr : r = .compilationUnit
  · subst hr
    cases n with
    | zero => exact .inl (by simp [parseRule, Tree.terminals])
    | succ n =>
      obtain ⟨ts, us, htrees, hts, hus⟩ :=
        compilationUnit_endsOnce (F := ⟨callers, level⟩) (s := s) hS n
      rw [parseRule_succ]
      split
      · rcases hus with rfl | ⟨i, rfl, hi, -⟩
        · rw [List.append_nil] at htrees
          exact .inl (by simpa [Tree.terminals, htrees] using hts)
        · exact .inr ⟨rfl, ts, i, by rw [htrees], hi, hts⟩
      · rename_i f hfault
        -- After an error the last tree is no terminal, and giving up adds only skipped tokens.
        rcases hus with rfl | ⟨i, rfl, hi, hnone⟩
        · rw [List.append_nil] at htrees
          refine .inl fun i hi => ?_
          simp only [Tree.terminals, Tree.terminalsAll_append, List.mem_append, htrees] at hi
          rcases hi with hi | hi
          · exact hts i hi
          · have h := (giveUp_trail (K := Kind.isInner) (R := Rule.isInner)
              (F := ⟨callers, level⟩) f).terminals_kind i hi
            simpa [Kind.isInner] using h
        · rw [hnone] at hfault
          cases hfault
  · have h := (trailAt_inner hS n).rule callers r level s (by simpa [Rule.isInner] using hr)
    refine .inl fun i hi => ?_
    have hk := h.terminals_kind i (by simpa using hi)
    simpa [Kind.isInner] using hk

end Setting

/-! ## Whole parses -/

/-- A parse leaves a trail from the first token on. -/
theorem Setting.run_trail (S : Setting) (n : Nat) (r : Rule) (level : Nat) :
    Trail S (fun _ => true) (fun _ => true) .initial [(S.run n r level).1] (S.run n r level).2 :=
  (trailAt (fun r _ => Piece.within_true (S.body r).piece) n).rule [] r level .initial rfl

namespace TokenStream

variable (T : TokenStream) (r : Rule) (level : Nat)

/-- The parse of a token stream leaves a trail from the first token on. -/
theorem parse_trail : ∃ t, Trail (Setting.java T.kinds T.index) (fun _ => true) (fun _ => true)
    .initial [(T.parse r level).tree] t ∧ (T.parse r level).next = t.pos ∧
      (T.parse r level).seen = t.seen ∧ (T.parse r level).complaints = t.complaints.reverse :=
  ⟨_, Setting.run_trail _ (depthLimit T.kinds.size) r level, rfl, rfl, rfl⟩

/-- A parse stops at a token or at the end of the file. -/
theorem parse_next_le : (T.parse r level).next ≤ T.kinds.size := by
  obtain ⟨t, htrail, hnext, -, -⟩ := T.parse_trail r level
  rw [hnext]
  exact (htrail.pos_bounds (Nat.zero_le _)).2

/-- The leaves of a parse are the positions up to the one at which it stops, and behind them the
end of the file any number of times. -/
theorem parse_leaves : ∃ m, (T.parse r level).tree.leaves =
      List.range (T.parse r level).next ++ List.replicate m T.kinds.size ∧
    (m ≠ 0 → (T.parse r level).next = T.kinds.size) := by
  obtain ⟨t, htrail, hnext, -, -⟩ := T.parse_trail r level
  obtain ⟨m, hl, hm⟩ := htrail.leavesAll_eq (Nat.zero_le _)
  rw [hnext]
  refine ⟨m, ?_, hm⟩
  rw [Tree.leavesAll_cons, Tree.leavesAll_nil, List.append_nil] at hl
  rw [List.range_eq_range']
  exact hl

/-- A parse without complaints has neither skipped nor assumed a token. -/
theorem parse_intact (h : (T.parse r level).complaints = []) : (T.parse r level).tree.Intact := by
  obtain ⟨t, htrail, -, -, hcomplaints⟩ := T.parse_trail r level
  rw [hcomplaints, List.reverse_eq_nil_iff] at h
  exact (htrail.intactAll Progress.honest_initial h).1

/-- The end of the file is a terminal of a parse of a compilation unit only, once, and then its last
child. -/
theorem parse_terminals :
    (∀ i ∈ (T.parse r level).tree.terminals, kindAt T.kinds i ≠ .endOfFile) ∨
      r = .compilationUnit ∧ ∃ ts i,
        (T.parse r level).tree = .node none r (ts ++ [.token none i]) ∧
        kindAt T.kinds i = .endOfFile ∧
        ∀ j ∈ Tree.terminalsAll ts, kindAt T.kinds j ≠ .endOfFile :=
  Setting.parseRule_terminals (S := .java T.kinds T.index) rfl (depthLimit T.kinds.size) [] r level
    .initial

end TokenStream

/-! ## Source texts -/

namespace TokenStream

variable (source : List Char)

/-- The tokens at the first positions are the first visible tokens. -/
theorem map_get_range {n : Nat} (hn : n ≤ (ofSource source).visible.size) :
    (List.range n).map (ofSource source).get = (ofSource source).visible.toList.take n := by
  refine List.ext_getElem (by simp; omega) fun i hi hi' => ?_
  have hsize : i < (ofSource source).visible.size := by simp at hi; omega
  simp [get, Array.getD_eq_getD_getElem?, hsize]

/-- Behind the visible tokens there is only the last token. -/
theorem get_size : (ofSource source).get (ofSource source).visible.size = (ofSource source).final := by
  simp [get, Array.getD_eq_getD_getElem?]

end TokenStream

section
variable (r : Rule) (level : Nat) (source : List Char)

/-- The tree of a source text is that of its kinds, with the tokens at the leaves. -/
theorem analyse_tree : (analyse r level source).tree =
    ((TokenStream.ofSource source).parse r level).tree.map (TokenStream.ofSource source).get :=
  rfl

/-- A source text is read up to a visible token or to its end. -/
theorem analyse_next_le : ((TokenStream.ofSource source).parse r level).next ≤
    (TokenStream.ofSource source).visible.size := by
  simpa using (TokenStream.ofSource source).parse_next_le r level

/-- The parser stops at the end of the file exactly if it has read all visible tokens. -/
theorem analyse_next_eq_endOfFile : (analyse r level source).next = .endOfFile ↔
    ((TokenStream.ofSource source).parse r level).next =
      (TokenStream.ofSource source).visible.size := by
  have hle := analyse_next_le r level source
  have hend := TokenStream.get_kind_eq_endOfFile source
    ((TokenStream.ofSource source).parse r level).next
  exact hend.trans ⟨fun hge => Nat.le_antisymm hle hge, fun heq => Nat.le_of_eq heq.symm⟩

/-- The leaves of a tree are the visible tokens that have been read, and behind them the end of the
file any number of times. -/
theorem analyse_leaves : ∃ m, (analyse r level source).tree.leaves =
      (TokenStream.ofSource source).visible.toList.take
          ((TokenStream.ofSource source).parse r level).next ++
        List.replicate m (TokenStream.ofSource source).final ∧
    (m ≠ 0 → (analyse r level source).next = .endOfFile) := by
  obtain ⟨m, hleaves, hm⟩ := (TokenStream.ofSource source).parse_leaves r level
  refine ⟨m, ?_, fun hne => ?_⟩
  · rw [analyse_tree, Tree.leaves_map, hleaves, List.map_append,
      TokenStream.map_get_range source (analyse_next_le r level source), List.map_replicate,
      TokenStream.size_kinds, TokenStream.get_size]
  · rw [analyse_next_eq_endOfFile, hm hne, TokenStream.size_kinds]

/-- Every terminal of a tree for the end of the file is the last token of the source text; there is
one at most, and only as the last child of a compilation unit. -/
theorem analyse_ends :
    (analyse r level source).tree.terminals.filter (·.kind = .endOfFile) = [] ∨
      r = .compilationUnit ∧
      (analyse r level source).tree.terminals.filter (·.kind = .endOfFile) =
        [(TokenStream.ofSource source).final] ∧
      ∃ ts, (analyse r level source).tree =
        .node none r (ts ++ [.token none (TokenStream.ofSource source).final]) := by
  generalize hT : TokenStream.ofSource source = T
  have htree : (analyse r level source).tree = (T.parse r level).tree.map T.get := by
    rw [← hT]
    exact analyse_tree r level source
  have hends : (analyse r level source).tree.terminals.filter (·.kind = .endOfFile) =
      ((T.parse r level).tree.terminals.filter
        fun i => kindAt T.kinds i = .endOfFile).map T.get := by
    rw [htree, Tree.terminals_map, List.filter_map]
    congr 2
    funext i
    simp only [Function.comp, ← hT, TokenStream.get_kind]
  rcases T.parse_terminals r level with hnone | ⟨hr, ts, i, hP, hi, hts⟩
  · left
    rw [hends, List.filter_eq_nil_iff.2 (by simpa using hnone), List.map_nil]
  · -- The one terminal for the end of the file stands behind all visible tokens.
    right
    have hget : T.get i = T.final := by
      have hge : T.visible.size ≤ i := by
        rwa [← hT, ← TokenStream.get_kind_eq_endOfFile source, TokenStream.get_kind, hT]
      simp [TokenStream.get, Array.getD_eq_getD_getElem?, Array.getElem?_eq_none hge]
    refine ⟨hr, ?_, Tree.mapAll T.get ts, ?_⟩
    · have hfilter : (T.parse r level).tree.terminals.filter
          (fun i => kindAt T.kinds i = .endOfFile) = [i] := by
        rw [hP, Tree.terminals, Tree.terminalsAll_append, List.filter_append,
          List.filter_eq_nil_iff.2 (by simpa using hts)]
        simp [Tree.terminals, hi]
      rw [hends, hfilter, List.map_singleton, hget]
    · rw [htree, hP]
      simp only [Tree.map, Tree.mapAll_eq_map, List.map_append, List.map_cons, List.map_nil, hget]

/-- The leaves of a tree are the visible tokens in front of the one at which the parser stops, each
once and in order; behind them only the end of the file can follow, and only if the parser stops
there. One of these leaves may be a terminal: the last child of a compilation unit. Further ones
have been skipped, which does not happen without a complaint. -/
theorem leaves_eq_tokens_read :
    ((TokenStream.ofSource source).parse r level).next ≤
        (TokenStream.ofSource source).visible.size ∧
      let T := TokenStream.ofSource source
      let A := analyse r level source
      let P := T.parse r level
      let ends := A.tree.terminals.filter (·.kind = .endOfFile)
      A.next = (T.get P.next).kind ∧
      ∃ m, A.tree.leaves = T.visible.toList.take P.next ++ List.replicate m T.final ∧
        (m ≠ 0 → A.next = .endOfFile) ∧
        (ends = [] ∨ r = .compilationUnit ∧ ends = [T.final] ∧
          ∃ ts, A.tree = .node none r (ts ++ [.token none T.final])) ∧
        (P.complaints = [] → m = ends.length) := by
  refine ⟨analyse_next_le r level source, ?_⟩
  intro T A P ends
  obtain ⟨m, hleaves, hm⟩ := analyse_leaves r level source
  refine ⟨rfl, m, hleaves, hm, analyse_ends r level source, fun hquiet => ?_⟩
  -- Without complaints all leaves are terminals, and no visible token is the end of the file.
  have hsame : A.tree.terminals = A.tree.leaves := by
    have htree : A.tree = P.tree.map T.get := analyse_tree r level source
    have hintact : P.tree.leaves = P.tree.terminals := 
      (T.parse_intact r level hquiet).leaves
    rw [htree, Tree.terminals_map, Tree.leaves_map, hintact]
  have hvisible : (T.visible.toList.take P.next).filter (·.kind = .endOfFile) = [] := by
    refine List.filter_eq_nil_iff.2 fun t ht => ?_
    simpa using TokenStream.kind_ne_endOfFile source (by simpa using List.mem_of_mem_take ht)
  have hends := calc
    ends = A.tree.leaves.filter (·.kind = .endOfFile) := by rw [← hsame]
    _ = (T.visible.toList.take P.next ++ List.replicate m T.final).filter
        (·.kind = .endOfFile) := congrArg _ hleaves
    _ = List.replicate m T.final := by
      rw [List.filter_append, hvisible, List.nil_append]
      simp [T]
  rw [hends, List.length_replicate]

/-- With three opening parentheses and nothing else in a guarded pattern, the parser misses the
closing parenthesis of the third pattern and then, without having moved, that of the second one at
the same place of the rule. There it skips a token, which is the end of the file. So the leaves of a
tree are not always the tokens that have been read. -/
theorem end_skipped_at_unclosed_patterns :
    ¬ ∀ (r : Rule) (level : Nat) (source : List Char),
      let T := TokenStream.ofSource source
      let read := T.visible.toList.take (T.parse r level).next
      (analyse r level source).tree.leaves = read ∨
        r = .compilationUnit ∧ (analyse r level source).tree.leaves = read ++ [T.final] := by
  intro h
  have hpattern := h .guardedPattern 0 "(((".toList
  revert hpattern
  decide +kernel

end

end JavaOutline
