import JavaOutline.Proofs.Parser.Soundness
import JavaOutline.Tree.Walk

/-!
# Where the parse of a file stops

A file is a module followed by its end, or declarations that no end needs to follow. So a parse of
declarations stops without any message in front of whatever is no further declaration. This file
says exactly where that is. A loop whose decision is direct stops only in front of a token that
begins no turn (`Setting.parseMany_stops`); the last loop of a file is of that kind, and the tokens
that begin a turn are `declarationStarts`. Everything in front of the token at which the parse stops
is in the tree, nothing behind it is (`declarations_unread_iff`).
-/

namespace JavaOutline

/-- The kinds of tokens with which a declaration of a file can begin, and the semicolon. An
identifier can begin the name of an annotation. -/
def declarationStarts : List Kind :=
  [.kwAbstract, .kwClass, .kwEnum, .kwFinal, .kwInterface, .kwPrivate, .kwProtected, .kwPublic,
    .kwStatic, .kwStrictfp, .kwModule, .kwOpen, .kwRequires, .kwExports, .kwOpens, .kwTo, .kwUses,
    .kwProvides, .kwWith, .kwTransitive, .kwVar, .kwYield, .kwRecord, .kwSealed, .kwPermits,
    .kwNonSealed, .semi, .atSign, .identifier]

/-- The last loop of a file goes on exactly with these kinds. -/
theorem direct_declarations : Network.java.direct ⟨.compilationUnit, 13⟩ =
    some [.ofList declarationStarts, ∅] := by
  decide +kernel

namespace Setting

section
variable {S : Setting} {n : Nat} {F : Frame} {p : Place} {s : Progress}

/-- A direct decision that leaves a loop does so in front of a token that begins no turn. -/
theorem decide_leave {enter : KindSet} {sets : List KindSet}
    (hp : S.net.direct p = some (enter :: sets)) {i : Nat} {s' : Progress} (hi : i ≠ 1)
    (h : S.decide F p (some 2) s = (.take i, s')) : s' = s ∧ S.next s ∉ enter := by
  unfold decide at h
  rw [hp] at h
  simp only at h
  split at h
  · rename_i j hj
    obtain ⟨hv, rfl⟩ := Prod.mk.inj h
    obtain rfl := Verdict.take.inj hv
    refine ⟨rfl, fun hmem => ?_⟩
    have hzero : j = 0 := by
      have hfirst : (enter :: sets).findIdx? (·.contains (S.next s)) = some 0 := by
        simp [List.findIdx?_cons, hmem]
      rw [hfirst] at hj
      exact (Option.some.inj hj).symm
    exact hi (by rw [hzero])
  · rename_i hnone _
    obtain ⟨-, rfl⟩ := Prod.mk.inj h
    refine ⟨rfl, fun hmem => ?_⟩
    simp [List.findIdx?_cons, hmem] at hnone
  · rename_i hnone
    cases hnone

/-- A loop with a direct decision stops in front of a token that begins no turn. -/
theorem parseMany_stops (hsound : ∀ n, SoundAt S n) {back : Place} {alts : List Piece} {enter : KindSet}
    {sets : List KindSet} (hdirect : S.net.direct p = some (enter :: sets))
    (hp : (Piece.many alts).LaidOut S.net p) (hfits : (Piece.many alts).Fits)
    (hs : S.Ready n (3 + Piece.maxNeed alts) s) (hclean : (S.parseMany n F p back alts s).Clean) :
    S.next (S.parseMany n F p back alts s).state ∉ enter := by
  induction n generalizing back s with
  | zero => exact (not_ready_zero (by omega) hs).elim
  | succ n ih =>
    simp only [parseMany] at hclean ⊢
    split at hclean
    · exact absurd hclean.fault (by simp [Step.fail])
    · rename_i s' hd
      have hlook : AnyTrail S s [] s' := decide_trail hd
      obtain ⟨-, -, ht, hrest, heq⟩ :=
        (hsound n).many_turn hp hfits (hs.call hlook (by omega)) rfl hclean
      rw [heq]
      exact ih ht hrest
    · rename_i i s' hne hd
      obtain ⟨rfl, hnext⟩ := decide_leave hdirect hne hd
      exact hnext

end

/-! ## A whole file -/

section
variable {S : Setting} {n : Nat} {F : Frame} {s : Progress}

/-- The alternatives of a compilation unit, and where its last loop is. -/
theorem compilationUnit_alternatives : ∃ (before before' : Piece) (types : List Piece),
    Rule.compilationUnit.body = .plain (.choice
      [.andThen before (.andThen before' (.many types)),
        .andThen (.call .moduleDeclaration 0) (.token .endOfFile)]) ∧
      3 + before.size + before'.size = 13 :=
  ⟨_, _, _, rfl, rfl⟩

/-- Behind a module the end of the file is taken, and stays the next token. -/
theorem module_stops (hsound : ∀ n, SoundAt S n)
    (hkinds : ∀ i, i < S.kinds.size → kindAt S.kinds i ≠ .endOfFile) {p : Place}
    (hp : (Piece.andThen (.call .moduleDeclaration 0) (.token .endOfFile)).LaidOut S.net p)
    (hfits : (Piece.andThen (.call .moduleDeclaration 0) (.token .endOfFile)).Fits)
    (hs : S.Ready n (Piece.andThen (.call .moduleDeclaration 0) (.token .endOfFile)).need s)
    (hclean : (S.parsePiece n F p
      (.andThen (.call .moduleDeclaration 0) (.token .endOfFile)) s).Clean) :
    S.next (S.parsePiece n F p
      (.andThen (.call .moduleDeclaration 0) (.token .endOfFile)) s).state = .endOfFile := by
  cases n with
  | zero => exact (not_ready_zero (Piece.need_pos _) hs).elim
  | succ n =>
    obtain ⟨-, ht, hend, heq⟩ := (hsound n).andThen_parts hp hfits hs hclean
    rw [heq]
    generalize (S.parsePiece n F p (.call .moduleDeclaration 0) s).state = t at ht hend
    cases n with
    | zero => exact (not_ready_zero (Piece.need_pos _) ht).elim
    | succ n =>
      obtain ⟨hnext, hsame⟩ := accept_clean ht.honest hend
      rw [KindSet.mem_single] at hnext
      have hsize : S.kinds.size ≤ t.pos := Nat.le_of_not_lt fun hlt => hkinds _ hlt hnext
      have hpos : (t.settle.advance S.kinds).pos = t.pos := by
        rw [Progress.advance_pos]
        exact if_neg (Nat.not_lt.2 hsize)
      simp only [parsePiece]
      rw [hsame, next, takeNext, Step.ok, hpos]
      exact hnext

/-- Behind declarations there is a token that begins none. -/
theorem declarations_stop (hsound : ∀ n, SoundAt S n) {p : Place} {before before' : Piece}
    {types : List Piece} {enter : KindSet} {sets : List KindSet}
    (hdirect : S.net.direct (p.move (p.offset + before.size + before'.size)) = some (enter :: sets))
    (hp : (Piece.andThen before (.andThen before' (.many types))).LaidOut S.net p)
    (hfits : (Piece.andThen before (.andThen before' (.many types))).Fits)
    (hs : S.Ready n (Piece.andThen before (.andThen before' (.many types))).need s)
    (hclean : (S.parsePiece n F p (.andThen before (.andThen before' (.many types))) s).Clean) :
    S.next (S.parsePiece n F p (.andThen before (.andThen before' (.many types))) s).state ∉
      enter := by
  cases n with
  | zero => exact (not_ready_zero (Piece.need_pos _) hs).elim
  | succ n =>
    obtain ⟨-, ht, hrest, heq⟩ := (hsound n).andThen_parts hp hfits hs hclean
    rw [heq]
    generalize (S.parsePiece n F p before s).state = t at ht hrest
    cases n with
    | zero => exact (not_ready_zero (Piece.need_pos _) ht).elim
    | succ n =>
      obtain ⟨-, hu, hlast, heq'⟩ := (hsound n).andThen_parts hp.right hfits.right ht hrest
      simp only [heq']
      generalize (S.parsePiece n F (p.move (p.offset + before.size)) before' t).state = u
        at hu hlast
      cases n with
      | zero => exact (not_ready_zero (Piece.need_pos _) hu).elim
      | succ n =>
        rw [Piece.need] at hu
        have hloop := resync_andThen_clean hu.honest
          (fun v => (S.anyTrailAt n).many F _ _ types v (Piece.allWithin_true types)) hlast
        simp only [parsePiece] at hlast ⊢
        rw [hloop] at hlast ⊢
        exact parseMany_stops hsound hdirect hp.right.right hfits.right.right
          (hu.call (.refl u) (by omega)) hlast

/-- Without complaints a compilation unit ends at the end of the file, or in front of a token that
begins no declaration. -/
theorem compilationUnit_stops (hnet : S.net.Wired Rule.body) (hS : S.body = Rule.body)
    {enter : KindSet} {sets : List KindSet}
    (hdirect : S.net.direct ⟨.compilationUnit, 13⟩ = some (enter :: sets))
    (hkinds : ∀ i, i < S.kinds.size → kindAt S.kinds i ≠ .endOfFile) {callers : List Place}
    {level : Nat} (hs : S.Ready n Rule.compilationUnit.rank s)
    (hclean : (S.parseRule n callers .compilationUnit level s).2.complaints = []) :
    S.next (S.parseRule n callers .compilationUnit level s).2 = .endOfFile ∨
      S.next (S.parseRule n callers .compilationUnit level s).2 ∉ enter := by
  obtain ⟨before, before', types, hbody, hplace⟩ := compilationUnit_alternatives
  have hsound := soundAt hnet hS
  have hbounds := Rule.depth_bounds .compilationUnit
  have hstart := hnet.start .compilationUnit
  rw [hbody, Body.piece] at hbounds hstart
  obtain ⟨hneed, hfits, -⟩ := hbounds
  rw [Piece.need] at hneed
  rcases n with _ | _ | _ | n
  · exact (not_ready_zero (by decide) hs).elim
  · have hdepth := hs.depth
    omega
  · have hdepth := hs.depth
    omega
  · have htrail := (S.anyTrailAt (n + 2)).body_step (F := ⟨callers, level⟩) (s := s)
      (r := .compilationUnit) rfl (Piece.within_true (S.body _).piece)
    rw [parseRule_succ] at hclean ⊢
    split at hclean
    · rename_i hfault
      simp only [parseBody_plain (hS ▸ hbody)] at hfault hclean ⊢
      have hblock := Step.Clean.mk hfault hclean
      obtain ⟨i, q, piece, t, hq, hlook, -, heq⟩ :=
        parseBlock_taken hnet hstart.choice hs.honest hblock
      have hmem := mem_of_alternative? hq
      have hpiece := Piece.need_le_of_mem hmem
      have ht : S.Ready n piece.need t := hs.call hlook (by omega)
      have hp := hstart.choice.alternatives.of_alternative? hq
      simp only [parsePiece] at hblock ⊢
      rw [heq] at hblock ⊢
      rcases i with _ | _ | _ | i
      · cases hq
      · cases hq
        have hloop : S.net.direct (Place.move ⟨.compilationUnit, 3⟩
            (3 + before.size + before'.size)) = some (enter :: sets) := by
          rwa [Place.move, hplace]
        exact .inr (declarations_stop hsound hloop hp (hfits.choice _ hmem) ht hblock)
      · cases hq
        exact .inl (module_stops hsound hkinds hp (hfits.choice _ hmem) ht hblock)
      · cases hq
    · exact absurd hclean (giveUp_complains (htrail.honest hs.honest) _)

end

end Setting

/-! ## Source texts -/

/-- Without messages the parser has not complained. -/
theorem complaints_of_messages {r : Rule} {level : Nat} {source : List Char}
    (h : (analyse r level source).messages = []) :
    ((TokenStream.ofSource source).parse r level).complaints = [] := by
  have hmerge : (TokenStream.ofSource source).merge
      ((TokenStream.ofSource source).parse r level).seen (TokenStream.ofSource source).garbage
      ((TokenStream.ofSource source).parse r level).complaints = [] := h
  cases hc : ((TokenStream.ofSource source).parse r level).complaints with
  | nil => rfl
  | cons c cs =>
    rw [hc, TokenStream.merge] at hmerge
    simp at hmerge

namespace Tree

variable {α : Type}

/-- The tokens that a walk through a tree comes to, those that were skipped left out. -/
def tokensVisited (t : Tree α) : List α :=
  t.visits.filterMap fun
    | .token a => some a
    | _ => none

mutual

/-- A walk comes to all terminals of a tree, in order. -/
theorem tokensVisited_eq : ∀ t : Tree α, t.tokensVisited = t.terminals
  | .token _ _ | .skipped _ | .missing _ => rfl
  | .node _ r children => by
    have hall := tokensVisitedAll_eq children
    simp only [tokensVisited, visits, terminals, List.cons_append, List.filterMap_cons,
      List.filterMap_append, List.filterMap_nil, List.append_nil]
    exact hall

/-- `tokensVisited_eq` for several trees. -/
theorem tokensVisitedAll_eq : ∀ ts : List (Tree α), (visitsAll ts).filterMap (fun
      | .token a => some a
      | _ => none) = terminalsAll ts
  | [] => rfl
  | t :: ts => by
    rw [visitsAll, List.filterMap_append, tokensVisitedAll_eq ts, terminalsAll]
    exact congrArg (· ++ _) (tokensVisited_eq t)

end

end Tree

/-- A parse of a file without complaints ends at the end of the file or in front of a token that
begins no declaration. -/
theorem TokenStream.parse_stops {T : TokenStream} {level : Nat}
    (hkinds : ∀ i, i < T.kinds.size → kindAt T.kinds i ≠ .endOfFile)
    (h : (T.parse .compilationUnit level).complaints = []) :
    kindAt T.kinds (T.parse .compilationUnit level).next = .endOfFile ∨
      kindAt T.kinds (T.parse .compilationUnit level).next ∉ declarationStarts := by
  have hready : (Setting.java T.kinds T.index).Ready (depthLimit T.kinds.size)
      Rule.compilationUnit.rank .initial :=
    ⟨Progress.honest_initial, Nat.zero_le _, depthLimit_ge .compilationUnit _⟩
  have hstops := Setting.compilationUnit_stops (S := .java T.kinds T.index) Network.java_wired rfl
    direct_declarations hkinds hready (List.reverse_eq_nil_iff.1 h)
  rwa [KindSet.mem_ofList] at hstops

section
variable {source : List Char}

/-- A file without complaints is read up to its end, or up to a token that begins no declaration. -/
theorem analyse_stops
    (h : ((TokenStream.ofSource source).parse .compilationUnit 0).complaints = []) :
    (analyse .compilationUnit 0 source).next = .endOfFile ∨
      (analyse .compilationUnit 0 source).next ∉ declarationStarts := by
  have hkinds : ∀ i, i < (TokenStream.ofSource source).kinds.size →
      kindAt (TokenStream.ofSource source).kinds i ≠ .endOfFile := by
    intro i hi hend
    rw [← TokenStream.get_kind, TokenStream.get_kind_eq_endOfFile] at hend
    rw [TokenStream.size_kinds] at hi
    omega
  have hstops := TokenStream.parse_stops hkinds h
  have hnext : (analyse .compilationUnit 0 source).next = kindAt (TokenStream.ofSource source).kinds
      ((TokenStream.ofSource source).parse .compilationUnit 0).next :=
    TokenStream.get_kind source _
  rw [hnext]
  exact hstops

/-- Without complaints a walk comes to all leaves. -/
theorem tokensVisited_eq_leaves
    (h : ((TokenStream.ofSource source).parse .compilationUnit 0).complaints = []) :
    (analyse .compilationUnit 0 source).tree.tokensVisited =
      (analyse .compilationUnit 0 source).tree.leaves := by
  rw [Tree.tokensVisited_eq, (analyse_derives h).1.intact.leaves]

/-- Without complaints a walk comes to all visible tokens exactly if the parse stops at the end of
the file. -/
theorem visible_visited_iff
    (h : ((TokenStream.ofSource source).parse .compilationUnit 0).complaints = []) :
    (TokenStream.ofSource source).visible.toList <+:
        (analyse .compilationUnit 0 source).tree.tokensVisited ↔
      (analyse .compilationUnit 0 source).next = .endOfFile := by
  obtain ⟨m, hleaves, hm⟩ := analyse_leaves .compilationUnit 0 source
  rw [tokensVisited_eq_leaves h, hleaves]
  constructor
  · intro hall
    rcases Nat.eq_zero_or_pos m with rfl | hpos
    · -- Without the end of the file among the leaves there must be as many of them as tokens.
      have hlength := hall.length_le
      have hle := analyse_next_le .compilationUnit 0 source
      rw [analyse_next_eq_endOfFile]
      simp only [List.replicate_zero, List.append_nil, List.length_take, Array.length_toList]
        at hlength
      omega
    · exact hm (by omega)
  · intro hend
    rw [analyse_next_eq_endOfFile] at hend
    rw [hend, List.take_of_length_le (by simp)]
    exact List.prefix_append ..

end

/-- **A file may be left unread without any message**, and exactly if the parse stops in front of a
token that begins no declaration. The walk then comes to the tokens in front of that one only; it
comes to all tokens of the file exactly if the parse stops at its end. -/
theorem declarations_unread_iff (source : List Char)
    (h : (analyse .compilationUnit 0 source).messages = []) :
    (¬ (TokenStream.ofSource source).visible.toList <+:
        (analyse .compilationUnit 0 source).tree.tokensVisited ↔
      (analyse .compilationUnit 0 source).next ∉ .endOfFile :: declarationStarts) ∧
    ((TokenStream.ofSource source).visible.toList <+:
        (analyse .compilationUnit 0 source).tree.tokensVisited ↔
      (analyse .compilationUnit 0 source).next = .endOfFile) ∧
    ∃ n m, (analyse .compilationUnit 0 source).next = ((TokenStream.ofSource source).get n).kind ∧
      (analyse .compilationUnit 0 source).tree.tokensVisited =
        (TokenStream.ofSource source).visible.toList.take n ++
          List.replicate m (TokenStream.ofSource source).final ∧
      (m ≠ 0 → (analyse .compilationUnit 0 source).next = .endOfFile) := by
  have hquiet := complaints_of_messages h
  have hvisited := tokensVisited_eq_leaves hquiet
  obtain ⟨m, hleaves, hm⟩ := analyse_leaves .compilationUnit 0 source
  have hiff := visible_visited_iff hquiet
  refine ⟨?_, hiff, _, m, rfl, hvisited.trans hleaves, hm⟩
  rw [hiff, List.mem_cons, not_or]
  refine ⟨fun hne => ⟨hne, ?_⟩, fun hne => hne.1⟩
  exact (analyse_stops hquiet).resolve_left hne

/-- A closing brace too many ends the reading of a file without any message. -/
theorem declarations_unread_behind_brace :
    (analyse .compilationUnit 0 "class A\x7b\x7d\x7dclass B\x7b\x7d".toList).messages = [] ∧
      ¬ (TokenStream.ofSource "class A\x7b\x7d\x7dclass B\x7b\x7d".toList).visible.toList <+:
        (analyse .compilationUnit 0 "class A\x7b\x7d\x7dclass B\x7b\x7d".toList).tree.tokensVisited := by
  have hrun : (analyse .compilationUnit 0 "class A\x7b\x7d\x7dclass B\x7b\x7d".toList).messages = [] ∧
      (analyse .compilationUnit 0 "class A\x7b\x7d\x7dclass B\x7b\x7d".toList).next = .rbrace := by
    decide +kernel
  obtain ⟨hmessages, hnext⟩ := hrun
  refine ⟨hmessages, (declarations_unread_iff _ hmessages).1.2 ?_⟩
  rw [hnext]
  decide

end JavaOutline
