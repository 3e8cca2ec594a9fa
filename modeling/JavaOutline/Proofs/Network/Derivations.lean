import JavaOutline.Proofs.Grammar.Language
import JavaOutline.Proofs.Network.Runs

/-!
# Derivations are runs

A word of a right-hand side, with every rule in it replaced by tokens that are derived from it,
leads through the network from the beginning of the rule to its end (`passes_rule`). By induction
over the derivation the tokens of a tree do so (`Tree.Derives.passes`).
-/

namespace JavaOutline

open Computability Network

/-! ## Words along runs -/

/-- The node of a rule from which it ends, or applies one more operator. -/
def Rule.exit (r : Rule) : Nat := r.body.operatorLoop?.getD 0

/-- A token takes a run from one position to another, or all runs from behind a rule begin with the
rule at an earlier position. -/
def Passes (kinds : Array Kind) : Symbol → Nat → Nat → Prop
  | .token k, i, j => kindAt kinds i = k ∧ behind kinds i = j
  | .rule r, i, j => ∀ σ, Accepts kinds ⟨r, r.exit⟩ σ j → Accepts kinds (.start r) σ i

/-- A word takes runs from one position to another. -/
inductive PassesAll (kinds : Array Kind) : List Symbol → Nat → Nat → Prop where
  | nil (i : Nat) : PassesAll kinds [] i i
  | cons {a : Symbol} {w : List Symbol} {i m j : Nat} (ha : Passes kinds a i m)
      (hw : PassesAll kinds w m j) : PassesAll kinds (a :: w) i j

section
variable {kinds : Array Kind} {i j m : Nat} {a : Symbol} {u v w : List Symbol} {p : Place}
  {σ : List Place}

theorem passesAll_nil : PassesAll kinds [] i j ↔ i = j := by
  constructor
  · rintro ⟨⟩
    rfl
  · rintro rfl
    exact .nil i

theorem passesAll_cons : PassesAll kinds (a :: w) i j ↔
    ∃ m, Passes kinds a i m ∧ PassesAll kinds w m j := by
  constructor
  · rintro ⟨⟩
    exact ⟨_, ‹_›, ‹_›⟩
  · rintro ⟨m, ha, hw⟩
    exact .cons ha hw

theorem passesAll_singleton : PassesAll kinds [a] i j ↔ Passes kinds a i j := by
  simp only [passesAll_cons, passesAll_nil, exists_eq_right]

theorem passesAll_append : PassesAll kinds (u ++ v) i j ↔
    ∃ m, PassesAll kinds u i m ∧ PassesAll kinds v m j := by
  induction u generalizing i with
  | nil => simp [passesAll_nil]
  | cons a u ih =>
    simp only [List.cons_append, passesAll_cons, ih]
    constructor
    · rintro ⟨m, ha, m', hu, hv⟩
      exact ⟨m', ⟨m, ha, hu⟩, hv⟩
    · rintro ⟨m', ⟨m, ha, hu⟩, hv⟩
      exact ⟨m, ha, m', hu, hv⟩

/-- What every turn of a loop preserves from behind it to before it, all its turns preserve. -/
theorem PassesAll.of_turns {L : Language Symbol} {Q : Nat → Prop}
    (hturn : ∀ u ∈ L, ∀ i m, PassesAll kinds u i m → Q m → Q i) (hw : w ∈ L∗)
    (hpass : PassesAll kinds w i j) (hj : Q j) : Q i := by
  obtain ⟨us, rfl, hus⟩ := Language.mem_kstar.1 hw
  induction us generalizing i with
  | nil =>
    obtain rfl := passesAll_nil.1 hpass
    exact hj
  | cons u us ih =>
    obtain ⟨m, hu, hrest⟩ := passesAll_append.1 hpass
    obtain ⟨hmem, hmems⟩ := List.forall_mem_cons.1 hus
    exact hturn u hmem i m hu (ih hmems (Language.join_mem_kstar hmems) hrest)

/-- A fork with one way on may be passed. -/
theorem Accepts.of_jump {next : Nat} (hp : java.node p = .fork [next])
    (h : Accepts kinds (p.move next) σ i) : Accepts kinds p σ i :=
  .drift (.fork hp List.mem_cons_self) h

/-- Where a rule ends it may also have applied operators. -/
theorem Accepts.exit {r : Rule} (h : Accepts kinds ⟨r, 0⟩ σ i) : Accepts kinds ⟨r, r.exit⟩ σ i := by
  unfold Rule.exit
  cases ho : r.body.operatorLoop? with
  | none => exact h
  | some o =>
    have hloop := operatorLoop ho
    exact .drift (.fork hloop.fork (by simp)) (.of_jump hloop.leave h)

/-- A rule that has been called takes a run to where the call leads on. -/
theorem Passes.call {r : Rule} {level next : Nat} (h : Passes kinds (.rule r) i j)
    (hp : java.node p = .call r level next) (ha : Accepts kinds (p.move next) σ j) :
    Accepts kinds p σ i :=
  .drift (.call hp) (h _ (Accepts.exit (.drift (.back (node_zero r)) ha)))

section
variable {next : Nat} {alts : List Piece}

/-- A run may begin with a turn of a loop at the fork of the loop. -/
theorem Accepts.of_turn (hp : java.Holds p ((Piece.many alts).wire p.offset next))
    (h : ∃ start ∈ Piece.starts (p.offset + 5) alts, Accepts kinds ⟨p.rule, start⟩ σ i) :
    Accepts kinds p σ i := by
  obtain ⟨start, hstart, ha⟩ := h
  have hturn : java.node (p.move (p.offset + 1)) = .fork _ := hp 1 _ rfl
  exact .drift (.fork hp.head (by simp)) (.drift (.fork hturn hstart) ha)

/-- Behind a turn of a loop a run goes on at the fork of the loop. -/
theorem Accepts.of_meet (hp : java.Holds p ((Piece.many alts).wire p.offset next))
    (h : Accepts kinds p σ i) : Accepts kinds ⟨p.rule, p.offset + 2⟩ σ i := by
  have hback : java.node (p.move (p.offset + 3)) = .fork [p.offset] := hp 3 _ rfl
  have hmeet : java.node (p.move (p.offset + 2)) = .fork [p.offset + 3] := hp 2 _ rfl
  exact .of_jump hmeet (.of_jump hback h)

end

mutual

/-- **Where a word of a piece stands, a run from behind the piece may begin with the piece.** -/
theorem Piece.accepts : ∀ (piece : Piece) {p : Place} {next i j : Nat} {w : List Symbol},
    java.Holds p (piece.wire p.offset next) → w ∈ piece.words → PassesAll kinds w i j →
    Accepts kinds (p.move next) σ j → Accepts kinds p σ i
  | .nothing, p, next, i, j, w, hp, hw, hpass, ha => by
    obtain rfl : w = [] := hw
    rw [passesAll_nil] at hpass
    exact .of_jump hp.head (hpass ▸ ha)
  | .guard level, p, next, i, j, w, hp, hw, hpass, ha => by
    obtain rfl : w = [] := hw
    rw [passesAll_nil] at hpass
    exact .drift (.guard hp.head) (hpass ▸ ha)
  | .token k, p, next, i, j, w, hp, hw, hpass, ha => by
    obtain rfl : w = [.token k] := hw
    obtain ⟨hk, hj⟩ := passesAll_singleton.1 hpass
    exact .take hp.head ((KindSet.mem_single ..).2 hk) (hj ▸ ha)
  | .oneOf ks, p, next, i, j, w, hp, hw, hpass, ha => by
    obtain ⟨k, hmem, rfl⟩ := Piece.mem_words_oneOf.1 hw
    obtain ⟨hk, hj⟩ := passesAll_singleton.1 hpass
    exact .take hp.head ((KindSet.mem_ofList ..).2 (hk ▸ hmem)) (hj ▸ ha)
  | .call r level, p, next, i, j, w, hp, hw, hpass, ha => by
    obtain rfl : w = [.rule r] := hw
    exact (passesAll_singleton.1 hpass).call hp.head ha
  | .named role q, p, next, i, j, w, hp, hw, hpass, ha => Piece.accepts q hp hw hpass ha
  | .andThen q q', p, next, i, j, w, hp, hw, hpass, ha => by
    obtain ⟨u, hu, v, hv, rfl⟩ := Language.mem_mul.1 hw
    obtain ⟨m, hpu, hpv⟩ := passesAll_append.1 hpass
    have hright := hp.right
    rw [Piece.length_wire] at hright
    exact Piece.accepts q hp.left hu hpu (Piece.accepts q' hright hv hpv ha)
  | .choice alts, p, next, i, j, w, hp, hw, hpass, ha => by
    have hmeet : java.node (p.move (p.offset + 1)) = .fork [next] := hp 1 _ rfl
    obtain ⟨start, hstart, ha⟩ := Piece.accepts_any alts hp.right hw hpass (.of_jump hmeet ha)
    exact .drift (.fork hp.head hstart) ha
  | .optional alts, p, next, i, j, w, hp, hw, hpass, ha => by
    have hmeet : java.node (p.move (p.offset + 1)) = .fork [next] := hp 1 _ rfl
    rcases (Language.mem_add ..).1 hw with hw | hw
    · obtain rfl : w = [] := hw
      rw [passesAll_nil] at hpass
      exact .drift (.fork hp.head (by simp)) (.of_jump hmeet (hpass ▸ ha))
    · obtain ⟨start, hstart, ha⟩ := Piece.accepts_any alts hp.right hw hpass (.of_jump hmeet ha)
      exact .drift (.fork hp.head (List.mem_append_left _ hstart)) ha
  | .many alts, p, next, i, j, w, hp, hw, hpass, ha => by
    have hleave : java.node (p.move (p.offset + 4)) = .fork [next] := hp 4 _ rfl
    refine PassesAll.of_turns (fun u hu i m hpu ham => ?_) hw hpass
      (.drift (.fork hp.head (by simp)) (.of_jump hleave ha))
    exact .of_turn hp (Piece.accepts_any alts hp.right hu hpu (.of_meet hp ham))
  | .many1 alts, p, next, i, j, w, hp, hw, hpass, ha => by
    have hleave : java.node (p.move (p.offset + 3)) = .fork [next] := hp 3 _ rfl
    have hback : java.node (p.move (p.offset + 2)) = .fork [p.offset, p.offset + 3] := hp 2 _ rfl
    have hmeet : java.node (p.move (p.offset + 1)) = .fork [p.offset + 2] := hp 1 _ rfl
    -- One turn, from any of the positions where the fork behind the turns is reached.
    have hturn {u : List Symbol} (hu : u ∈ Piece.anyWords alts) {i m : Nat}
        (hpu : PassesAll kinds u i m) (ham : Accepts kinds (p.move (p.offset + 2)) σ m) :
        Accepts kinds p σ i := by
      obtain ⟨start, hstart, ha⟩ := Piece.accepts_any alts hp.right hu hpu (.of_jump hmeet ham)
      exact .drift (.fork hp.head hstart) ha
    obtain ⟨u, hu, v, hv, rfl⟩ := Language.mem_mul.1 hw
    obtain ⟨m, hpu, hpv⟩ := passesAll_append.1 hpass
    refine hturn hu hpu (PassesAll.of_turns (fun u hu i m hpu ham => ?_) hv hpv
      (.drift (.fork hback (by simp)) (.of_jump hleave ha)))
    exact .drift (.fork hback (by simp)) (hturn hu hpu ham)

/-- Where a word of one of the alternatives stands, a run from where they meet may begin with that
alternative. -/
theorem Piece.accepts_any : ∀ (alts : List Piece) {r : Rule} {base meet i j : Nat} {w : List Symbol},
    java.Holds ⟨r, base⟩ (Piece.wires base meet alts) → w ∈ Piece.anyWords alts →
    PassesAll kinds w i j → Accepts kinds ⟨r, meet⟩ σ j →
    ∃ start ∈ Piece.starts base alts, Accepts kinds ⟨r, start⟩ σ i
  | [], _, _, _, _, _, _, _, hw, _, _ => absurd hw Piece.notMem_anyWords_nil
  | q :: qs, r, base, meet, i, j, w, hp, hw, hpass, ha => by
    rcases Piece.mem_anyWords_cons.1 hw with hw | hw
    · obtain ⟨exit, hq, hexit⟩ := hp.wires_head
      refine ⟨base, List.mem_cons_self, Piece.accepts q hq hw hpass ?_⟩
      rcases hexit with rfl | hfork
      · exact ha
      · exact .of_jump hfork ha
    · obtain ⟨start, hstart, ha⟩ := Piece.accepts_any qs hp.wires_tail hw hpass ha
      exact ⟨start, List.mem_cons_of_mem _ hstart, ha⟩

end

/-- An operator has the words of its rest. -/
theorem mem_anyWords_suffixes {suffixes : List Suffix}
    (h : w ∈ Piece.anyWords (suffixes.map Suffix.rest)) :
    w ∈ Piece.anyWords (suffixes.map Suffix.piece) := by
  obtain ⟨piece, hpiece, hw⟩ := Piece.mem_anyWords.1 h
  obtain ⟨suffix, hsuffix, rfl⟩ := List.mem_map.1 hpiece
  refine Piece.mem_anyWords.2 ⟨suffix.piece, List.mem_map_of_mem hsuffix, ?_⟩
  rwa [Suffix.piece, Piece.words_andThen, Piece.words_guard, one_mul]

/-- **Where a word of its right-hand side stands, a rule may stand.** A word with an operator begins
with the rule itself, which goes before the operator in the loop. -/
theorem passes_rule {r : Rule} (hw : w ∈ r.language) (hpass : PassesAll kinds w i j) :
    Passes kinds (.rule r) i j := by
  intro σ ha
  obtain ⟨next, hholds, hnext⟩ := java_wired.exists_start r
  cases hbody : r.body with
  | plain piece =>
    rw [Rule.exit, hbody, Body.operatorLoop?, Option.getD_none] at ha
    rw [hbody] at hholds
    rw [Rule.language_plain hbody] at hw
    refine piece.accepts hholds hw hpass ?_
    rcases hnext with rfl | hfork
    · exact ha
    · exact .of_jump hfork ha
  | operators atoms suffixes =>
    rw [Rule.exit, hbody, Body.operatorLoop?, Option.getD_some] at ha
    rw [hbody, Body.piece, Piece.wire] at hholds
    have hloop := hholds.right
    rw [Piece.length_wire] at hloop
    rw [Rule.language_operators hbody] at hw
    rcases (Language.mem_add ..).1 hw with hw | hw
    · exact (Piece.choice atoms).accepts hholds.left hw hpass ha
    · obtain ⟨u, rfl, v, hv, rfl⟩ := Language.mem_mul.1 hw
      obtain ⟨m, hr, hpv⟩ := passesAll_cons.1 hpass
      refine hr σ ?_
      rw [Rule.exit, hbody, Body.operatorLoop?, Option.getD_some]
      exact .of_turn hloop
        (Piece.accepts_any _ hloop.right (mem_anyWords_suffixes hv) hpv (.of_meet hloop ha))

end

section
variable {kinds : Array Kind}

mutual

/-- Where the tokens of a derivation stand, its rule may stand. -/
theorem Tree.Derives.passes : ∀ {t : Tree Kind} {i j : Nat}, t.Derives id →
    PassesAll kinds (t.leaves.map .token) i j → Passes kinds (t.symbol id) i j
  | .token _ _, _, _, _, hpass => passesAll_singleton.1 hpass
  | .skipped _, _, _, h, _ | .missing _, _, _, h, _ => h.elim
  | .node _ _ _, _, _, h, hpass => passes_rule h.1 (Tree.DerivesAll.passesAll h.2 hpass)

/-- Where the tokens of derivations stand, the word of their roots may stand. -/
theorem Tree.DerivesAll.passesAll : ∀ {ts : List (Tree Kind)} {i j : Nat}, Tree.DerivesAll id ts →
    PassesAll kinds ((Tree.leavesAll ts).map .token) i j →
    PassesAll kinds (ts.map (Tree.symbol id)) i j
  | [], _, _, _, hpass => hpass
  | _ :: _, _, _, h, hpass => by
    rw [Tree.leavesAll_cons, List.map_append, passesAll_append] at hpass
    obtain ⟨m, ht, hts⟩ := hpass
    exact .cons (Tree.Derives.passes h.1 ht) (Tree.DerivesAll.passesAll h.2 hts)

end

end

end JavaOutline
