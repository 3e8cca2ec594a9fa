import JavaOutline.Proofs.Outline.Lag
import JavaOutline.Proofs.Outline.Reading
import JavaOutline.Proofs.Parser.Stop
import JavaOutline.Proofs.Parser.Indices

/-!
# Ignored classes

What an outline is made of a file with ignored classes, compared with a walk that passes over them
(`Tree.visitsOutside`). The deeds of the second walk are those of the first one except for the
ignored classes (`Outline.run_visitsOutside`). So the outlines are related as
`Outline.performAll_lags` says: they are equal exactly if no class begins inside another one behind an
ignored class, and no class ends behind an ignored class while there are members to list.

If the ignored classes are taken out of the tree (`Tree.withoutIgnored`), the outline is that of the
second walk as long as every node is read as before (`Tree.ReadsAlike`). A node may be read in
another way once an ignored class inside it is gone: a member is public or static if its text says so,
and the text of a method includes the classes inside it.
-/

namespace JavaOutline

namespace Tree

/-- Is the tree an ignored class? -/
def isIgnored : Tree Token → Bool
  | .node _ r children => isIgnoredClass r children
  | _ => false

mutual

/-- The tree without the ignored classes inside it. -/
def withoutIgnored : Tree Token → Tree Token
  | .node role r children => .node role r (withoutIgnoredAll children)
  | t => t

/-- Those of the trees that are no ignored classes, without the ignored classes inside them. -/
def withoutIgnoredAll : List (Tree Token) → List (Tree Token)
  | [] => []
  | t :: ts =>
    if t.isIgnored then withoutIgnoredAll ts else t.withoutIgnored :: withoutIgnoredAll ts

end

mutual

/-- The visits of a walk through a tree that passes over ignored classes. -/
def visitsOutside : Tree Token → List (Visit Token)
  | .token _ a => [.token a]
  | .skipped a => [.skipped a]
  | .missing k => [.missing k]
  | .node _ r children =>
    if isIgnoredClass r children then []
    else .enter r children :: visitsOutsideAll children ++ [.leave r]

/-- The visits of a walk through several trees that passes over ignored classes. -/
def visitsOutsideAll : List (Tree Token) → List (Visit Token)
  | [] => []
  | t :: ts => t.visitsOutside ++ visitsOutsideAll ts

end

/-- The node is read in the same way without the ignored classes inside it. -/
def ReadsAlike (n : Rule × List (Tree Token)) : Prop :=
  Deed.read n.1 (withoutIgnoredAll n.2) = Deed.read n.1 n.2

instance (n : Rule × List (Tree Token)) : Decidable (ReadsAlike n) :=
  inferInstanceAs (Decidable (_ = _))

mutual

/-- The nodes of a tree without ignored classes come from nodes that are no ignored classes. -/
theorem exists_node_of_withoutIgnored : ∀ {t : Tree Token}, t.isIgnored = false →
    ∀ m ∈ t.withoutIgnored.nodes,
      ∃ n ∈ t.nodes, isIgnoredClass n.1 n.2 = false ∧ m = (n.1, withoutIgnoredAll n.2)
  | .token _ _, _, _, hm | .skipped _, _, _, hm | .missing _, _, _, hm => by
    simp [withoutIgnored, nodes] at hm
  | .node _ r children, h, m, hm => by
    rw [withoutIgnored, nodes, List.mem_cons] at hm
    rcases hm with rfl | hm
    · exact ⟨(r, children), List.mem_cons_self, h, rfl⟩
    · obtain ⟨n, hn, hnode⟩ := exists_node_of_withoutIgnoredAll children m hm
      exact ⟨n, List.mem_cons_of_mem _ hn, hnode⟩

/-- `exists_node_of_withoutIgnored` for several trees. -/
theorem exists_node_of_withoutIgnoredAll : ∀ (ts : List (Tree Token)),
    ∀ m ∈ nodesAll (withoutIgnoredAll ts),
      ∃ n ∈ nodesAll ts, isIgnoredClass n.1 n.2 = false ∧ m = (n.1, withoutIgnoredAll n.2)
  | [], _, hm => by simp [withoutIgnoredAll, nodesAll] at hm
  | t :: ts, m, hm => by
    rw [withoutIgnoredAll] at hm
    split at hm
    · obtain ⟨n, hn, hnode⟩ := exists_node_of_withoutIgnoredAll ts m hm
      exact ⟨n, List.mem_append_right _ hn, hnode⟩
    · rename_i ht
      rcases List.mem_append.1 hm with hm | hm
      · obtain ⟨n, hn, hnode⟩ :=
          exists_node_of_withoutIgnored (Bool.eq_false_iff.2 ht) m hm
        exact ⟨n, List.mem_append_left _ hn, hnode⟩
      · obtain ⟨n, hn, hnode⟩ := exists_node_of_withoutIgnoredAll ts m hm
        exact ⟨n, List.mem_append_right _ hn, hnode⟩

end

mutual

/-- A tree without ignored classes inside stays as it is. -/
theorem withoutIgnored_eq_self : ∀ {t : Tree Token},
    (∀ n ∈ t.nodes, isIgnoredClass n.1 n.2 = false) → t.withoutIgnored = t
  | .token _ _, _ | .skipped _, _ | .missing _, _ => rfl
  | .node _ _ children, h => by
    rw [withoutIgnored, withoutIgnoredAll_eq_self children fun n hn => h n (List.mem_cons_of_mem _ hn)]

/-- `withoutIgnored_eq_self` for several trees. -/
theorem withoutIgnoredAll_eq_self : ∀ (ts : List (Tree Token)),
    (∀ n ∈ nodesAll ts, isIgnoredClass n.1 n.2 = false) → withoutIgnoredAll ts = ts
  | [], _ => rfl
  | t :: ts, h => by
    have ht : t.isIgnored = false := by
      cases t with
      | node role r children => exact h (r, children) List.mem_cons_self
      | token | skipped | missing => rfl
    rw [withoutIgnoredAll, ht, withoutIgnored_eq_self fun n hn => h n (List.mem_append_left _ hn),
      withoutIgnoredAll_eq_self ts fun n hn => h n (List.mem_append_right _ hn)]
    rfl

end

/-- A node that is read in another way has an ignored class inside. -/
theorem exists_ignored_of_not_readsAlike {n : Rule × List (Tree Token)} (h : ¬ ReadsAlike n) :
    ∃ m ∈ nodesAll n.2, isIgnoredClass m.1 m.2 = true := by
  by_contra hnone
  refine h ?_
  rw [ReadsAlike, withoutIgnoredAll_eq_self n.2 fun m hm => ?_]
  exact Bool.eq_false_iff.2 fun hignored => hnone ⟨m, hm, hignored⟩

/-- An ignored class is one deed. -/
theorem deeds_of_isIgnored {t : Tree Token} (h : ∀ n ∈ t.nodes, Deed.Legible n)
    (ht : t.isIgnored = true) : t.deeds = [.passIgnored] := by
  cases t with
  | node role r children =>
    obtain ⟨d, hread, hignored⟩ := h (r, children) List.mem_cons_self
    obtain rfl := hignored.2 ht
    exact deeds_ignored hread
  | token | skipped | missing => cases ht

mutual

/-- Without ignored classes just their deeds are missing. -/
theorem deeds_withoutIgnored : ∀ {t : Tree Token}, (∀ n ∈ t.nodes, Deed.Legible n) →
    (∀ n ∈ t.nodes, ReadsAlike n) → t.isIgnored = false →
      t.withoutIgnored.deeds = t.deeds.filter (· ≠ .passIgnored)
  | .token _ _, _, _, _ | .skipped _, _, _, _ | .missing _, _, _, _ => rfl
  | .node _ r children, hlegible, halike, hroot => by
    obtain ⟨d, hread, hignored⟩ := hlegible (r, children) List.mem_cons_self
    have hread' : Deed.read r (withoutIgnoredAll children) = .ok d :=
      (halike (r, children) List.mem_cons_self).trans hread
    have hchildren := deedsAll_withoutIgnoredAll children
      (fun n hn => hlegible n (List.mem_cons_of_mem _ hn))
      fun n hn => halike n (List.mem_cons_of_mem _ hn)
    by_cases hr : r = .classDeclaration
    · subst hr
      rcases Deed.read_class hread with rfl | ⟨name, extended, implemented, rfl⟩
      · exact absurd (hignored.1 rfl) (Bool.eq_false_iff.1 hroot)
      · rw [withoutIgnored, deeds_class hread', deeds_class hread, hchildren, List.filter_append]
        rfl
    · rw [withoutIgnored, deeds_other hr hread', deeds_other hr hread, hchildren,
        List.filter_append]
      rcases Deed.read_other hr hread with rfl | ⟨name, rfl⟩ | ⟨members, rfl⟩ <;> rfl

/-- `deeds_withoutIgnored` for several trees. -/
theorem deedsAll_withoutIgnoredAll : ∀ (ts : List (Tree Token)),
    (∀ n ∈ nodesAll ts, Deed.Legible n) → (∀ n ∈ nodesAll ts, ReadsAlike n) →
      deedsAll (withoutIgnoredAll ts) = (deedsAll ts).filter (· ≠ .passIgnored)
  | [], _, _ => rfl
  | t :: ts, hlegible, halike => by
    have hts := deedsAll_withoutIgnoredAll ts (fun n hn => hlegible n (List.mem_append_right _ hn))
      fun n hn => halike n (List.mem_append_right _ hn)
    have ht := fun n (hn : n ∈ t.nodes) => hlegible n (List.mem_append_left _ hn)
    rw [withoutIgnoredAll, deedsAll, List.filter_append, ← hts]
    split
    · rename_i hignored
      rw [deeds_of_isIgnored ht hignored]
      rfl
    · rename_i hignored
      rw [deedsAll, deeds_withoutIgnored ht (fun n hn => halike n (List.mem_append_left _ hn))
        (Bool.eq_false_iff.2 hignored)]

end

mutual

/-- In the deeds of a tree classes begin before they end, and all of them end. -/
theorem balanced_deeds : ∀ {t : Tree Token}, (∀ n ∈ t.nodes, Deed.Legible n) →
    Deed.Balanced t.deeds
  | .token _ _, _ | .skipped _, _ | .missing _, _ => Deed.balanced_nil
  | .node _ r children, h => by
    obtain ⟨d, hread, -⟩ := h (r, children) List.mem_cons_self
    have hchildren := balanced_deedsAll children fun n hn => h n (List.mem_cons_of_mem _ hn)
    by_cases hr : r = .classDeclaration
    · subst hr
      rcases Deed.read_class hread with rfl | ⟨name, extended, implemented, rfl⟩
      · rw [deeds_ignored hread]
        exact Deed.balanced_singleton rfl
      · rw [deeds_class hread]
        exact hchildren.ofClass name extended implemented
    · rw [deeds_other hr hread]
      rcases Deed.read_other hr hread with rfl | ⟨name, rfl⟩ | ⟨members, rfl⟩
      · exact hchildren
      · exact (Deed.balanced_singleton rfl).append hchildren
      · exact (Deed.balanced_singleton rfl).append hchildren

/-- `balanced_deeds` for several trees. -/
theorem balanced_deedsAll : ∀ (ts : List (Tree Token)), (∀ n ∈ nodesAll ts, Deed.Legible n) →
    Deed.Balanced (deedsAll ts)
  | [], _ => Deed.balanced_nil
  | _ :: ts, h =>
    (balanced_deeds fun n hn => h n (List.mem_append_left _ hn)).append
      (balanced_deedsAll ts fun n hn => h n (List.mem_append_right _ hn))

end

/-- Without the ignored classes every node can be read, and none is ignored. -/
theorem orderly_withoutIgnored {t : Tree Token} (hlegible : ∀ n ∈ t.nodes, Deed.Legible n)
    (halike : ∀ n ∈ t.nodes, ReadsAlike n) (ht : t.isIgnored = false) :
    ∀ m ∈ t.withoutIgnored.nodes, Deed.Orderly m := by
  intro m hm
  obtain ⟨n, hn, hkept, rfl⟩ := exists_node_of_withoutIgnored ht m hm
  obtain ⟨d, hread, hignored⟩ := hlegible n hn
  refine ⟨d, (halike n hn).trans hread, fun hd => ?_⟩
  rw [hignored.1 hd] at hkept
  cases hkept

end Tree

namespace Outline

variable {methodsOnly : Bool}

mutual

/-- A walk that passes over ignored classes does all deeds but theirs. -/
theorem run_visitsOutside : ∀ (t : Tree Token) (o : Outline), (∀ n ∈ t.nodes, Deed.Legible n) →
    o.run methodsOnly t.visitsOutside =
      (o.performAll methodsOnly (t.deeds.filter (· ≠ .passIgnored)), none)
  | .token _ _, _, _ | .skipped _, _, _ | .missing _, _, _ => rfl
  | .node _ r children, o, h => by
    obtain ⟨d, hd, hignored⟩ := h (r, children) List.mem_cons_self
    have hchildren (o : Outline) : o.run methodsOnly (Tree.visitsOutsideAll children) =
        (o.performAll methodsOnly ((Tree.deedsAll children).filter (· ≠ .passIgnored)), none) :=
      run_visitsOutsideAll children o fun n hn => h n (List.mem_cons_of_mem _ hn)
    rw [Tree.visitsOutside]
    by_cases hr : r = .classDeclaration
    · subst hr
      rcases Deed.read_class hd with rfl | ⟨name, extended, implemented, rfl⟩
      · rw [if_pos (hignored.1 rfl), Tree.deeds_ignored hd]
        rfl
      · have hkept := mt hignored.2 nofun
        rw [if_neg hkept, Tree.deeds_class hd, List.filter_append, List.filter_cons_of_pos rfl,
          performAll_append, performAll_cons]
        exact run_node (step_of_read hd) (hchildren _) rfl
    · rw [Tree.deeds_other hr hd, List.filter_append]
      rcases Deed.read_other hr hd with rfl | ⟨name, rfl⟩ | ⟨members, rfl⟩ <;>
        rw [if_neg (mt hignored.2 nofun)] <;>
        exact run_node (step_of_read hd) (hchildren _) (step_leave hr)

/-- `run_visitsOutside` for several trees. -/
theorem run_visitsOutsideAll : ∀ (ts : List (Tree Token)) (o : Outline),
    (∀ n ∈ Tree.nodesAll ts, Deed.Legible n) → o.run methodsOnly (Tree.visitsOutsideAll ts) =
      (o.performAll methodsOnly ((Tree.deedsAll ts).filter (· ≠ .passIgnored)), none)
  | [], _, _ => rfl
  | t :: ts, o, h => by
    have ht := run_visitsOutside t o fun n hn => h n (List.mem_append_left _ hn)
    rw [Tree.visitsOutsideAll, Tree.deedsAll, run_append ht, List.filter_append, performAll_append]
    exact run_visitsOutsideAll ts _ fun n hn => h n (List.mem_append_right _ hn)

end

end Outline

/-! ## Source texts -/

section
variable {source : List Char}

/-- Every node of a file without complaints can be read. -/
theorem legible_of_no_complaints
    (h : ((TokenStream.ofSource source).parse .compilationUnit 0).complaints = []) :
    ∀ n ∈ (analyse .compilationUnit 0 source).tree.nodes, Deed.Legible n := by
  intro n hn
  obtain ⟨hw, hd⟩ := (analyse_derives h).1.of_mem_nodes n hn
  exact Deed.legible_of_language hw hd

/-- A whole file is no ignored class. -/
theorem isIgnored_of_no_complaints
    (h : ((TokenStream.ofSource source).parse .compilationUnit 0).complaints = []) :
    (analyse .compilationUnit 0 source).tree.isIgnored = false := by
  have hroot := (analyse_derives h).2
  cases htree : (analyse .compilationUnit 0 source).tree with
  | node role r children =>
    rw [htree] at hroot
    cases hroot
    rfl
  | token | skipped | missing => rfl

end

/-- **An ignored class is felt by the classes behind it.** In a file without complaints in which no
ignored class has a class inside, the outline has the text of a walk that passes over the ignored
classes exactly if no class begins inside another one behind an ignored class, and no class ends
behind an ignored class while there are members to list. It makes no difference whether the ignored
classes are passed over or taken out of the tree, unless some node is then read in another way; and
such a node has an ignored class inside. -/
theorem text_withoutIgnored_eq_iff (methodsOnly : Bool) (packages : List (List Char))
    (source : List Char)
    (h : ((TokenStream.ofSource source).parse .compilationUnit 0).complaints = [])
    (hflat : ∀ n ∈ (analyse .compilationUnit 0 source).tree.nodes,
      Tree.isIgnoredClass n.1 n.2 = true → ∀ m ∈ Tree.nodesAll n.2, m.1 ≠ .classDeclaration) :
    let t := (analyse .compilationUnit 0 source).tree
    let withAll := outlineSource methodsOnly packages source
    let outside := (Outline.empty packages).run methodsOnly t.visitsOutside
    let without := (Outline.empty packages).run methodsOnly t.withoutIgnored.visits
    withAll.2 = none ∧ outside.2 = none ∧ withAll.1.packages = outside.1.packages ∧
      (withAll.1.text = outside.1.text ↔ Deed.Undisturbed methodsOnly t.deeds) ∧
      ((∀ n ∈ t.nodes, Tree.ReadsAlike n) → without = outside) ∧
      ∀ n ∈ t.nodes, ¬ Tree.ReadsAlike n →
        ∃ m ∈ Tree.nodesAll n.2, Tree.isIgnoredClass m.1 m.2 = true := by
  intro t withAll outside without
  have hlegible := legible_of_no_complaints h
  have hroot := isIgnored_of_no_complaints h
  have hall : withAll = ((Outline.empty packages).performAll methodsOnly t.deeds, none) :=
    Outline.run_visits t _ (Deed.orderly_of_derives (analyse_derives h).1 hflat)
  have hsome : outside = ((Outline.empty packages).performAll methodsOnly
      (t.deeds.filter (· ≠ .passIgnored)), none) := Outline.run_visitsOutside t _ hlegible
  have hlags : Outline.Lags methodsOnly t.deeds _ _ :=
    Outline.performAll_lags packages t.deeds (Tree.balanced_deeds hlegible).2
  rw [hall, hsome]
  refine ⟨rfl, rfl, hlags.packages, ?_, fun halike => ?_,
    fun n _ => Tree.exists_ignored_of_not_readsAlike⟩
  · rcases hlags.text with ⟨hquiet, htext⟩ | ⟨hloud, htext⟩
    · exact iff_of_true htext hquiet
    · exact iff_of_false (fun heq => htext.ne (congrArg _ heq)) hloud
  · rw [← Tree.deeds_withoutIgnored hlegible halike hroot]
    exact Outline.run_visits _ _ (Tree.orderly_withoutIgnored hlegible halike hroot)

/-- In this file an ignored class stands before a class with a field. If methods alone are listed, the
outline is that of the file without the ignored class. If fields are listed too, it is not. -/
theorem text_withoutIgnored_of_next_class :
    let source := "class A extends Error\x7b\x7dclass B\x7bint x;\x7d".toList
    let t := (analyse .compilationUnit 0 source).tree
    let without (methodsOnly : Bool) := (Outline.empty []).run methodsOnly t.withoutIgnored.visits
    ((TokenStream.ofSource source).parse .compilationUnit 0).complaints = [] ∧
      .passIgnored ∈ t.deeds ∧
      (outlineSource true [] source).1.text = (without true).1.text ∧
      (outlineSource false [] source).1.text ≠ (without false).1.text := by
  intro source
  let ds : List Deed := [.passIgnored, .openClass "B".toList [] [],
    .add [⟨.fields, "int x".toList⟩]]
  have hfile : ((TokenStream.ofSource source).parse .compilationUnit 0).complaints = [] ∧
      (analyse .compilationUnit 0 source).tree.deeds = ds ++ [.closeClass] ∧
      (∀ n ∈ (analyse .compilationUnit 0 source).tree.nodes, Tree.isIgnoredClass n.1 n.2 = true →
        ∀ m ∈ Tree.nodesAll n.2, m.1 ≠ .classDeclaration) ∧
      ∀ n ∈ (analyse .compilationUnit 0 source).tree.nodes, Tree.ReadsAlike n := by
    rw [TokenStream.parse_eq_plain, analyse_tree_eq_plain]
    decide +kernel
  obtain ⟨hquiet, hdeeds, hflat, halike⟩ := hfile
  clear_value source
  intro t without
  obtain ⟨-, -, -, hmethods, hmethods', -⟩ := text_withoutIgnored_eq_iff true [] source hquiet hflat
  obtain ⟨-, -, -, hall, hall', -⟩ := text_withoutIgnored_eq_iff false [] source hquiet hflat
  rw [hdeeds] at hmethods hall
  refine ⟨hquiet, by rw [hdeeds]; exact List.mem_cons_self, ?_, ?_⟩
  · rw [show without true = _ from hmethods' halike]
    refine hmethods.2 (Deed.undisturbed_concat.2 ⟨?_, ?_⟩)
    · change Deed.Undisturbed true ([] ++ [_] ++ [_] ++ [_])
      simp only [Deed.undisturbed_concat]
      exact ⟨⟨⟨Deed.undisturbed_nil, fun h => h.2⟩, fun h => absurd h.2 (by decide)⟩, fun h => h.2⟩
    · rintro ⟨-, s, hs, hne⟩
      cases s with
      | fields | staticFields => cases hs
      | methods | staticMethods => exact hne rfl
  · rw [show without false = _ from hall' halike]
    exact fun htext => hall.1 htext ds .closeClass List.prefix_rfl
      ⟨List.mem_cons_self, .fields, rfl, List.cons_ne_nil _ _⟩

end JavaOutline
