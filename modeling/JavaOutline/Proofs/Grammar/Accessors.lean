import JavaOutline.Proofs.Grammar.Arrangement
import JavaOutline.Proofs.Network.Looking
import JavaOutline.Proofs.Parser.Soundness
import JavaOutline.Proofs.Parser.Indices

/-!
# Accessors give the children

A node is asked for its children by the accessors of its rule. Each accessor gives the children of
its kind in order (`Finding.ask_accessor`). The table of accessors fits the right-hand sides of the
rules (`Rule.fieldsFit_eq_true`): the kinds of all children of a derivation have an accessor
(`Rule.mem_accessors_of_language`), and where it does not give a list there is never more than one
child of its kind (`Rule.count_le_one_of_language`). So the accessors of a node share its children
out among them (`accessors_share_children`).
-/

namespace JavaOutline

open Computability

/-! ## Fields and right-hand sides -/

namespace Rule

variable {r : Rule} {w : List Symbol} {a : Symbol}

/-- The alternatives of a rule, each with everything that a node of the rule then has. -/
def alternatives (r : Rule) : List Piece :=
  match r.body with
  | .plain p => [p]
  | .operators atoms suffixes => atoms ++ suffixes.map fun s => .andThen (.ref r) s.rest

/-- Has everything in the right-hand side of the rule a field, and is there at most one child for a
field that is no list? -/
def fieldsFit (r : Rule) : Bool :=
  Piece.allWithin (fun k => .token k ∈ r.accessors) (fun q => .rule q ∈ r.accessors)
    r.alternatives &&
  r.fields.all fun f => f.isList || Piece.allAtMost f.accessor 1 r.alternatives

/-- The fields of every rule fit its right-hand side. -/
theorem fieldsFit_eq_true (r : Rule) : r.fieldsFit = true := by cases r <;> decide +kernel

/-- The children of a node are those of one of the alternatives of its rule. -/
theorem mem_alternatives_of_language (hw : w ∈ r.language) : w ∈ Piece.anyWords r.alternatives := by
  cases hbody : r.body with
  | plain p =>
    rw [language_plain hbody] at hw
    rw [alternatives, hbody]
    exact Piece.mem_anyWords_cons.2 (.inl hw)
  | operators atoms suffixes =>
    rw [language_operators hbody, Language.mem_add] at hw
    rw [alternatives, hbody]
    simp only [Piece.mem_anyWords, List.mem_append, List.mem_map] at hw ⊢
    rcases hw with ⟨p, hp, hw⟩ | hw
    · exact ⟨p, .inl hp, hw⟩
    · obtain ⟨u, hu, v, hv, rfl⟩ := Language.mem_mul.1 hw
      obtain ⟨rest, hrest, hv⟩ := Piece.mem_anyWords.1 hv
      obtain ⟨suffix, hsuffix, rfl⟩ := List.mem_map.1 hrest
      exact ⟨_, .inr ⟨suffix, hsuffix, rfl⟩, Language.mem_mul.2 ⟨u, hu, v, hv, rfl⟩⟩

/-- Whatever can be a child of a node has an accessor. -/
theorem mem_accessors_of_language (hw : w ∈ r.language) (ha : a ∈ w) : a ∈ r.accessors := by
  have hfit := r.fieldsFit_eq_true
  rw [fieldsFit, Bool.and_eq_true] at hfit
  have ha := Piece.symbol_of_allWithin _ hfit.1 (mem_alternatives_of_language hw) a ha
  cases a <;> simpa [Accessor.within] using ha

/-- Where an accessor does not give a list there is at most one child of its kind. -/
theorem count_le_one_of_language (hw : w ∈ r.language) (ha : a ∈ r.accessors)
    (h : r.givesList a = false) : w.count a ≤ 1 := by
  obtain ⟨f, hf, rfl⟩ := List.mem_map.1 ha
  have hsingle : f.isList = false := by
    cases hlist : f.isList with
    | false => rfl
    | true =>
      have hmem : (⟨f.accessor, true⟩ : Field) ∈ r.fields := hlist ▸ hf
      rw [givesList, List.contains_iff_mem.2 hmem] at h
      cases h
  have hfit := r.fieldsFit_eq_true
  rw [fieldsFit, Bool.and_eq_true] at hfit
  have hmost := List.all_eq_true.1 hfit.2 f hf
  rw [hsingle, Bool.false_or] at hmost
  exact Piece.count_le_of_allAtMost _ hmost (mem_alternatives_of_language hw)

/-- The accessors of a rule have different names. -/
theorem nodup_accessor_names (r : Rule) : (r.accessors.map Accessor.name).Nodup := by
  have hall : ∀ r ∈ Rule.all, (r.accessors.map Accessor.name).Nodup := by decide +kernel
  exact hall r r.mem_all

/-- An accessor is found by its name. -/
theorem accessor?_name (ha : a ∈ r.accessors) : r.accessor? a.name = some a := by
  obtain ⟨b, hb⟩ : ∃ b, r.accessor? a.name = some b := by
    rw [← Option.isSome_iff_exists, accessor?, List.find?_isSome]
    exact ⟨a, ha, by simp⟩
  have hname : b.name = a.name := by simpa using List.find?_some hb
  rw [hb, List.inj_on_of_nodup_map (nodup_accessor_names r) (List.mem_of_find?_eq_some hb) ha hname]

end Rule

/-! ## Asking a node -/

namespace Finding

/-- What has been found, as a list. -/
def trees : Finding → List (Tree Token)
  | .nothing => []
  | .one t => [t]
  | .several ts => ts

variable {r : Rule} {children : List (Tree Token)} {a : Accessor}

/-- An accessor gives the children of its kind, or the first of them. -/
theorem ask_accessor (role : Option Role) (ha : a ∈ r.accessors) :
    (one (.node role r children)).ask a.name none = .ok (if r.givesList a = true then
      .several (Tree.select a children) else .ofOption (Tree.select a children).head?) := by
  simp only [ask, Rule.accessor?_name ha]
  cases r.givesList a <;> rfl

/-- An accessor that gives a list can be asked for each of its elements. -/
theorem ask_accessor_nth (role : Option Role) (ha : a ∈ r.accessors) (h : r.givesList a = true)
    (i : Int) : (one (.node role r children)).ask a.name (some i) =
      .ok (if i < 0 then .nothing else .ofOption (Tree.select a children)[i.toNat]?) := by
  simp only [ask, Rule.accessor?_name ha, h]

end Finding

namespace Tree

variable {r : Rule} {children : List (Tree Token)} {a : Accessor}

/-- The trees that a node gives when it is asked by the accessor `a`. -/
def answers (r : Rule) (children : List (Tree Token)) (a : Accessor) : List (Tree Token) :=
  match (Finding.one (.node none r children)).ask a.name none with
  | .ok found => found.trees
  | .error _ => []

theorem select_eq_filter : select a children = children.filter fun t => t.symbol Token.kind = a :=
  List.filter_congr fun t _ => Bool.eq_iff_iff.2 ((isA_iff a t).trans decide_eq_true_iff.symm)

theorem mem_select {t : Tree Token} :
    t ∈ select a children ↔ t ∈ children ∧ t.symbol Token.kind = a := by
  rw [select, List.mem_filter, isA_iff]

/-- An accessor that does not give a list gives the first child of its kind. -/
theorem answers_of_not_givesList (ha : a ∈ r.accessors) (h : r.givesList a = false) :
    answers r children a = (select a children).head?.toList := by
  rw [answers, Finding.ask_accessor none ha, h]
  cases (select a children).head? <;> rfl

/-- In a derivation an accessor hides no child of its kind. -/
theorem answers_eq_select (hw : children.map (symbol Token.kind) ∈ r.language)
    (ha : a ∈ r.accessors) : answers r children a = select a children := by
  cases hlist : r.givesList a with
  | true =>
    rw [answers, Finding.ask_accessor none ha, hlist]
    rfl
  | false =>
    have hlength : (select a children).length ≤ 1 := by
      rw [length_select]
      exact Rule.count_le_one_of_language hw ha hlist
    rw [answers_of_not_givesList ha hlist]
    match select a children, hlength with
    | [], _ => rfl
    | [t], _ => rfl

/-- Kinds that are all different and all there share the trees out among them. -/
theorem flatMap_select_perm {kinds : List Accessor} (hnodup : kinds.Nodup)
    (hcover : ∀ t ∈ children, t.symbol Token.kind ∈ kinds) :
    (kinds.flatMap fun a => select a children).Perm children := by
  induction children with
  | nil =>
    have hnil : (kinds.flatMap fun a => select a []) = [] := by simp [select_nil]
    rw [hnil]
  | cons t ts ih =>
    obtain ⟨ht, hts⟩ := List.forall_mem_cons.1 hcover
    -- Only the kind of the first tree gives one tree more than without it.
    obtain ⟨before, after, hsplit⟩ := List.append_of_mem ht
    have hsame : ∀ a ∈ before ++ after, select a (t :: ts) = select a ts := by
      intro a ha
      rw [select_cons, if_neg]
      rintro rfl
      rw [hsplit] at hnodup
      exact (List.nodup_middle.1 hnodup).notMem ha
    have hrest : (kinds.flatMap fun a => select a ts).Perm ts := ih hts
    rw [hsplit] at hrest ⊢
    simp only [List.flatMap_append, List.flatMap_cons] at hrest ⊢
    rw [List.flatMap_congr fun a ha => hsame a (List.mem_append_left after ha),
      List.flatMap_congr fun a ha => hsame a (List.mem_append_right before ha),
      select_cons, if_pos rfl, List.cons_append]
    exact List.perm_middle.trans (hrest.cons t)

/-- In a derivation the accessors of a node share its children out among them. -/
theorem flatMap_answers_perm (hw : children.map (symbol Token.kind) ∈ r.language) :
    (r.accessors.flatMap (answers r children)).Perm children := by
  rw [List.flatMap_congr fun a ha => answers_eq_select hw ha]
  refine flatMap_select_perm (Rule.nodup_accessor_names r).of_map fun t ht => ?_
  exact Rule.mem_accessors_of_language hw (List.mem_map_of_mem ht)

/-- In a derivation each child of a node is given by the accessor of its kind and by no other. -/
theorem existsUnique_accessor (hw : children.map (symbol Token.kind) ∈ r.language)
    {t : Tree Token} (ht : t ∈ children) :
    ∃! a, a ∈ r.accessors ∧ t ∈ answers r children a := by
  have hmem : t.symbol Token.kind ∈ r.accessors :=
    Rule.mem_accessors_of_language hw (List.mem_map_of_mem ht)
  refine ⟨t.symbol Token.kind, ⟨hmem, ?_⟩, fun a ⟨ha, hta⟩ => ?_⟩
  · rw [answers_eq_select hw hmem]
    exact mem_select.2 ⟨ht, rfl⟩
  · rw [answers_eq_select hw ha] at hta
    exact (mem_select.1 hta).2.symm

end Tree

/-- **Accessors give the children.** Whatever errors there were, an accessor of a node that gives a
list gives the children of its kind in order, and by number the child with that number among them or
nothing; any other accessor gives the first child of its kind or nothing. Skipped and assumed tokens
count like others. Without a complaint, each child of each node is given by one accessor of its rule
and by no other, all accessors together give each child once, and where an accessor does not give a
list, what it gives is all there is of its kind. -/
theorem accessors_share_children :
    (∀ (role : Option Role) (r : Rule) (children : List (Tree Token)), ∀ a ∈ r.accessors,
      let node := Finding.one (.node role r children)
      let found := children.filter fun t => t.symbol Token.kind = a
      (r.givesList a = true →
        node.ask a.name none = .ok (.several found) ∧
        (∀ (i : Nat) (t : Tree Token), found[i]? = some t →
          node.ask a.name (some i) = .ok (.one t)) ∧
        ∀ i : Int, i < 0 ∨ found.length ≤ i → node.ask a.name (some i) = .ok .nothing) ∧
      (r.givesList a = false → node.ask a.name none = .ok (.ofOption found.head?))) ∧
    ∀ (r : Rule) (level : Nat) (source : List Char),
      ((TokenStream.ofSource source).parse r level).complaints = [] →
      ∀ n ∈ (analyse r level source).tree.nodes,
        (∀ t ∈ n.2, ∃! a, a ∈ n.1.accessors ∧ t ∈ Tree.answers n.1 n.2 a) ∧
        (n.1.accessors.flatMap (Tree.answers n.1 n.2)).Perm n.2 ∧
        ∀ a ∈ n.1.accessors, n.1.givesList a = false →
          ∃ found : Option (Tree Token), Tree.answers n.1 n.2 a = found.toList ∧
            (n.2.filter fun t => t.symbol Token.kind = a) = found.toList := by
  refine ⟨fun role r children a ha => ?_, fun r level source hquiet n hn => ?_⟩
  · intro node found
    have hfound : Tree.select a children = found := Tree.select_eq_filter
    refine ⟨fun hlist => ⟨?_, fun i t hi => ?_, fun i hi => ?_⟩, fun hlist => ?_⟩
    · rw [Finding.ask_accessor role ha, if_pos hlist, hfound]
    · rw [Finding.ask_accessor_nth role ha hlist, hfound, if_neg (by omega), Int.toNat_natCast, hi]
      rfl
    · rw [Finding.ask_accessor_nth role ha hlist, hfound]
      split
      · rfl
      · rw [List.getElem?_eq_none (by omega)]
        rfl
    · rw [Finding.ask_accessor role ha, hlist, hfound]
      rfl
  · have hw : n.2.map (Tree.symbol Token.kind) ∈ n.1.language :=
      ((analyse_derives hquiet).1.of_mem_nodes n hn).1
    refine ⟨fun t ht => Tree.existsUnique_accessor hw ht, Tree.flatMap_answers_perm hw,
      fun a ha hlist => ⟨_, Tree.answers_of_not_givesList ha hlist, ?_⟩⟩
    calc n.2.filter (fun t => t.symbol Token.kind = a)
      _ = Tree.select a n.2 := Tree.select_eq_filter.symm
      _ = Tree.answers n.1 n.2 a := (Tree.answers_eq_select hw ha).symm
      _ = (Tree.select a n.2).head?.toList := Tree.answers_of_not_givesList ha hlist

/-- In the second file the closing brace of the class is missing. Its declarations are given as a list
and by number, and the brace that is assumed is given like one that is there. In the first file the
accessors share the children of all nodes. -/
theorem accessors_share_children_of_class :
    let whole := "class A\x7b;;\x7d".toList
    let broken := "class A\x7b;;".toList
    let opening : Tree Token := .token none ⟨.lbrace, "\x7b".toList, ⟨7, 1, 7⟩⟩
    let empty (n : Nat) : Tree Token :=
      .node none .classBodyDeclaration [.token none ⟨.semi, ";".toList, ⟨n, 1, n⟩⟩]
    let children := [opening, empty 8, empty 9, .missing .rbrace]
    let body := Finding.one (.node none .classBody children)
    ((TokenStream.ofSource whole).parse .compilationUnit 0).complaints = [] ∧
    (∀ n ∈ (analyse .compilationUnit 0 whole).tree.nodes,
      (n.1.accessors.flatMap (Tree.answers n.1 n.2)).Perm n.2) ∧
    (.classBody, children) ∈ (analyse .compilationUnit 0 broken).tree.nodes ∧
    body.ask "classBodyDeclaration" none = .ok (.several [empty 8, empty 9]) ∧
    body.ask "classBodyDeclaration" (some 1) = .ok (.one (empty 9)) ∧
    (∀ i : Int, i < 0 ∨ 2 ≤ i → body.ask "classBodyDeclaration" (some i) = .ok .nothing) ∧
    body.ask "RBRACE" none = .ok (.one (.missing .rbrace)) := by
  intro whole broken opening empty children body
  obtain ⟨hask, hshare⟩ := accessors_share_children
  have hquiet : ((TokenStream.ofSource whole).parse .compilationUnit 0).complaints = [] := by
    rw [TokenStream.parse_eq_plain]
    decide +kernel
  have hmem : (.classBody, children) ∈ (analyse .compilationUnit 0 broken).tree.nodes := by
    rw [analyse_tree_eq_plain]
    decide +kernel
  have hlist := (hask none .classBody children (.rule .classBodyDeclaration) (by decide)).1 (by decide)
  have hone := (hask none .classBody children (.token .rbrace) (by decide)).2 (by decide)
  exact ⟨hquiet, fun n hn => (hshare .compilationUnit 0 whole hquiet n hn).2.1, hmem, hlist.1,
    hlist.2.1 1 _ rfl, hlist.2.2, hone⟩

end JavaOutline
