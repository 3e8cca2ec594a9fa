import JavaOutline.Proofs.Outline.Ignored
import JavaOutline.Proofs.Parser.Indices

/-!
# Members that a class takes over from the declarations before it

The lists of members are filled over a whole file and never emptied. This file compares the outline
of a file with the outlines of its declarations alone. `Outline.Inherits` relates two outlines that
do the same deeds, the first of which began with some members: it writes more as soon as a class ends
and these members are to be listed, and the same until then (`Outline.Inherits.output`). So the parts
of a file that are outlined one after the other write what they would write alone exactly if no class
ends in a part behind a part with members to list (`Outline.output_flatten`).

For a file without complaints and without ignored classes this gives the condition under which its
outline is that of its type declarations one by one (`text_eq_flatMap_alone_iff`).
-/

namespace JavaOutline

/-! ## Nodes and deeds -/

namespace Deed

/-- The deed neither announces a package nor passes an ignored class. -/
def IsPlain (d : Deed) : Prop := d ≠ .passIgnored ∧ ∀ name, d ≠ .announce name

/-- Only packages are announced. -/
theorem rule_of_read_announce {r : Rule} {children : List (Tree Token)} {name : List Char}
    (h : read r children = .ok (some (.announce name))) : r = .packageDeclaration := by
  by_cases hr : r = .classDeclaration
  · subst hr
    rcases read_class h with hd | ⟨_, _, _, hd⟩ <;> cases hd
  · unfold read at h
    split at h
    · rfl
    · exact absurd rfl hr
    · obtain ⟨members, -, hd⟩ := exists_of_map_ok h
      cases hd
    · obtain ⟨members, -, hd⟩ := exists_of_map_ok h
      cases hd
    · obtain ⟨members, -, hd⟩ := exists_of_map_ok h
      cases hd
    · cases h

end Deed

namespace Tree

mutual

/-- A deed comes from the node that is read so, or it is the end of a class. -/
theorem exists_node_of_mem_deeds : ∀ {t : Tree Token} {d : Deed}, d ∈ t.deeds →
    ∃ n ∈ t.nodes, Deed.read n.1 n.2 = .ok (some d) ∨ d = .closeClass ∧ n.1 = .classDeclaration
  | .token _ _, _, hd | .skipped _, _, hd | .missing _, _, hd => by simp [deeds] at hd
  | .node _ r children, d, hd => by
    have hchildren (hd : d ∈ deedsAll children) : ∃ n ∈ (r, children) :: nodesAll children,
        Deed.read n.1 n.2 = .ok (some d) ∨ d = .closeClass ∧ n.1 = .classDeclaration := by
      obtain ⟨n, hn, hnode⟩ := exists_node_of_mem_deedsAll children hd
      exact ⟨n, List.mem_cons_of_mem _ hn, hnode⟩
    rw [nodes]
    rw [deeds] at hd
    split at hd
    · rename_i hread
      obtain rfl := List.mem_singleton.1 hd
      exact ⟨_, List.mem_cons_self, .inl hread⟩
    · rename_i name extended implemented hread
      rw [List.cons_append, List.mem_cons, List.mem_append, List.mem_singleton] at hd
      rcases hd with rfl | hd | rfl
      · exact ⟨_, List.mem_cons_self, .inl hread⟩
      · exact hchildren hd
      · refine ⟨_, List.mem_cons_self, .inr ⟨rfl, ?_⟩⟩
        by_contra hr
        rcases Deed.read_other hr hread with hd | ⟨_, hd⟩ | ⟨_, hd⟩ <;> cases hd
    · rename_i e _ _ hread
      rcases List.mem_cons.1 hd with rfl | hd
      · exact ⟨_, List.mem_cons_self, .inl hread⟩
      · exact hchildren hd
    · exact hchildren hd

/-- `exists_node_of_mem_deeds` for several trees. -/
theorem exists_node_of_mem_deedsAll : ∀ (ts : List (Tree Token)) {d : Deed}, d ∈ deedsAll ts →
    ∃ n ∈ nodesAll ts, Deed.read n.1 n.2 = .ok (some d) ∨ d = .closeClass ∧ n.1 = .classDeclaration
  | [], _, hd => by simp [deedsAll] at hd
  | t :: ts, d, hd => by
    rcases List.mem_append.1 hd with hd | hd
    · obtain ⟨n, hn, hnode⟩ := exists_node_of_mem_deeds hd
      exact ⟨n, List.mem_append_left _ hn, hnode⟩
    · obtain ⟨n, hn, hnode⟩ := exists_node_of_mem_deedsAll ts hd
      exact ⟨n, List.mem_append_right _ hn, hnode⟩

end

/-- Is there a class in the tree? -/
def HasClass (t : Tree Token) : Prop := ∃ n ∈ t.nodes, n.1 = .classDeclaration

/-- Every node can be read, and none is an ignored class. -/
def Unignored (n : Rule × List (Tree Token)) : Prop :=
  Deed.Legible n ∧ isIgnoredClass n.1 n.2 = false

mutual

/-- A class that is not ignored begins and ends. -/
theorem class_mem_deeds : ∀ {t : Tree Token}, (∀ n ∈ t.nodes, Unignored n) →
    ∀ n ∈ t.nodes, n.1 = .classDeclaration →
      (∃ name extended implemented, .openClass name extended implemented ∈ t.deeds) ∧
        .closeClass ∈ t.deeds
  | .token _ _, _, _, hn, _ | .skipped _, _, _, hn, _ | .missing _, _, _, hn, _ => by
    simp [nodes] at hn
  | .node _ r children, h, n, hn, hclass => by
    obtain ⟨⟨d, hread, hignored⟩, hkept⟩ := h (r, children) List.mem_cons_self
    have hinside := fun hn => class_mem_deedsAll children
      (fun m hm => h m (List.mem_cons_of_mem _ hm)) n hn hclass
    by_cases hr : r = .classDeclaration
    · subst hr
      rcases Deed.read_class hread with rfl | ⟨name, extended, implemented, rfl⟩
      · exact absurd (hignored.1 rfl) (Bool.eq_false_iff.1 hkept)
      · rw [deeds_class hread]
        exact ⟨⟨name, extended, implemented, List.mem_cons_self⟩,
          List.mem_append_right _ (List.mem_singleton.2 rfl)⟩
    · rw [deeds_other hr hread]
      rcases List.mem_cons.1 hn with rfl | hn
      · exact absurd hclass hr
      · obtain ⟨⟨name, extended, implemented, hopen⟩, hclose⟩ := hinside hn
        exact ⟨⟨name, extended, implemented, List.mem_append_right _ hopen⟩,
          List.mem_append_right _ hclose⟩

/-- `class_mem_deeds` for several trees. -/
theorem class_mem_deedsAll : ∀ (ts : List (Tree Token)), (∀ n ∈ nodesAll ts, Unignored n) →
    ∀ n ∈ nodesAll ts, n.1 = .classDeclaration →
      (∃ name extended implemented, .openClass name extended implemented ∈ deedsAll ts) ∧
        .closeClass ∈ deedsAll ts
  | [], _, _, hn, _ => by simp [nodesAll] at hn
  | t :: ts, h, n, hn, hclass => by
    rcases List.mem_append.1 hn with hn | hn
    · obtain ⟨⟨name, extended, implemented, hopen⟩, hclose⟩ :=
        class_mem_deeds (fun m hm => h m (List.mem_append_left _ hm)) n hn hclass
      exact ⟨⟨name, extended, implemented, List.mem_append_left _ hopen⟩,
        List.mem_append_left _ hclose⟩
    · obtain ⟨⟨name, extended, implemented, hopen⟩, hclose⟩ :=
        class_mem_deedsAll ts (fun m hm => h m (List.mem_append_right _ hm)) n hn hclass
      exact ⟨⟨name, extended, implemented, List.mem_append_right _ hopen⟩,
        List.mem_append_right _ hclose⟩

end

section
variable {t : Tree Token} {ts : List (Tree Token)}

/-- A class ends among the deeds exactly if there is a class. -/
theorem closeClass_mem_deeds_iff (h : ∀ n ∈ t.nodes, Unignored n) :
    .closeClass ∈ t.deeds ↔ t.HasClass := by
  constructor
  · intro hd
    obtain ⟨n, hn, hread | ⟨-, hclass⟩⟩ := exists_node_of_mem_deeds hd
    · by_cases hr : n.1 = .classDeclaration
      · exact ⟨n, hn, hr⟩
      · rcases Deed.read_other hr hread with hd | ⟨_, hd⟩ | ⟨_, hd⟩ <;> cases hd
    · exact ⟨n, hn, hclass⟩
  · rintro ⟨n, hn, hclass⟩
    exact (class_mem_deeds h n hn hclass).2

/-- Without packages and ignored classes all deeds are plain. -/
theorem isPlain_of_mem_deedsAll (h : ∀ n ∈ nodesAll ts, Unignored n)
    (hpackage : ∀ n ∈ nodesAll ts, n.1 ≠ .packageDeclaration) :
    ∀ d ∈ deedsAll ts, d.IsPlain := by
  intro d hd
  obtain ⟨n, hn, hread | ⟨rfl, -⟩⟩ := exists_node_of_mem_deedsAll ts hd
  · obtain ⟨⟨e, hread', hignored⟩, hkept⟩ := h n hn
    refine ⟨?_, ?_⟩
    · rintro rfl
      rw [hread, Except.ok.injEq] at hread'
      exact absurd (hignored.1 hread'.symm) (Bool.eq_false_iff.1 hkept)
    · rintro name rfl
      exact hpackage n hn (Deed.rule_of_read_announce hread)
  · exact ⟨nofun, nofun⟩

theorem deedsAll_eq_flatMap : deedsAll ts = ts.flatMap deeds := by
  induction ts with
  | nil => rfl
  | cons t ts ih => rw [deedsAll, ih, List.flatMap_cons]

end

end Tree

/-! ## Two outlines with different pasts -/

namespace Outline

variable {methodsOnly : Bool} {o o' : Outline} {d : Deed} {ds : List Deed}

/-- What all the deeds write. -/
def output (methodsOnly : Bool) : Outline → List Deed → List Char
  | _, [] => []
  | o, d :: ds => o.written methodsOnly d ++ output methodsOnly (o.perform methodsOnly d) ds

theorem performAll_text :
    (o.performAll methodsOnly ds).text = o.text ++ o.output methodsOnly ds := by
  induction ds generalizing o with
  | nil => exact (List.append_nil _).symm
  | cons d ds ih => rw [performAll_cons, ih, perform_text, output, List.append_assoc]

theorem output_append (ds es : List Deed) : o.output methodsOnly (ds ++ es) =
    o.output methodsOnly ds ++ (o.performAll methodsOnly ds).output methodsOnly es := by
  induction ds generalizing o with
  | nil => rfl
  | cons d ds ih => rw [List.cons_append, output, output, ih, performAll_cons, List.append_assoc]

/-- Are there members to list? -/
def ListsAny (methodsOnly : Bool) (members : Shelf → List (List Char)) : Prop :=
  ∃ s : Shelf, s.isShown methodsOnly = true ∧ members s ≠ []

/-- The outlines are at the same level and ignore no classes, and the first one has inherited some
members. -/
structure Inherits (inherited : Shelf → List (List Char)) (o o' : Outline) : Prop where
  level : o.level = o'.level
  ignored : o.ignored = []
  ignored' : o'.ignored = []
  shelf : ∀ s, o.shelf s = inherited s ++ o'.shelf s

theorem ignores_of_ignored (h : o.ignored = []) : o.ignores = false := by
  rw [ignores, h]
  rfl

/-- A section with more members is longer. -/
theorem length_sectionText_append_lt {level : Int} {title : String} {ms ms' : List (List Char)}
    (h : ms ≠ []) :
    (sectionText level title ms').length < (sectionText level title (ms ++ ms')).length := by
  have hlines : 0 < (ms.flatMap fun m => indentedLine level (' ' :: ' ' :: m)).length := by
    obtain ⟨m, rest, rfl⟩ := List.exists_cons_of_ne_nil h
    rw [List.flatMap_cons, List.length_append, length_indentedLine]
    omega
  have hboth : ms ++ ms' ≠ [] := by simp [h]
  rw [length_sectionText hboth, List.flatMap_append, List.length_append]
  by_cases hms : ms' = []
  · subst hms
    exact Nat.lt_of_lt_of_le (Nat.succ_pos _) (Nat.le_add_right _ _)
  · rw [length_sectionText hms]
    omega

namespace Inherits

variable {inherited : Shelf → List (List Char)}

theorem perform (methodsOnly : Bool) (h : Inherits inherited o o') (hd : d ≠ .passIgnored) :
    Inherits inherited (o.perform methodsOnly d) (o'.perform methodsOnly d) where
  level := by rw [perform_level, perform_level, h.level]
  ignored := perform_ignored h.ignored hd
  ignored' := perform_ignored h.ignored' hd
  shelf s := by
    rw [perform_shelf, perform_shelf, ignores_of_ignored h.ignored, ignores_of_ignored h.ignored',
      h.shelf, List.append_assoc]

/-- The end of a class writes more if inherited members are to be listed, and else the same. -/
theorem closing (h : Inherits inherited o o') :
    ListsAny methodsOnly inherited ∧
        (o'.closing methodsOnly).length < (o.closing methodsOnly).length ∨
      ¬ ListsAny methodsOnly inherited ∧ o.closing methodsOnly = o'.closing methodsOnly := by
  have hsame {entry : String × Shelf} (hempty : inherited entry.2 = []) :
      sectionText o.level entry.1 (o.shelf entry.2) =
        sectionText o'.level entry.1 (o'.shelf entry.2) := by
    rw [h.level, h.shelf, hempty, List.nil_append]
  have hmore {entry : String × Shelf} (hne : inherited entry.2 ≠ []) :
      (sectionText o'.level entry.1 (o'.shelf entry.2)).length <
        (sectionText o.level entry.1 (o.shelf entry.2)).length := by
    rw [h.level, h.shelf]
    exact length_sectionText_append_lt hne
  by_cases hlists : ListsAny methodsOnly inherited
  · refine .inl ⟨hlists, ?_⟩
    obtain ⟨s, hs, hne⟩ := hlists
    obtain ⟨title, hmem⟩ := exists_mem_sections hs
    unfold Outline.closing
    rw [List.length_flatMap, List.length_flatMap]
    refine List.sum_lt_sum _ _ (fun entry _ => ?_) ⟨_, hmem, hmore hne⟩
    by_cases hentry : inherited entry.2 = []
    · rw [hsame hentry]
    · exact (hmore hentry).le
  · refine .inr ⟨hlists, List.flatMap_congr fun entry hentry => hsame ?_⟩
    exact not_not.1 fun hne => hlists ⟨entry.2, isShown_of_mem_sections hentry, hne⟩

/-- A deed writes more if it ends a class that lists inherited members, and else the same. -/
theorem written (methodsOnly : Bool) (h : Inherits inherited o o') (hd : d.IsPlain) :
    (d = .closeClass ∧ ListsAny methodsOnly inherited) ∧
        (o'.written methodsOnly d).length < (o.written methodsOnly d).length ∨
      ¬ (d = .closeClass ∧ ListsAny methodsOnly inherited) ∧
        o.written methodsOnly d = o'.written methodsOnly d := by
  cases d with
  | closeClass =>
    simp only [Outline.written, ignores_of_ignored h.ignored, ignores_of_ignored h.ignored',
      Bool.false_eq_true, if_false, true_and]
    exact h.closing
  | openClass => exact .inr ⟨by rintro ⟨⟨⟩, -⟩, by rw [Outline.written, Outline.written, h.level]⟩
  | add => exact .inr ⟨by rintro ⟨⟨⟩, -⟩, rfl⟩
  | announce name => exact absurd rfl (hd.2 name)
  | passIgnored => exact absurd rfl hd.1

/-- What the deeds write is no shorter with inherited members, and the same exactly if no class ends
or none of the inherited members is to be listed. -/
theorem output (methodsOnly : Bool) (h : Inherits inherited o o') (hds : ∀ d ∈ ds, d.IsPlain) :
    (o'.output methodsOnly ds).length ≤ (o.output methodsOnly ds).length ∧
      (o.output methodsOnly ds = o'.output methodsOnly ds ↔
        (ListsAny methodsOnly inherited → .closeClass ∉ ds)) := by
  induction ds generalizing o o' with
  | nil => exact ⟨Nat.le_refl _, iff_of_true rfl nofun⟩
  | cons d ds ih =>
    have hplain := hds d List.mem_cons_self
    obtain ⟨hle, hiff⟩ := ih (h.perform methodsOnly hplain.1)
      fun e he => hds e (List.mem_cons_of_mem _ he)
    rw [Outline.output, Outline.output, List.length_append, List.length_append]
    rcases h.written methodsOnly hplain with ⟨⟨rfl, hlists⟩, hlt⟩ | ⟨hquiet, heq⟩
    · refine ⟨by omega, iff_of_false (fun heq => ?_) fun hnot => hnot hlists List.mem_cons_self⟩
      have hlength := congrArg List.length heq
      rw [List.length_append, List.length_append] at hlength
      omega
    · rw [heq]
      refine ⟨by omega, ?_⟩
      rw [List.append_cancel_left_eq, hiff, List.mem_cons]
      refine ⟨fun hnot hlists hmem => ?_, fun hnot hlists hmem => hnot hlists (.inr hmem)⟩
      rcases hmem with rfl | hmem
      · exact hquiet ⟨rfl, hlists⟩
      · exact hnot hlists hmem

end Inherits

/-! ## One part after the other -/

theorem performAll_level (hds : ∀ d ∈ ds, d.IsPlain) :
    (o.performAll methodsOnly ds).level = o.level + Deed.depth ds := by
  induction ds generalizing o with
  | nil => exact (Int.add_zero _).symm
  | cons d ds ih =>
    have hd := (hds d List.mem_cons_self).1
    have hdepth : Deed.depth (d :: ds) = d.weight + Deed.depth ds := rfl
    rw [performAll_cons, ih fun e he => hds e (List.mem_cons_of_mem _ he), perform_level, hdepth]
    simp only [List.count_singleton, beq_iff_eq, hd, if_false]
    omega

theorem performAll_ignored (ho : o.ignored = []) (hds : ∀ d ∈ ds, d.IsPlain) :
    (o.performAll methodsOnly ds).ignored = [] := by
  induction ds generalizing o with
  | nil => exact ho
  | cons d ds ih =>
    exact ih (perform_ignored ho (hds d List.mem_cons_self).1)
      fun e he => hds e (List.mem_cons_of_mem _ he)

theorem performAll_shelf (ho : o.ignored = []) (hds : ∀ d ∈ ds, d.IsPlain) (s : Shelf) :
    (o.performAll methodsOnly ds).shelf s = o.shelf s ++ Deed.entries s ds := by
  induction ds generalizing o with
  | nil => exact (List.append_nil _).symm
  | cons d ds ih =>
    rw [performAll_cons, ih (perform_ignored ho (hds d List.mem_cons_self).1)
      (fun e he => hds e (List.mem_cons_of_mem _ he)), perform_shelf, ignores_of_ignored ho,
      ← List.singleton_append (l := ds), Deed.entries_append, List.append_assoc]
    rfl

/-- Members that are collected are to be listed beside those there were. -/
theorem listsAny_performAll (ho : o.ignored = []) (hds : ∀ d ∈ ds, d.IsPlain) :
    ListsAny methodsOnly (o.performAll methodsOnly ds).shelf ↔
      ListsAny methodsOnly o.shelf ∨ Deed.Shows methodsOnly ds := by
  unfold ListsAny Deed.Shows
  rw [← exists_or]
  refine exists_congr fun s => ?_
  rw [performAll_shelf ho hds, ne_eq, List.append_eq_nil_iff]
  tauto

/-- What a part of a file writes alone. -/
def alone (methodsOnly : Bool) (packages : List (List Char)) (ds : List Deed) : List Char :=
  (empty packages).output methodsOnly ds

/-- **Parts of a file one after the other** write no less than each of them alone, and the same
exactly if no class ends while members from before its part are to be listed. -/
theorem output_flatten (methodsOnly : Bool) (packages : List (List Char))
    (parts : List (List Deed)) (hlevel : o.level = 0) (ho : o.ignored = [])
    (hparts : ∀ ds ∈ parts, Deed.depth ds = 0 ∧ ∀ d ∈ ds, d.IsPlain) :
    (parts.flatMap (alone methodsOnly packages)).length ≤
        (o.output methodsOnly parts.flatten).length ∧
      (o.output methodsOnly parts.flatten = parts.flatMap (alone methodsOnly packages) ↔
        (ListsAny methodsOnly o.shelf → ∀ ds ∈ parts, .closeClass ∉ ds) ∧
        parts.Pairwise fun ds es => Deed.Shows methodsOnly ds → .closeClass ∉ es) := by
  induction parts generalizing o with
  | nil => exact ⟨Nat.le_refl _, iff_of_true rfl ⟨nofun, .nil⟩⟩
  | cons ds parts ih =>
    obtain ⟨hdepth, hplain⟩ := hparts ds List.mem_cons_self
    have hinherits : Inherits o.shelf o (empty packages) :=
      ⟨hlevel, ho, rfl, fun s => by cases s <;> exact (List.append_nil _).symm⟩
    obtain ⟨hle, hiff⟩ := hinherits.output methodsOnly hplain
    obtain ⟨hle', hiff'⟩ := ih (o := o.performAll methodsOnly ds)
      (by rw [performAll_level hplain, hlevel, hdepth]; rfl) (performAll_ignored ho hplain)
      fun es hes => hparts es (List.mem_cons_of_mem _ hes)
    rw [List.flatten_cons, output_append, List.flatMap_cons, List.length_append, List.length_append,
      List.pairwise_cons]
    rw [listsAny_performAll ho hplain] at hiff'
    refine ⟨Nat.add_le_add hle hle', ?_⟩
    -- The whole is written the same only if each of the two parts is, for neither can be shorter.
    have hsplit : o.output methodsOnly ds ++
        (o.performAll methodsOnly ds).output methodsOnly parts.flatten =
          alone methodsOnly packages ds ++ parts.flatMap (alone methodsOnly packages) ↔
        o.output methodsOnly ds = alone methodsOnly packages ds ∧
          (o.performAll methodsOnly ds).output methodsOnly parts.flatten =
            parts.flatMap (alone methodsOnly packages) := by
      refine ⟨fun heq => List.append_inj heq ?_, fun heq => by rw [heq.1, heq.2]⟩
      have hlength := congrArg List.length heq
      rw [List.length_append, List.length_append] at hlength
      have hle : (alone methodsOnly packages ds).length ≤ (o.output methodsOnly ds).length := hle
      omega
    rw [hsplit, hiff', alone, hiff]
    simp only [List.mem_cons, forall_eq_or_imp]
    tauto

/-- Members alone write nothing. -/
theorem output_eq_nil (hds : ∀ d ∈ ds, ∃ members, d = .add members) :
    o.output methodsOnly ds = [] := by
  induction ds generalizing o with
  | nil => rfl
  | cons d ds ih =>
    obtain ⟨members, rfl⟩ := hds d List.mem_cons_self
    rw [output, ih fun e he => hds e (List.mem_cons_of_mem _ he)]
    rfl

/-- The first line of a class is written. -/
theorem output_ne_nil {name extended implemented : List Char}
    (h : .openClass name extended implemented ∈ ds) : o.output methodsOnly ds ≠ [] := by
  obtain ⟨before, after, rfl⟩ := List.append_of_mem h
  intro hnil
  have hlength := congrArg List.length hnil
  rw [output_append, output, written, List.length_append, List.length_append,
    length_indentedLine] at hlength
  simp at hlength

end Outline

namespace Tree

/-- Trees without packages and ignored classes write something exactly if there is a class. -/
theorem alone_deedsAll_eq_nil_iff (methodsOnly : Bool) (packages : List (List Char))
    {ts : List (Tree Token)} (h : ∀ n ∈ nodesAll ts, Unignored n)
    (hpackage : ∀ n ∈ nodesAll ts, n.1 ≠ .packageDeclaration) :
    Outline.alone methodsOnly packages (deedsAll ts) = [] ↔
      ∀ n ∈ nodesAll ts, n.1 ≠ .classDeclaration := by
  constructor
  · intro hnil n hn hclass
    obtain ⟨⟨name, extended, implemented, hopen⟩, -⟩ := class_mem_deedsAll ts h n hn hclass
    exact Outline.output_ne_nil hopen hnil
  · intro hnone
    refine Outline.output_eq_nil fun d hd => ?_
    obtain ⟨n, hn, hread | ⟨-, hclass⟩⟩ := exists_node_of_mem_deedsAll ts hd
    · rcases Deed.read_other (hnone n hn) hread with hd | ⟨name, hd⟩ | ⟨members, hd⟩
      · cases hd
      · obtain rfl := Option.some.inj hd
        exact absurd (Deed.rule_of_read_announce hread) (hpackage n hn)
      · exact ⟨members, Option.some.inj hd⟩
    · exact absurd hclass (hnone n hn)

/-- What a tree writes as the only part of a file. -/
theorem text_run_alone {methodsOnly : Bool} {packages : List (List Char)} {t : Tree Token}
    (h : ∀ n ∈ t.nodes, Unignored n) :
    ((Outline.empty packages).run methodsOnly (node none .compilationUnit [t]).visits).1.text =
      Outline.alone methodsOnly packages t.deeds := by
  have horderly : ∀ n ∈ (node none .compilationUnit [t]).nodes, Deed.Orderly n := by
    intro n hn
    rw [nodes, nodesAll, nodesAll, List.append_nil, List.mem_cons] at hn
    rcases hn with rfl | hn
    · exact ⟨none, rfl, nofun⟩
    · obtain ⟨⟨d, hread, hignored⟩, hkept⟩ := h n hn
      exact ⟨d, hread, fun hd => absurd (hignored.1 hd) (Bool.eq_false_iff.1 hkept)⟩
  have hdeeds : (node none .compilationUnit [t]).deeds = t.deeds := by
    rw [deeds_other (r := .compilationUnit) (d := none) nofun rfl, deedsAll, deedsAll,
      List.append_nil]
    rfl
  rw [Outline.run_visits _ _ horderly, hdeeds, Outline.performAll_text]
  rfl

end Tree

/-! ## Files -/

namespace Rule

/-- Can the rule occur in an import or a module? Nothing of these is in an outline. -/
def isSilent : Rule → Bool
  | .importDeclaration | .moduleDeclaration | .moduleBody | .moduleDirective | .requiresModifier
  | .qualifiedName | .identifier => true
  | _ => false

theorem isSilent_body (r : Rule) (h : r.isSilent = true) :
    r.body.within (fun _ => true) isSilent = true := by
  have hbody : (!r.isSilent || r.body.within (fun _ => true) isSilent) = true := by
    cases r <;> rfl
  rw [h] at hbody
  exact hbody

end Rule

namespace Tree

section
variable {children : List (Tree Token)}

/-- Only the first part of a file can be its package. -/
theorem package_first (hw : children.map (symbol Token.kind) ∈ Rule.compilationUnit.language) :
    (∀ c ∈ children, c.symbol Token.kind ≠ .rule .packageDeclaration) ∨
      ∃ p rest, children = p :: rest ∧ p.symbol Token.kind = .rule .packageDeclaration ∧
        ∀ c ∈ rest, c.symbol Token.kind ≠ .rule .packageDeclaration := by
  have hnone {q : Piece} {ts : List (Tree Token)}
      (hq : q.within (fun _ => true) (· ≠ .packageDeclaration) = true)
      (hts : ts.map (symbol Token.kind) ∈ q.words) :
      ∀ c ∈ ts, c.symbol Token.kind ≠ .rule .packageDeclaration := by
    intro c hc heq
    have hrule := Piece.rule_of_within hq hts .packageDeclaration (heq ▸ List.mem_map_of_mem hc)
    cases hrule
  obtain ⟨rest, module, hbody, hrest, hmodule⟩ : ∃ rest module : Piece,
      Rule.compilationUnit.body = .plain (.choice
        [.andThen (.optional [.call .packageDeclaration 0]) rest, module]) ∧
      rest.within (fun _ => true) (· ≠ .packageDeclaration) = true ∧
      module.within (fun _ => true) (· ≠ .packageDeclaration) = true :=
    ⟨_, _, rfl, rfl, rfl⟩
  rw [Rule.language_plain hbody, Piece.words_choice, Piece.mem_anyWords_cons,
    Piece.mem_anyWords_cons] at hw
  rcases hw with hw | hw | hw
  · rw [Piece.words_andThen, Language.mem_mul] at hw
    obtain ⟨u, hu, v, hv, huv⟩ := hw
    obtain ⟨before, after, rfl, rfl, rfl⟩ := List.map_eq_append_iff.1 huv.symm
    rw [Piece.words_optional, Language.mem_add, Language.mem_one, Piece.mem_anyWords_cons] at hu
    rcases hu with hu | hu | hu
    · obtain rfl := List.map_eq_nil_iff.1 hu
      exact .inl (hnone hrest hv)
    · obtain ⟨p, hp, hsymbol⟩ := List.map_eq_singleton_iff.1
        (show before.map (symbol Token.kind) = [.rule .packageDeclaration] from hu)
      subst hp
      exact .inr ⟨p, after, rfl, hsymbol, hnone hrest hv⟩
    · exact (Piece.notMem_anyWords_nil hu).elim
  · exact .inl (hnone hmodule hw)
  · exact (Piece.notMem_anyWords_nil hw).elim

mutual

/-- Nothing of an import or a module is in an outline. -/
theorem deeds_of_silent : ∀ {t : Tree Token}, (∀ n ∈ t.nodes, n.1.isSilent = true) → t.deeds = []
  | .token _ _, _ | .skipped _, _ | .missing _, _ => rfl
  | .node _ r children, h => by
    have hr := h (r, children) List.mem_cons_self
    have hread : Deed.read r children = .ok none := by
      unfold Deed.read
      split <;> first | cases hr | rfl
    have hclass : r ≠ .classDeclaration := by
      rintro rfl
      cases hr
    rw [deeds_other hclass hread,
      deedsAll_of_silent children fun n hn => h n (List.mem_cons_of_mem _ hn)]
    rfl

/-- `deeds_of_silent` for several trees. -/
theorem deedsAll_of_silent : ∀ (ts : List (Tree Token)),
    (∀ n ∈ nodesAll ts, n.1.isSilent = true) → deedsAll ts = []
  | [], _ => rfl
  | t :: ts, h => by
    rw [deedsAll, deeds_of_silent fun n hn => h n (List.mem_append_left _ hn),
      deedsAll_of_silent ts fun n hn => h n (List.mem_append_right _ hn)]
    rfl

end

/-- A part of a file that is neither its package nor a type declaration has no deeds. -/
theorem deeds_of_unit_part (hw : children.map (symbol Token.kind) ∈ Rule.compilationUnit.language)
    (hd : DerivesAll Token.kind children) {c : Tree Token} (hc : c ∈ children)
    (hpackage : c.symbol Token.kind ≠ .rule .packageDeclaration)
    (htype : c.symbol Token.kind ≠ .rule .typeDeclaration) : c.deeds = [] := by
  cases c with
  | token | skipped | missing => rfl
  | node role r cs =>
    rw [Rule.language_plain rfl] at hw
    have hpart := Piece.rule_of_within (K := fun _ => true) (R := fun q => q = .packageDeclaration ||
      q = .importDeclaration || q = .typeDeclaration || q = .moduleDeclaration) rfl hw r
        (List.mem_map_of_mem hc)
    have hsilent : r.isSilent = true := by
      simp only [Bool.or_eq_true, decide_eq_true_eq] at hpart
      rcases hpart with ((rfl | rfl) | rfl) | rfl
      · exact absurd rfl hpackage
      · rfl
      · exact absurd rfl htype
      · rfl
    exact deeds_of_silent ((derivesAll_iff _).1 hd _ hc |>.nodes_within Rule.isSilent_body
      fun q hq => by cases hq; exact hsilent)

end

end Tree

/-- The line that announces the package of a file with these parts, if there is one. -/
def packageLine (packages : List (List Char)) (children : List (Tree Token)) : List Char :=
  match Tree.child? .packageDeclaration children with
  | none => []
  | some p =>
    match childText .qualifiedName p.children with
    | .error _ => []
    | .ok name => (Outline.empty packages).announcement name

section
variable {methodsOnly : Bool} {packages : List (List Char)} {children : List (Tree Token)}

/-- The parts of a file that are neither its package nor type declarations write nothing. -/
theorem flatMap_alone_select
    (h : ∀ c ∈ children, c.symbol Token.kind ≠ .rule .typeDeclaration → c.deeds = []) :
    (Tree.select (.rule .typeDeclaration) children).flatMap
        (fun c => Outline.alone methodsOnly packages c.deeds) =
      (children.map Tree.deeds).flatMap (Outline.alone methodsOnly packages) := by
  induction children with
  | nil => rfl
  | cons c cs ih =>
    have hcs := ih fun d hd => h d (List.mem_cons_of_mem _ hd)
    rw [List.map_cons, List.flatMap_cons, ← hcs, Tree.select, List.filter_cons]
    split
    · rfl
    · rename_i hc
      rw [h c List.mem_cons_self fun heq => hc ((Tree.isA_iff _ c).2 heq)]
      rfl

/-- What a file writes whose package, if it has one, comes first: `inside` are the deeds inside the
package, and `rest` are the other parts. -/
theorem output_parts (methodsOnly : Bool) (packages : List (List Char)) (inside : List Deed)
    (rest : List (Tree Token)) {o : Outline}
    (ho : o.level = 0 ∧ o.ignored = [] ∧ ∀ s, o.shelf s = [])
    (hinside : Deed.depth inside = 0 ∧ ∀ d ∈ inside, d.IsPlain)
    (hrest : ∀ c ∈ rest, Deed.depth c.deeds = 0 ∧ ∀ d ∈ c.deeds, d.IsPlain)
    (hclass : ∀ c ∈ rest, .closeClass ∈ c.deeds ↔ c.HasClass) :
    o.output methodsOnly (inside ++ Tree.deedsAll rest) =
        (rest.map Tree.deeds).flatMap (Outline.alone methodsOnly packages) ↔
      Outline.alone methodsOnly packages inside = [] ∧
        (Deed.Shows methodsOnly inside → ∀ c ∈ rest, ¬ c.HasClass) ∧
        rest.Pairwise fun T U => Deed.Shows methodsOnly T.deeds → ¬ U.HasClass := by
  obtain ⟨hlevel, hignored, hshelf⟩ := ho
  have hnone : ¬ Outline.ListsAny methodsOnly o.shelf := fun ⟨s, _, hne⟩ => hne (hshelf s)
  have hparts : ∀ ds ∈ inside :: rest.map Tree.deeds, Deed.depth ds = 0 ∧ ∀ d ∈ ds, d.IsPlain := by
    intro ds hds
    rcases List.mem_cons.1 hds with rfl | hds
    · exact hinside
    · obtain ⟨c, hc, rfl⟩ := List.mem_map.1 hds
      exact hrest c hc
  obtain ⟨hle, hiff⟩ := Outline.output_flatten methodsOnly packages _ hlevel
    hignored hparts
  have hflat : (inside :: rest.map Tree.deeds).flatten = inside ++ Tree.deedsAll rest := by
    rw [List.flatten_cons, Tree.deedsAll_eq_flatMap, List.flatMap_def]
  have hpairs : (rest.map Tree.deeds).Pairwise
        (fun ds es => Deed.Shows methodsOnly ds → .closeClass ∉ es) ↔
      rest.Pairwise fun T U => Deed.Shows methodsOnly T.deeds → ¬ U.HasClass := by
    rw [List.pairwise_map]
    exact List.Pairwise.iff_of_mem fun _ hU => by rw [hclass _ hU]
  have hfirst : (∀ es ∈ rest.map Tree.deeds, Deed.Shows methodsOnly inside → .closeClass ∉ es) ↔
      (Deed.Shows methodsOnly inside → ∀ c ∈ rest, ¬ c.HasClass) := by
    rw [List.forall_mem_map]
    exact ⟨fun h hshows c hc => (hclass c hc).not.1 (h c hc hshows),
      fun h c hc hshows => (hclass c hc).not.2 (h hshows c hc)⟩
  rw [hflat, List.flatMap_cons, List.pairwise_cons, hpairs, hfirst] at hiff
  rw [hflat, List.flatMap_cons, List.length_append] at hle
  constructor
  · intro heq
    have hnil : Outline.alone methodsOnly packages inside = [] := by
      rw [heq] at hle
      exact List.length_eq_zero_iff.1 (by omega)
    rw [hnil, List.nil_append] at hiff
    exact ⟨hnil, (hiff.1 heq).2⟩
  · rintro ⟨hnil, hpairwise⟩
    rw [hnil, List.nil_append] at hiff
    exact hiff.2 ⟨fun hlists => absurd hlists hnone, hpairwise⟩

end

namespace Tree

variable {methodsOnly : Bool} {packages : List (List Char)} {children : List (Tree Token)}

/-- Where all rules at the top can be below a file, there is no package. -/
theorem no_package_below (hd : DerivesAll Token.kind children)
    (hbelow : ∀ c ∈ children, ∀ r, c.symbol Token.kind = .rule r → r.isBelowUnit = true) :
    ∀ n ∈ nodesAll children, n.1 ≠ .packageDeclaration := by
  intro n hn heq
  have hn := hd.nodes_within Rule.isBelowUnit_body hbelow n hn
  rw [heq] at hn
  cases hn

/-- The deeds of a part of a file other than its package are plain, and its classes end. -/
theorem deeds_of_part (hw : children.map (symbol Token.kind) ∈ Rule.compilationUnit.language)
    (hd : DerivesAll Token.kind children) (h : ∀ n ∈ nodesAll children, Unignored n)
    {c : Tree Token} (hc : c ∈ children)
    (hpackage : c.symbol Token.kind ≠ .rule .packageDeclaration) :
    (Deed.depth c.deeds = 0 ∧ ∀ d ∈ c.deeds, d.IsPlain) ∧ (.closeClass ∈ c.deeds ↔ c.HasClass) := by
  have hnodes : ∀ n ∈ c.nodes, Unignored n := fun n hn =>
    h n (nodesAll_eq_flatMap ▸ List.mem_flatMap.2 ⟨c, hc, hn⟩)
  have hderives : DerivesAll Token.kind [c] := ⟨(derivesAll_iff _).1 hd c hc, trivial⟩
  have hbelow : ∀ b ∈ [c], ∀ r, b.symbol Token.kind = .rule r → r.isBelowUnit = true := by
    intro b hb r hr
    obtain rfl := List.mem_singleton.1 hb
    rw [Rule.language_plain rfl] at hw
    have hrule := Piece.rule_of_within (K := fun _ => true)
      (R := fun q => q = .packageDeclaration || q.isBelowUnit) rfl hw r
      (hr ▸ List.mem_map_of_mem hc)
    rw [Bool.or_eq_true, decide_eq_true_eq] at hrule
    exact hrule.resolve_left fun heq => hpackage (heq ▸ hr)
  have hsingle : nodesAll [c] = c.nodes := List.append_nil _
  refine ⟨⟨(balanced_deeds fun n hn => (hnodes n hn).1).1, fun d hmem => ?_⟩,
    closeClass_mem_deeds_iff hnodes⟩
  exact isPlain_of_mem_deedsAll (hsingle ▸ hnodes) (no_package_below hderives hbelow) d
    (List.mem_append_left _ hmem)

theorem select_eq_nil {a : Symbol} (h : ∀ c ∈ children, c.symbol Token.kind ≠ a) :
    select a children = [] :=
  List.filter_eq_nil_iff.2 fun c hc ha => h c hc ((isA_iff a c).1 ha)

/-- What a file without a package writes. -/
theorem output_without_package
    (hw : children.map (symbol Token.kind) ∈ Rule.compilationUnit.language)
    (hd : DerivesAll Token.kind children) (h : ∀ n ∈ nodesAll children, Unignored n)
    (hnone : ∀ c ∈ children, c.symbol Token.kind ≠ .rule .packageDeclaration) :
    (Outline.empty packages).output methodsOnly (deedsAll children) =
        (children.map deeds).flatMap (Outline.alone methodsOnly packages) ↔
      children.Pairwise fun T U => Deed.Shows methodsOnly T.deeds → ¬ U.HasClass := by
  have hparts := fun c hc => deeds_of_part hw hd h hc (hnone c hc)
  have hempty : ¬ Deed.Shows methodsOnly [] := fun ⟨_, _, hne⟩ => hne rfl
  have hiff := output_parts methodsOnly packages [] children
    (o := .empty packages) ⟨rfl, rfl, fun s => by cases s <;> rfl⟩ ⟨rfl, nofun⟩
    (fun c hc => (hparts c hc).1) fun c hc => (hparts c hc).2
  rw [List.nil_append] at hiff
  rw [hiff]
  exact ⟨fun hcond => hcond.2.2, fun hpairs => ⟨rfl, fun hshows => absurd hshows hempty, hpairs⟩⟩

/-- What a file with a package writes behind the line of the package. -/
theorem output_with_package {role : Option Role} {inside rest : List (Tree Token)}
    (hw : (node role .packageDeclaration inside :: rest).map (symbol Token.kind) ∈
      Rule.compilationUnit.language)
    (hd : DerivesAll Token.kind (node role .packageDeclaration inside :: rest))
    (h : ∀ n ∈ nodesAll (node role .packageDeclaration inside :: rest), Unignored n)
    (hrest : ∀ c ∈ rest, c.symbol Token.kind ≠ .rule .packageDeclaration) {name : List Char} :
    ((Outline.empty packages).perform methodsOnly (.announce name)).output methodsOnly
          (deedsAll inside ++ deedsAll rest) =
        (rest.map deeds).flatMap (Outline.alone methodsOnly packages) ↔
      (∀ n ∈ nodesAll inside, n.1 ≠ .classDeclaration) ∧
        (Deed.Shows methodsOnly (deedsAll inside) → ∀ c ∈ rest, ¬ c.HasClass) ∧
        rest.Pairwise fun T U => Deed.Shows methodsOnly T.deeds → ¬ U.HasClass := by
  obtain ⟨hwords, hinside⟩ := hd.1
  have hbelow : ∀ c ∈ inside, ∀ r, c.symbol Token.kind = .rule r → r.isBelowUnit = true := by
    intro c hc r hr
    rw [Rule.language_plain rfl] at hwords
    exact Piece.rule_of_within (K := fun _ => true) rfl hwords r (hr ▸ List.mem_map_of_mem hc)
  have hunignored : ∀ n ∈ nodesAll inside, Unignored n := fun n hn =>
    h n (List.mem_append_left _ (List.mem_cons_of_mem _ hn))
  have hpackage := no_package_below hinside hbelow
  have hparts := fun c hc => deeds_of_part hw hd h (List.mem_cons_of_mem _ hc) (hrest c hc)
  rw [← alone_deedsAll_eq_nil_iff methodsOnly packages hunignored hpackage]
  refine output_parts _ _ _ rest ?_
    ⟨(balanced_deedsAll _ fun n hn => (hunignored n hn).1).1,
      isPlain_of_mem_deedsAll hunignored hpackage⟩
    (fun c hc => (hparts c hc).1) fun c hc => (hparts c hc).2
  rw [Outline.perform, Outline.announce_eq]
  exact ⟨rfl, rfl, fun s => by cases s <;> rfl⟩

/-- What a whole file writes. -/
theorem output_unit_iff (hw : children.map (symbol Token.kind) ∈ Rule.compilationUnit.language)
    (hd : DerivesAll Token.kind children) (h : ∀ n ∈ nodesAll children, Unignored n) :
    (Outline.empty packages).output methodsOnly (deedsAll children) = packageLine packages children ++
        (select (.rule .typeDeclaration) children).flatMap
          (fun T => Outline.alone methodsOnly packages T.deeds) ↔
      (∀ p ∈ select (.rule .packageDeclaration) children, ¬ p.HasClass) ∧
        children.Pairwise fun T U => Deed.Shows methodsOnly T.deeds → ¬ U.HasClass := by
  have hsilent := fun c hc hpackage htype => deeds_of_unit_part hw hd (c := c) hc hpackage htype
  rcases package_first hw with hnone | ⟨p, rest, rfl, hp, hrest⟩
  · have hline : packageLine packages children = [] := by
      rw [packageLine, child?, select_eq_nil hnone]
      rfl
    rw [hline, List.nil_append, flatMap_alone_select fun c hc => hsilent c hc (hnone c hc),
      output_without_package hw hd h hnone, select_eq_nil hnone]
    exact ⟨fun hpairs => ⟨by rintro _ ⟨⟩, hpairs⟩, fun hcond => hcond.2⟩
  · cases p with
    | token | skipped | missing => cases hp
    | node role r inside =>
    obtain rfl : r = .packageDeclaration := by cases hp; rfl
    obtain ⟨⟨d, hread, -⟩, -⟩ := h (.packageDeclaration, inside) List.mem_cons_self
    obtain ⟨name, hname, rfl⟩ := exists_of_map_ok hread
    have hdeeds : (node role .packageDeclaration inside).deeds = .announce name :: deedsAll inside :=
      deeds_other (r := .packageDeclaration) (by rintro ⟨⟩) hread
    have hline : packageLine packages (node role .packageDeclaration inside :: rest) =
        (Outline.empty packages).announcement name := by
      rw [packageLine, child?, select, List.filter_cons_of_pos (by rfl)]
      simp only [List.head?_cons, Tree.children, hname]
    have htypes : select (.rule .typeDeclaration) (node role .packageDeclaration inside :: rest) =
        select (.rule .typeDeclaration) rest := List.filter_cons_of_neg (by rintro ⟨⟩)
    have hpackages : select (.rule .packageDeclaration)
        (node role .packageDeclaration inside :: rest) = [node role .packageDeclaration inside] := by
      rw [select, List.filter_cons_of_pos (by rfl)]
      exact congrArg _ (select_eq_nil hrest)
    have hclass : (node role .packageDeclaration inside).HasClass ↔
        ¬ ∀ n ∈ nodesAll inside, n.1 ≠ .classDeclaration := by
      simp [HasClass, nodes]
    have hshows : Deed.Shows methodsOnly (node role .packageDeclaration inside).deeds ↔
        Deed.Shows methodsOnly (deedsAll inside) := by
      rw [hdeeds]
      rfl
    rw [deedsAll, hdeeds, List.cons_append, Outline.output, hline, htypes, hpackages,
      flatMap_alone_select fun c hc => hsilent c (List.mem_cons_of_mem _ hc) (hrest c hc)]
    rw [show (Outline.empty packages).written methodsOnly (.announce name) =
      (Outline.empty packages).announcement name from rfl, List.append_cancel_left_eq,
      output_with_package hw hd h hrest, List.pairwise_cons, hshows]
    simp only [List.mem_singleton, forall_eq, hclass, not_not]
    exact and_congr_right' (and_congr_left' ⟨fun hall c hc hs => hall hs c hc,
      fun hall hs c hc => hall c hc hs⟩)

end Tree

/-- **Members are handed on from declaration to declaration.** The outline of a file without
complaints and without ignored classes is the line of its package and then the outlines of its type
declarations, each alone in a file, exactly if there is no class inside the package declaration and
no part of the file that has members to list comes before a part with a class. -/
theorem text_eq_flatMap_alone_iff (methodsOnly : Bool) (packages : List (List Char))
    (source : List Char)
    (h : ((TokenStream.ofSource source).parse .compilationUnit 0).complaints = [])
    (hkept : ∀ n ∈ (analyse .compilationUnit 0 source).tree.nodes,
      Tree.isIgnoredClass n.1 n.2 = false) :
    let children := (analyse .compilationUnit 0 source).tree.children
    (outlineSource methodsOnly packages source).1.text = packageLine packages children ++
        (Tree.select (.rule .typeDeclaration) children).flatMap (fun T =>
          ((Outline.empty packages).run methodsOnly
            (Tree.node none .compilationUnit [T]).visits).1.text) ↔
      (∀ p ∈ Tree.select (.rule .packageDeclaration) children, ¬ p.HasClass) ∧
        children.Pairwise fun T U => Deed.Shows methodsOnly T.deeds → ¬ U.HasClass := by
  obtain ⟨hderives, hroot⟩ := analyse_derives h
  have hlegible := legible_of_no_complaints h
  have horderly := Deed.orderly_of_derives hderives fun n hn hignored =>
    absurd hignored (Bool.eq_false_iff.1 (hkept n hn))
  have hrun : (outlineSource methodsOnly packages source).1.text =
      (Outline.empty packages).output methodsOnly (analyse .compilationUnit 0 source).tree.deeds := by
    have hperform : outlineSource methodsOnly packages source = _ :=
      Outline.run_visits _ (Outline.empty packages) horderly
    rw [hperform, Outline.performAll_text]
    rfl
  rw [hrun]
  generalize (analyse .compilationUnit 0 source).tree = t at *
  cases t with
  | token | skipped | missing => cases hroot
  | node role r children =>
  obtain rfl : r = .compilationUnit := by cases hroot; rfl
  have hunignored : ∀ n ∈ Tree.nodesAll children, Tree.Unignored n := fun n hn =>
    ⟨hlegible n (List.mem_cons_of_mem _ hn), hkept n (List.mem_cons_of_mem _ hn)⟩
  have hdeeds : (Tree.node role .compilationUnit children).deeds = Tree.deedsAll children :=
    Tree.deeds_other (r := .compilationUnit) (d := none) nofun rfl
  have halone : (Tree.select (.rule .typeDeclaration) children).flatMap (fun T =>
      ((Outline.empty packages).run methodsOnly
        (Tree.node none .compilationUnit [T]).visits).1.text) =
      (Tree.select (.rule .typeDeclaration) children).flatMap
        fun T => Outline.alone methodsOnly packages T.deeds := by
    refine List.flatMap_congr fun T hT => Tree.text_run_alone fun n hn => hunignored n ?_
    rw [Tree.nodesAll_eq_flatMap]
    exact List.mem_flatMap.2 ⟨T, List.mem_of_mem_filter hT, hn⟩
  intro cs
  simp only [hdeeds, cs, Tree.children, halone]
  exact Tree.output_unit_iff hderives.1 hderives.2 hunignored

/-- A class lists the constructor of the class before it. -/
theorem constructor_listed_twice :
    let source := "class A\x7bA()\x7b\x7d\x7dclass B\x7b\x7d".toList
    let children := (analyse .compilationUnit 0 source).tree.children
    ((TokenStream.ofSource source).parse .compilationUnit 0).complaints = [] ∧
      (outlineSource true [] source).1.text ≠ packageLine [] children ++
        (Tree.select (.rule .typeDeclaration) children).flatMap (fun T =>
          ((Outline.empty []).run true (Tree.node none .compilationUnit [T]).visits).1.text) := by
  intro source children
  have hfile : ((TokenStream.ofSource source).parse .compilationUnit 0).complaints = [] ∧
      (∀ n ∈ (analyse .compilationUnit 0 source).tree.nodes,
        Tree.isIgnoredClass n.1 n.2 = false) ∧
      (analyse .compilationUnit 0 source).tree.children.map (fun T => (Deed.entries .methods T.deeds,
        T.nodes.any (·.1 = .classDeclaration))) = [(["A()".toList], true), ([], true)] := by
    rw [TokenStream.parse_eq_plain, analyse_tree_eq_plain]
    decide +kernel
  obtain ⟨hquiet, hkept, hparts⟩ := hfile
  change children.map _ = _ at hparts
  refine ⟨hquiet, fun hsame => ?_⟩
  clear_value source
  have hpairs : children.Pairwise fun T U => Deed.Shows true T.deeds → ¬ U.HasClass :=
    ((text_eq_flatMap_alone_iff true [] source hquiet hkept).1 hsame).2
  clear_value children
  obtain ⟨T, rest, rfl, hT, hrest⟩ := List.map_eq_cons_iff.1 hparts
  obtain ⟨U, rest, rfl, hU, -⟩ := List.map_eq_cons_iff.1 hrest
  rw [List.pairwise_cons] at hpairs
  obtain ⟨n, hn, hclass⟩ := List.any_eq_true.1 (Prod.mk.inj hU).2
  refine hpairs.1 U List.mem_cons_self ⟨.methods, rfl, ?_⟩ ⟨n, hn, by simpa using hclass⟩
  rw [(Prod.mk.inj hT).1]
  exact List.cons_ne_nil _ _

end JavaOutline
