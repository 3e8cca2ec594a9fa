import JavaOutline.Proofs.Outline.Deeds
import Mathlib.Algebra.Order.BigOperators.Group.List
import Mathlib.Algebra.Order.Group.Nat
import Mathlib.Algebra.Ring.Int.Defs

/-!
# What ignored classes leave behind

An ignored class does not raise the level at its beginning but lowers it at its end. This file
compares an outline that meets ignored classes with one that does the same deeds except for these
(`Outline.Lags`). The first one lags behind the second: its level is lower by the number of ignored
classes so far, and its members are some of those of the second, because a class may now stand on a
level where classes are ignored. Nothing of this can be seen until a class begins inside another
one, or a class ends that has members to list (`Deed.Disturbs`). From then on the first outline has
written less than the second (`Outline.performAll_lags`).
-/

namespace JavaOutline

/-- Are the members in the list written at the end of a class? -/
def Shelf.isShown (methodsOnly : Bool) : Shelf → Bool
  | .staticFields | .fields => !methodsOnly
  | .staticMethods | .methods => true

namespace Deed

/-- By how much the deed changes the number of open classes. -/
def weight : Deed → Int
  | .openClass _ _ _ => 1
  | .closeClass => -1
  | _ => 0

/-- The number of classes that are open after the deeds. -/
def depth (ds : List Deed) : Int := (ds.map weight).sum

@[simp] theorem depth_nil : depth [] = 0 := rfl

@[simp] theorem depth_append (ds es : List Deed) : depth (ds ++ es) = depth ds + depth es := by
  simp [depth]

@[simp] theorem depth_singleton (d : Deed) : depth [d] = d.weight := by
  simp [depth]

/-- Classes begin before they end, and all of them end. -/
def Balanced (ds : List Deed) : Prop := depth ds = 0 ∧ ∀ before, before <+: ds → 0 ≤ depth before

section
variable {ds es : List Deed}

theorem balanced_nil : Balanced [] := by
  refine ⟨rfl, fun before h => ?_⟩
  rw [List.prefix_nil.1 h]
  rfl

/-- A deed that begins and ends no class. -/
theorem balanced_singleton {d : Deed} (h : d.weight = 0) : Balanced [d] := by
  refine ⟨by rw [depth_singleton, h], fun before hbefore => ?_⟩
  rcases List.prefix_concat_iff.1 (show before <+: [] ++ [d] from hbefore) with rfl | hbefore
  · simp [h]
  · rw [List.prefix_nil.1 hbefore]
    rfl

theorem Balanced.append (hds : Balanced ds) (hes : Balanced es) : Balanced (ds ++ es) := by
  refine ⟨by rw [depth_append, hds.1, hes.1]; rfl, fun before h => ?_⟩
  rcases List.prefix_or_prefix_of_prefix h (List.prefix_append ds es) with hbefore | ⟨rest, rfl⟩
  · exact hds.2 before hbefore
  · rw [depth_append, hds.1, Int.zero_add]
    exact hes.2 rest ((List.prefix_append_right_inj ds).1 h)

/-- A class with all that is inside it. -/
theorem Balanced.ofClass (h : Balanced ds) (name extended implemented : List Char) :
    Balanced (.openClass name extended implemented :: ds ++ [.closeClass]) := by
  have hopen (es : List Deed) :
      depth (.openClass name extended implemented :: es) = 1 + depth es := rfl
  refine ⟨?_, fun before hbefore => ?_⟩
  · rw [List.cons_append, hopen, depth_append, h.1]
    rfl
  · cases before with
    | nil => exact Int.le_refl 0
    | cons d before =>
      obtain ⟨rfl, hrest⟩ := List.cons_prefix_cons.1 hbefore
      rw [hopen]
      rcases List.prefix_concat_iff.1 hrest with rfl | hrest
      · rw [depth_append, h.1]
        exact Int.le_refl 0
      · have hdepth := h.2 before hrest
        omega

end

/-- The members that the deed collects. -/
def members : Deed → List Member
  | .add members => members
  | _ => []

/-- What the deeds put into a list of members. -/
def entries (s : Shelf) (ds : List Deed) : List (List Char) :=
  ((ds.flatMap members).filter fun m => m.shelf = s).map Member.entry

@[simp] theorem entries_append (s : Shelf) (ds es : List Deed) :
    entries s (ds ++ es) = entries s ds ++ entries s es := by
  simp [entries]

/-- Would a class that ends after the deeds list any members? -/
def Shows (methodsOnly : Bool) (ds : List Deed) : Prop :=
  ∃ s : Shelf, s.isShown methodsOnly = true ∧ entries s ds ≠ []

/-- After the deeds `ds`, an ignored class among them, the deed `d` writes something at a level that
the ignored class has made too low: it begins a class inside another one, or it ends a class and
there are members to list. -/
def Disturbs (methodsOnly : Bool) (ds : List Deed) (d : Deed) : Prop :=
  .passIgnored ∈ ds ∧
    match d with
    | .openClass _ _ _ => 0 < depth ds
    | .closeClass => Shows methodsOnly ds
    | _ => False

/-- No deed is disturbed by the ignored classes before it. -/
def Undisturbed (methodsOnly : Bool) (ds : List Deed) : Prop :=
  ∀ before d, before ++ [d] <+: ds → ¬ Disturbs methodsOnly before d

variable {methodsOnly : Bool} {ds : List Deed} {d : Deed}

theorem undisturbed_nil : Undisturbed methodsOnly [] := by
  intro before d h
  simp at h

theorem undisturbed_concat :
    Undisturbed methodsOnly (ds ++ [d]) ↔
      Undisturbed methodsOnly ds ∧ ¬ Disturbs methodsOnly ds d := by
  constructor
  · intro h
    exact ⟨fun before e he => h before e (he.trans (List.prefix_append ds [d])),
      h ds d List.prefix_rfl⟩
  · rintro ⟨hds, hd⟩ before e he
    rcases List.prefix_concat_iff.1 he with he | he
    · obtain ⟨rfl, he⟩ := List.append_inj' he rfl
      obtain rfl : e = d := by simpa using he
      exact hd
    · exact hds before e he

end Deed

/-! ## What a deed does -/

namespace Outline

variable {methodsOnly : Bool} {o o' : Outline} {d : Deed}

/-- The members in a list. -/
def shelf (o : Outline) : Shelf → List (List Char)
  | .staticFields => o.staticFields
  | .fields => o.fields
  | .staticMethods => o.staticMethods
  | .methods => o.methods

/-- The lists that the end of a class writes, in order. -/
def sections (methodsOnly : Bool) : List (String × Shelf) :=
  [("Static fields:", .staticFields), ("Static methods:", .staticMethods), ("Fields:", .fields),
    ("Methods:", .methods)].filter fun entry => entry.2.isShown methodsOnly

/-- What the end of a class writes. -/
def closing (methodsOnly : Bool) (o : Outline) : List Char :=
  (sections methodsOnly).flatMap fun entry => sectionText o.level entry.1 (o.shelf entry.2)

/-- What the announcement of a package writes. -/
def announcement (o : Outline) (name : List Char) : List Char :=
  if o.packages.contains name then [] else "# Package ".toList ++ name ++ ['\n']

/-- What a deed writes. -/
def written (methodsOnly : Bool) (o : Outline) : Deed → List Char
  | .announce name => o.announcement name
  | .openClass name extended implemented =>
    indentedLine o.level ("Class ".toList ++ name ++ extended ++ implemented ++ [':'])
  | .closeClass => if o.ignores then [] else o.closing methodsOnly
  | .add _ | .passIgnored => []

/-- Collecting members changes nothing but the lists of members. -/
theorem foldl_addMember (ms : List Member) :
    (ms.foldl addMember o).level = o.level ∧ (ms.foldl addMember o).ignored = o.ignored ∧
      (ms.foldl addMember o).packages = o.packages ∧ (ms.foldl addMember o).text = o.text := by
  induction ms generalizing o with
  | nil => exact ⟨rfl, rfl, rfl, rfl⟩
  | cons m ms ih =>
    obtain ⟨hlevel, hignored, hpackages, htext⟩ := ih (o := o.addMember m)
    rw [List.foldl_cons, hlevel, hignored, hpackages, htext]
    obtain ⟨shelf, entry⟩ := m
    cases shelf <;> exact ⟨rfl, rfl, rfl, rfl⟩

/-- Collected members are put into their lists in order. -/
theorem shelf_foldl_addMember (s : Shelf) (ms : List Member) :
    (ms.foldl addMember o).shelf s =
      o.shelf s ++ (ms.filter fun m => m.shelf = s).map Member.entry := by
  induction ms generalizing o with
  | nil => simp
  | cons m ms ih =>
    have hmember : (o.addMember m).shelf s =
        o.shelf s ++ ([m].filter fun m => m.shelf = s).map Member.entry := by
      obtain ⟨shelf, entry⟩ := m
      cases shelf <;> cases s <;> simp [addMember, Outline.shelf]
    rw [List.foldl_cons, ih, hmember, List.append_assoc, ← List.map_append, ← List.filter_append]
    rfl

/-- A package changes nothing but the packages and the text. -/
theorem announce_eq (name : List Char) : o.announce name =
    { o with
      packages := if o.packages.contains name then o.packages else o.packages ++ [name]
      text := o.text ++ o.announcement name } := by
  unfold announce announcement
  cases o.packages.contains name with
  | true => simp only [if_true, List.append_nil]
  | false => rfl

/-- The end of a class changes nothing but the level and the text. -/
theorem leaveClass_eq : o.leaveClass methodsOnly =
    { o with
      level := o.level - 1
      text := o.text ++ if o.ignores then [] else o.closing methodsOnly } := by
  have hclosing : o.closing methodsOnly =
      (if methodsOnly then [] else sectionText o.level "Static fields:" o.staticFields) ++
        sectionText o.level "Static methods:" o.staticMethods ++
        (if methodsOnly then [] else sectionText o.level "Fields:" o.fields) ++
        sectionText o.level "Methods:" o.methods := by
    cases methodsOnly <;> simp [closing, sections, Shelf.isShown, shelf]
  unfold leaveClass
  rw [hclosing]
  cases o.ignores with
  | true => simp only [if_true, List.append_nil]
  | false => rfl

theorem perform_level : (o.perform methodsOnly d).level =
    o.level + d.weight - ([d].count .passIgnored : Nat) := by
  cases d with
  | announce name => simp [perform, announce_eq, Deed.weight]
  | openClass => simp [perform, Deed.weight, writeClass, setIgnored]
  | closeClass => simp [perform, Deed.weight, leaveClass_eq, Int.sub_eq_add_neg]
  | passIgnored => simp [perform, Deed.weight]
  | add ms =>
    simp only [perform]
    split <;> simp [Deed.weight, (foldl_addMember ms).1]

/-- A deed puts the members it collects into their lists unless classes are ignored. -/
theorem perform_shelf (s : Shelf) : (o.perform methodsOnly d).shelf s =
    o.shelf s ++ if o.ignores then [] else Deed.entries s [d] := by
  cases d with
  | add ms =>
    simp only [perform]
    split
    · simp
    · rw [shelf_foldl_addMember]
      simp [Deed.entries, Deed.members]
  | announce name =>
    cases s <;> simp [perform, announce_eq, shelf, Deed.entries,
      Deed.members]
  | closeClass => cases s <;> simp [perform, leaveClass_eq, shelf, Deed.entries, Deed.members]
  | openClass => cases s <;> simp [perform, writeClass, setIgnored, write, shelf, Deed.entries,
      Deed.members]
  | passIgnored => cases s <;> simp [perform, setIgnored, shelf, Deed.entries, Deed.members]

theorem perform_text :
    (o.perform methodsOnly d).text = o.text ++ o.written methodsOnly d := by
  cases d with
  | announce name => rw [perform, announce_eq, written]
  | openClass => rfl
  | closeClass => rw [perform, leaveClass_eq, written]
  | passIgnored => simp [perform, setIgnored, written]
  | add ms =>
    simp only [perform]
    split <;> simp [written, (foldl_addMember ms).2.2.2]

/-- Which packages are announced depends on nothing but those announced before. -/
theorem perform_packages (h : o.packages = o'.packages) :
    (o.perform methodsOnly d).packages = (o'.perform methodsOnly d).packages := by
  cases d with
  | announce name => simp only [perform, announce_eq, h]
  | openClass => exact h
  | closeClass => simpa [perform, leaveClass_eq] using h
  | passIgnored => exact h
  | add ms =>
    simp only [perform]
    split <;> split <;> simp [(foldl_addMember ms).2.2.1, h]

/-- Without ignored classes no level is ignored. -/
theorem perform_ignored (h : o.ignored = []) (hd : d ≠ .passIgnored) :
    (o.perform methodsOnly d).ignored = [] := by
  cases d with
  | announce name => simpa [perform, announce_eq] using h
  | openClass => simp [perform, writeClass, write, setIgnored, h]
  | closeClass => simpa [perform, leaveClass_eq] using h
  | passIgnored => exact absurd rfl hd
  | add ms =>
    simp only [perform]
    split <;> simp [(foldl_addMember ms).2.1, h]

/-! ## Texts at different levels -/

section
variable {level level' : Int} {ms ms' : List (List Char)}

theorem length_indentedLine (level : Int) (s : List Char) :
    (indentedLine level s).length = (2 * level).toNat + s.length + 1 := by
  simp [indentedLine, Nat.add_assoc]

/-- Some of the members take no more room than all of them on a higher level. -/
theorem length_lines_le (hlevel : level ≤ level') (h : ms.Sublist ms') :
    (ms.flatMap fun m => indentedLine level (' ' :: ' ' :: m)).length ≤
      (ms'.flatMap fun m => indentedLine level' (' ' :: ' ' :: m)).length := by
  induction h with
  | slnil => exact Nat.le_refl _
  | cons m _ ih =>
    rw [List.flatMap_cons, List.length_append]
    omega
  | cons_cons m _ ih =>
    rw [List.flatMap_cons, List.flatMap_cons, List.length_append, List.length_append,
      length_indentedLine, length_indentedLine]
    omega

theorem length_sectionText {title : String} (h : ms ≠ []) :
    (sectionText level title ms).length = (2 * level).toNat + title.toList.length + 1 +
      (ms.flatMap fun m => indentedLine level (' ' :: ' ' :: m)).length := by
  rw [sectionText, if_neg (by simpa using h), List.length_append, length_indentedLine]

/-- Some of the members take less room than all of them on a higher level. -/
theorem length_sectionText_lt {title : String} (hlevel : level < level') (hpos : 0 < level')
    (h : ms.Sublist ms') (hne : ms' ≠ []) :
    (sectionText level title ms).length < (sectionText level' title ms').length := by
  rw [length_sectionText hne]
  by_cases hms : ms = []
  · subst hms
    exact Nat.lt_of_lt_of_le (Nat.succ_pos _) (Nat.le_add_right _ _)
  · have hlines := length_lines_le (Int.le_of_lt hlevel) h
    rw [length_sectionText hms]
    omega

end

theorem isShown_of_mem_sections {entry : String × Shelf} (h : entry ∈ sections methodsOnly) :
    entry.2.isShown methodsOnly = true :=
  (List.mem_filter.1 h).2

theorem exists_mem_sections {s : Shelf} (h : s.isShown methodsOnly = true) :
    ∃ title, (title, s) ∈ sections methodsOnly := by
  cases s <;> cases methodsOnly <;> simp_all [sections, Shelf.isShown]

/-- Without members to list the end of a class writes nothing. -/
theorem closing_eq_nil (h : ∀ s : Shelf, s.isShown methodsOnly = true → o.shelf s = []) :
    o.closing methodsOnly = [] := by
  refine List.flatMap_eq_nil_iff.2 fun entry hentry => ?_
  rw [h entry.2 (isShown_of_mem_sections hentry)]
  rfl

/-- On a lower level and with fewer members the end of a class writes less, if it is to write
anything. -/
theorem length_closing_lt (hlevel : o.level < o'.level) (hpos : 0 < o'.level)
    (hshelf : ∀ s, (o.shelf s).Sublist (o'.shelf s))
    (hshown : ∃ s : Shelf, s.isShown methodsOnly = true ∧ o'.shelf s ≠ []) :
    (o.closing methodsOnly).length < (o'.closing methodsOnly).length := by
  obtain ⟨s, hs, hne⟩ := hshown
  obtain ⟨title, hmem⟩ := exists_mem_sections hs
  unfold closing
  rw [List.length_flatMap, List.length_flatMap]
  refine List.sum_lt_sum _ _ (fun entry _ => ?_) ⟨_, hmem, ?_⟩
  · by_cases hentry : o'.shelf entry.2 = []
    · have hnil : o.shelf entry.2 = [] := List.sublist_nil.1 (hentry ▸ hshelf entry.2)
      rw [hentry, hnil]
      exact Nat.le_refl _
    · exact (length_sectionText_lt hlevel hpos (hshelf entry.2) hentry).le
  · exact length_sectionText_lt hlevel hpos (hshelf s) hne

/-! ## Two outlines side by side -/

/-- After the deeds `ds` the outline `o`, which has met the ignored classes, lags behind the outline
`o'`, which has not. -/
structure Lags (methodsOnly : Bool) (ds : List Deed) (o o' : Outline) : Prop where
  /-- Without ignored classes the level is the number of open classes. -/
  depth : o'.level = Deed.depth ds
  /-- Without ignored classes no level is ignored. -/
  ignored : o'.ignored = []
  /-- Without ignored classes all members are collected. -/
  entries : ∀ s, o'.shelf s = Deed.entries s ds
  level : o.level = o'.level - (ds.count .passIgnored : Nat)
  shelf : ∀ s, (o.shelf s).Sublist (o'.shelf s)
  packages : o.packages = o'.packages
  eq_of_notMem : .passIgnored ∉ ds → o = o'
  text : Deed.Undisturbed methodsOnly ds ∧ o.text = o'.text ∨
    ¬ Deed.Undisturbed methodsOnly ds ∧ o.text.length < o'.text.length

namespace Lags

variable {ds : List Deed}

theorem level_lt (h : Lags methodsOnly ds o o') (hpast : .passIgnored ∈ ds) : o.level < o'.level := by
  have hcount := List.count_pos_iff.2 hpast
  have hlevel := h.level
  omega

theorem ignores_eq_false (h : Lags methodsOnly ds o o') : o'.ignores = false := by
  rw [ignores, h.ignored]
  rfl

/-- A class that begins is written the same unless it is inside another one. -/
theorem written_openClass (h : Lags methodsOnly ds o o') (hdepth : 0 ≤ Deed.depth ds)
    (hpast : .passIgnored ∈ ds) (name extended implemented : List Char) :
    0 < Deed.depth ds ∧ (o.written methodsOnly (.openClass name extended implemented)).length <
        (o'.written methodsOnly (.openClass name extended implemented)).length ∨
      ¬ 0 < Deed.depth ds ∧ o.written methodsOnly (.openClass name extended implemented) =
        o'.written methodsOnly (.openClass name extended implemented) := by
  have hlevel := h.level_lt hpast
  have hdepth' := h.depth
  by_cases hpos : 0 < Deed.depth ds
  · refine .inl ⟨hpos, ?_⟩
    rw [written, written, length_indentedLine, length_indentedLine]
    omega
  · refine .inr ⟨hpos, ?_⟩
    have hleft : (2 * o.level).toNat = 0 := by omega
    have hright : (2 * o'.level).toNat = 0 := by omega
    rw [written, written, indentedLine, indentedLine, hleft, hright]

/-- A class that ends is written the same unless there are members to list. -/
theorem written_closeClass (h : Lags methodsOnly ds o o') (hdepth : 0 < Deed.depth ds)
    (hpast : .passIgnored ∈ ds) :
    Deed.Shows methodsOnly ds ∧ (o.written methodsOnly .closeClass).length <
        (o'.written methodsOnly .closeClass).length ∨
      ¬ Deed.Shows methodsOnly ds ∧
        o.written methodsOnly .closeClass = o'.written methodsOnly .closeClass := by
  have hpos : 0 < o'.level := by
    rw [h.depth]
    exact hdepth
  rw [written, written, h.ignores_eq_false]
  by_cases hshows : Deed.Shows methodsOnly ds
  · have hclosing : (o.closing methodsOnly).length < (o'.closing methodsOnly).length := by
      obtain ⟨s, hs, hne⟩ := hshows
      exact length_closing_lt (h.level_lt hpast) hpos h.shelf ⟨s, hs, h.entries s ▸ hne⟩
    refine .inl ⟨hshows, ?_⟩
    cases o.ignores with
    | true => exact Nat.zero_lt_of_lt hclosing
    | false => exact hclosing
  · have hright : ∀ s : Shelf, s.isShown methodsOnly = true → o'.shelf s = [] := by
      intro s hs
      rw [h.entries]
      exact not_not.1 fun hne => hshows ⟨s, hs, hne⟩
    have hleft : ∀ s : Shelf, s.isShown methodsOnly = true → o.shelf s = [] := by
      intro s hs
      exact List.sublist_nil.1 (hright s hs ▸ h.shelf s)
    refine .inr ⟨hshows, ?_⟩
    rw [closing_eq_nil hleft, closing_eq_nil hright]
    simp

/-- A deed writes the same unless it is disturbed; then it writes less. -/
theorem written (h : Lags methodsOnly ds o o') (hdepth : 0 ≤ Deed.depth ds)
    (hdepth' : 0 ≤ Deed.depth (ds ++ [d])) (hd : d ≠ .passIgnored) :
    Deed.Disturbs methodsOnly ds d ∧
        (o.written methodsOnly d).length < (o'.written methodsOnly d).length ∨
      ¬ Deed.Disturbs methodsOnly ds d ∧ o.written methodsOnly d = o'.written methodsOnly d := by
  by_cases hpast : .passIgnored ∈ ds
  · cases d with
    | announce name =>
      refine .inr ⟨fun hdisturbs => hdisturbs.2, ?_⟩
      rw [Outline.written, Outline.written, announcement, announcement, h.packages]
    | openClass name extended implemented =>
      rcases h.written_openClass hdepth hpast name extended implemented with ⟨hopen, hlt⟩ | ⟨hopen, heq⟩
      · exact .inl ⟨⟨hpast, hopen⟩, hlt⟩
      · exact .inr ⟨fun hdisturbs => hopen hdisturbs.2, heq⟩
    | closeClass =>
      have hpos : 0 < Deed.depth ds := by
        rw [Deed.depth_append, Deed.depth_singleton, Deed.weight] at hdepth'
        omega
      rcases h.written_closeClass hpos hpast with ⟨hshows, hlt⟩ | ⟨hshows, heq⟩
      · exact .inl ⟨⟨hpast, hshows⟩, hlt⟩
      · exact .inr ⟨fun hdisturbs => hshows hdisturbs.2, heq⟩
    | add ms => exact .inr ⟨fun hdisturbs => hdisturbs.2, rfl⟩
    | passIgnored => exact absurd rfl hd
  · refine .inr ⟨fun hdisturbs => hpast hdisturbs.1, ?_⟩
    rw [h.eq_of_notMem hpast]

/-- An ignored class that only one of the outlines meets. -/
theorem pass (h : Lags methodsOnly ds o o') :
    Lags methodsOnly (ds ++ [.passIgnored]) (o.perform methodsOnly .passIgnored) o' where
  depth := by simp [h.depth, Deed.weight]
  ignored := h.ignored
  entries s := by simp [h.entries, Deed.entries, Deed.members]
  level := by
    have hlevel := h.level
    have hweight : Deed.weight .passIgnored = 0 := rfl
    rw [perform_level, List.count_append, hweight]
    omega
  shelf s := by
    rw [perform_shelf]
    simpa [Deed.entries, Deed.members] using h.shelf s
  packages := h.packages
  eq_of_notMem hpast := absurd (by simp) hpast
  text := by
    have hdisturbs : ¬ Deed.Disturbs methodsOnly ds .passIgnored := fun hdisturbs => hdisturbs.2
    rw [Deed.undisturbed_concat, perform_text, Outline.written, List.append_nil,
      and_iff_left hdisturbs]
    exact h.text

/-- A deed that both outlines do. -/
theorem perform (h : Lags methodsOnly ds o o') (hdepth : 0 ≤ Deed.depth ds)
    (hdepth' : 0 ≤ Deed.depth (ds ++ [d])) (hd : d ≠ .passIgnored) :
    Lags methodsOnly (ds ++ [d]) (o.perform methodsOnly d) (o'.perform methodsOnly d) where
  depth := by
    rw [perform_level, h.depth]
    simp [hd]
  ignored := perform_ignored h.ignored hd
  entries s := by
    rw [perform_shelf, h.ignores_eq_false, h.entries, Deed.entries_append]
    rfl
  level := by
    have hlevel := h.level
    rw [perform_level, perform_level, List.count_append]
    simp only [List.count_singleton, beq_iff_eq, hd, if_false]
    omega
  shelf s := by
    rw [perform_shelf, perform_shelf, h.ignores_eq_false]
    refine (h.shelf s).append ?_
    cases o.ignores with
    | true => exact List.nil_sublist _
    | false => exact List.Sublist.refl _
  packages := perform_packages h.packages
  eq_of_notMem hpast := by
    rw [h.eq_of_notMem fun hmem => hpast (List.mem_append_left _ hmem)]
  text := by
    rw [Deed.undisturbed_concat, perform_text, perform_text]
    rcases h.text with ⟨hquiet, htext⟩ | ⟨hloud, htext⟩
    · rcases h.written hdepth hdepth' hd with ⟨hdisturbs, hlt⟩ | ⟨hdisturbs, heq⟩
      · refine .inr ⟨fun hboth => hboth.2 hdisturbs, ?_⟩
        rw [htext, List.length_append, List.length_append]
        omega
      · exact .inl ⟨⟨hquiet, hdisturbs⟩, by rw [htext, heq]⟩
    · have hle : (o.written methodsOnly d).length ≤ (o'.written methodsOnly d).length := by
        rcases h.written hdepth hdepth' hd with ⟨-, hlt⟩ | ⟨-, heq⟩
        · exact hlt.le
        · rw [heq]
      refine .inr ⟨fun hboth => hloud hboth.1, ?_⟩
      rw [List.length_append, List.length_append]
      omega

end Lags

/-- An outline that does all deeds lags behind one that passes over the ignored classes. -/
theorem performAll_lags (packages : List (List Char)) (ds : List Deed)
    (h : ∀ before, before <+: ds → 0 ≤ Deed.depth before) :
    Lags methodsOnly ds ((empty packages).performAll methodsOnly ds)
      ((empty packages).performAll methodsOnly (ds.filter (· ≠ .passIgnored))) := by
  induction ds using List.reverseRecOn with
  | nil =>
    exact ⟨rfl, rfl, fun s => by cases s <;> rfl, rfl, fun s => List.Sublist.refl _, rfl,
      fun _ => rfl, .inl ⟨Deed.undisturbed_nil, rfl⟩⟩
  | append_singleton ds d ih =>
    have hds := ih fun before hbefore => h before (hbefore.trans (List.prefix_append ds [d]))
    rw [performAll_append, List.filter_append, performAll_append]
    by_cases hd : d = .passIgnored
    · subst hd
      exact hds.pass
    · have hfilter : [d].filter (· ≠ .passIgnored) = [d] := by simp [hd]
      rw [hfilter]
      exact hds.perform (h ds (List.prefix_append ds [d])) (h _ List.prefix_rfl) hd

end Outline

end JavaOutline
