import JavaOutline.Proofs.Lexer.LineBreaks
import JavaOutline.Proofs.Outline.Listed

/-!
# The lines of a summary

An outline is written line by line (`Outline.lines`): the line of a package, the first line of a
class, the title of a list of members, or a member. What a line says of a type is the text of the
type with nothing between its tokens, and a type may carry annotations with any expressions in them.
So a line is not always one line of the text: if a type that it spells out has a text block in it,
then the line breaks there, and this is the only way (`Tree.Writes.hasLineBreak_iff`). The lines of a
summary are those that have been written exactly if this happens nowhere
(`line_breaks_from_text_blocks`).
-/

namespace JavaOutline

/-! ## Texts -/

theorem hasLineBreak_flatMap {α : Type} {f : α → List Char} {l : List α} :
    HasLineBreak (l.flatMap f) ↔ ∃ a ∈ l, HasLineBreak (f a) := by
  induction l with
  | nil => simp
  | cons a l ih => simp [ih]

/-- A text that is moved to the right. -/
def indented (level : Int) (s : List Char) : List Char := List.replicate (2 * level).toNat ' ' ++ s

/-- The lines one after the other, each with a line feed at its end. -/
def endLines (lines : List (List Char)) : List Char := lines.flatMap (· ++ ['\n'])

@[simp] theorem endLines_nil : endLines [] = [] := rfl

@[simp] theorem endLines_append (ls ms : List (List Char)) :
    endLines (ls ++ ms) = endLines ls ++ endLines ms := List.flatMap_append

theorem endLines_flatMap {α : Type} (f : α → List (List Char)) (l : List α) :
    endLines (l.flatMap f) = l.flatMap fun a => endLines (f a) := List.flatMap_assoc

/-- A text is broken at the ends of its lines, and wherever else a line breaks. -/
theorem splitOnP_endLines (lines : List (List Char)) :
    (endLines lines).splitOnP isLineBreak =
      lines.flatMap (List.splitOnP isLineBreak) ++ [[]] := by
  induction lines with
  | nil => rfl
  | cons line lines ih =>
    have hcons : endLines (line :: lines) = line ++ '\n' :: endLines lines := by simp [endLines]
    rw [hcons, List.splitOnP_append_cons _ _ rfl, ih, List.flatMap_cons, List.append_assoc]

/-- Between its line breaks a text has none. -/
theorem not_hasLineBreak_of_mem_splitOnP {s piece : List Char}
    (h : piece ∈ s.splitOnP isLineBreak) : ¬ HasLineBreak piece := by
  induction s generalizing piece with
  | nil =>
    obtain rfl : piece = [] := by simpa using h
    exact not_hasLineBreak_nil
  | cons c s ih =>
    rw [List.splitOnP_cons_eq_if_modifyHead] at h
    split at h
    · rcases List.mem_cons.1 h with rfl | h
      · exact not_hasLineBreak_nil
      · exact ih h
    · rename_i hc
      cases hsplit : s.splitOnP isLineBreak with
      | nil => exact absurd hsplit (List.splitOnP_ne_nil _ _)
      | cons first rest =>
        rw [hsplit, List.modifyHead_cons] at h
        rw [hsplit] at ih
        rcases List.mem_cons.1 h with rfl | h
        · simpa [hc] using ih List.mem_cons_self
        · exact ih (List.mem_cons_of_mem first h)

/-- The lines of a text are the lines that it was made of exactly if none of these breaks. -/
theorem splitOnP_endLines_eq_iff {lines : List (List Char)} :
    (endLines lines).splitOnP isLineBreak = lines ++ [[]] ↔ ∀ line ∈ lines, ¬ HasLineBreak line := by
  constructor
  · intro h line hline
    exact not_hasLineBreak_of_mem_splitOnP (h ▸ List.mem_append_left _ hline)
  · intro h
    have hwhole : ∀ line ∈ lines, line.splitOnP isLineBreak = [line] := fun line hline =>
      List.splitOnP_eq_singleton (not_hasLineBreak_iff.1 (h line hline))
    rw [splitOnP_endLines, List.flatMap_congr hwhole, List.flatMap_singleton']

/-! ## Trees -/

namespace Tree

/-- One of the tokens of the tree is a text block. -/
def HasTextBlock (t : Tree Token) : Prop := ∃ a ∈ t.leaves, a.kind = .textBlock

/-- The tree is a derivation, and its tokens have line breaks as the lexical grammar wants it. -/
structure Genuine (t : Tree Token) : Prop where
  derives : t.Derives Token.kind
  tokens : ∀ a ∈ t.leaves, (HasLineBreak a.text ↔ a.kind = .textBlock)

mutual

/-- The text of a tree that no error recovery has touched is that of its tokens. -/
theorem Intact.text : ∀ {t : Tree Token}, t.Intact → t.text = t.leaves.flatMap Token.text
  | .token _ a, _ => (List.flatMap_singleton Token.text a).symm
  | .skipped _, h | .missing _, h => h.elim
  | .node _ _ _, h => IntactAll.textAll h

/-- `Intact.text` for several trees. -/
theorem IntactAll.textAll : ∀ {ts : List (Tree Token)}, IntactAll ts →
    textAll ts = (leavesAll ts).flatMap Token.text
  | [], _ => rfl
  | _ :: _, h => by
    rw [Tree.textAll, Intact.text h.1, IntactAll.textAll h.2, leavesAll_cons, List.flatMap_append]

end

theorem mem_leavesAll {ts : List (Tree Token)} {a : Token} :
    a ∈ leavesAll ts ↔ ∃ t ∈ ts, a ∈ t.leaves := by
  induction ts with
  | nil => simp
  | cons t ts ih => simp [ih]

mutual

/-- The leaves below a node of a tree are leaves of the tree. -/
theorem mem_leaves_of_mem_nodes : ∀ {t : Tree Token} {n : Rule × List (Tree Token)}, n ∈ t.nodes →
    ∀ a ∈ leavesAll n.2, a ∈ t.leaves
  | .token _ _, _, hn | .skipped _, _, hn | .missing _, _, hn => by simp [nodes] at hn
  | .node _ _ children, n, hn => by
    rcases List.mem_cons.1 hn with rfl | hn
    · exact fun _ ha => ha
    · exact mem_leavesAll_of_mem_nodesAll hn

/-- `mem_leaves_of_mem_nodes` for several trees. -/
theorem mem_leavesAll_of_mem_nodesAll : ∀ {ts : List (Tree Token)} {n : Rule × List (Tree Token)},
    n ∈ nodesAll ts → ∀ a ∈ leavesAll n.2, a ∈ leavesAll ts
  | [], _, hn => by simp [nodesAll] at hn
  | t :: ts, n, hn => fun a ha => by
    rcases List.mem_append.1 hn with hn | hn
    · exact List.mem_append_left _ (mem_leaves_of_mem_nodes hn a ha)
    · exact List.mem_append_right _ (mem_leavesAll_of_mem_nodesAll hn a ha)

end

namespace Genuine

variable {t c : Tree Token}

theorem hasLineBreak_text (h : t.Genuine) : HasLineBreak t.text ↔ t.HasTextBlock := by
  rw [h.derives.intact.text, hasLineBreak_flatMap]
  exact exists_congr fun a => and_congr_right fun ha => h.tokens a ha

theorem of_mem_nodes (h : t.Genuine) {n : Rule × List (Tree Token)} (hn : n ∈ t.nodes) :
    ∀ c ∈ n.2, c.Genuine := by
  intro c hc
  refine ⟨(derivesAll_iff _).1 (h.derives.of_mem_nodes n hn).2 c hc, fun a ha => h.tokens a ?_⟩
  exact mem_leaves_of_mem_nodes hn a (mem_leavesAll.2 ⟨c, hc, ha⟩)

theorem children (h : t.Genuine) : ∀ c ∈ t.children, c.Genuine := by
  cases t with
  | node role r cs => exact h.of_mem_nodes (n := (r, cs)) List.mem_cons_self
  | token | skipped | missing => nofun

end Genuine

/-- A file without complaints has a genuine tree. -/
theorem genuine_of_no_complaints {source : List Char}
    (h : ((TokenStream.ofSource source).parse .compilationUnit 0).complaints = []) :
    (analyse .compilationUnit 0 source).tree.Genuine := by
  refine ⟨(analyse_derives h).1, ?_⟩
  rw [analyse_tree, leaves_map]
  intro a ha
  obtain ⟨i, -, rfl⟩ := List.mem_map.1 ha
  exact TokenStream.hasLineBreak_get source i

/-! ## Names and types -/

/-- The text has a line break exactly if one of the trees has a text block. -/
def BreaksWith (s : List Char) (ts : List (Tree Token)) : Prop :=
  HasLineBreak s ↔ ∃ t ∈ ts, t.HasTextBlock

section
variable {s s' : List Char} {ts us : List (Tree Token)}

theorem breaksWith_nil : BreaksWith s [] ↔ ¬ HasLineBreak s := by
  simp [BreaksWith]

theorem BreaksWith.append (hs : BreaksWith s ts) (hs' : BreaksWith s' us) :
    BreaksWith (s ++ s') (ts ++ us) := by
  unfold BreaksWith at *
  simp only [hasLineBreak_append, hs, hs', List.mem_append, or_and_right, exists_or]

/-- What has no line break may stand in front. -/
theorem BreaksWith.after (hs' : BreaksWith s' us) (hs : ¬ HasLineBreak s) :
    BreaksWith (s ++ s') us :=
  (breaksWith_nil.2 hs).append hs'

/-- What has no line break may stand behind. -/
theorem BreaksWith.before (hs : BreaksWith s ts) (hs' : ¬ HasLineBreak s') :
    BreaksWith (s ++ s') ts :=
  List.append_nil ts ▸ hs.append (breaksWith_nil.2 hs')

theorem breaksWith_commaSeparated {α : Type} {f : α → List Char} {g : α → List (Tree Token)}
    (l : List α) (h : ∀ a ∈ l, BreaksWith (f a) (g a)) :
    BreaksWith (commaSeparated (l.map f)) (l.flatMap g) := by
  have hcomma : ¬ HasLineBreak ", ".toList := by decide
  unfold commaSeparated
  generalize ", ".toList = comma at hcomma
  induction l with
  | nil => exact breaksWith_nil.2 not_hasLineBreak_nil
  | cons a l ih =>
    have ha := h a List.mem_cons_self
    have hl := ih fun b hb => h b (List.mem_cons_of_mem a hb)
    cases l with
    | nil => simpa using ha
    | cons b l =>
      rw [List.map_cons, List.map_cons, List.intercalate_cons_cons, List.flatMap_cons]
      exact (ha.before hcomma).append hl

end

/-- The rules whose texts are names. -/
def isName : Rule → Bool
  | .identifier | .variableDeclaratorId | .qualifiedName => true
  | _ => false

/-- There are no text blocks in names. -/
theorem isName_body (r : Rule) (h : isName r = true) :
    r.body.within (fun k => k ≠ .textBlock) isName = true := by
  cases r with
  | identifier | variableDeclaratorId | qualifiedName => decide
  | _ => cases h

section
variable {r : Rule} {children : List (Tree Token)}

/-- What is asked for by a rule breaks with its text blocks. -/
theorem breaksWith_textOf (h : ∀ c ∈ children, c.Genuine) :
    BreaksWith (textOf r children) (child? r children).toList := by
  rw [textOf]
  cases hchild : child? r children with
  | none => exact breaksWith_nil.2 not_hasLineBreak_nil
  | some t =>
    have ht : t ∈ children := List.mem_of_mem_filter (mem_select_of_child? hchild)
    simpa [BreaksWith] using (h t ht).hasLineBreak_text

/-- A name is all on one line. -/
theorem not_hasLineBreak_name (hr : isName r = true) (h : ∀ c ∈ children, c.Genuine) :
    ¬ HasLineBreak (textOf r children) := by
  intro hbreak
  obtain ⟨t, ht, a, ha, hkind⟩ := (breaksWith_textOf h).1 hbreak
  obtain ⟨hmem, hisA⟩ := List.mem_filter.1 (mem_select_of_child? (Option.mem_toList.1 ht))
  have hsymbol : t.symbol Token.kind = .rule r := (isA_iff _ t).1 hisA
  have hleaf := (h t hmem).derives.leaves_within isName_body (by rw [hsymbol]; exact hr) a ha
  simp [hkind] at hleaf

/-- The types that the first line of a class spells out. -/
def superTypes (children : List (Tree Token)) : List (Tree Token) :=
  (if (select (.token .kwExtends) children).isEmpty then []
    else (child? .typeType children).toList) ++
  if (select (.token .kwImplements) children).isEmpty then []
  else select (.rule .typeList) children

/-- The types of the parameters that are listed. -/
def parameterTypes (children : List (Tree Token)) : List (Tree Token) :=
  (listedParameters children).flatMap fun p => (child? .typeType p.children).toList

/-- The types that the members of a declaration spell out. -/
def memberTypes (r : Rule) (children : List (Tree Token)) : List (Tree Token) :=
  match r with
  | .fieldDeclaration => (child? .typeType children).toList
  | .methodDeclaration => (child? .typeTypeOrVoid children).toList ++ parameterTypes children
  | .constructorDeclaration => parameterTypes children
  | _ => []

/-- What a class extends breaks with the type. -/
theorem breaksWith_extended (h : ∀ c ∈ children, c.Genuine) :
    BreaksWith (match extended? children with
      | none => []
      | some type => " extends ".toList ++ type)
      (if (select (.token .kwExtends) children).isEmpty then []
        else (child? .typeType children).toList) := by
  unfold extended?
  by_cases hextends : (select (.token .kwExtends) children).isEmpty = true
  · rw [if_pos hextends, if_pos hextends]
    exact breaksWith_nil.2 not_hasLineBreak_nil
  · rw [if_neg hextends, if_neg hextends]
    have htype := breaksWith_textOf (r := .typeType) h
    rw [textOf] at htype
    cases hchild : child? .typeType children with
    | none => exact breaksWith_nil.2 not_hasLineBreak_nil
    | some t =>
      rw [hchild] at htype
      exact htype.after (by decide)

/-- What a class implements breaks with its lists of types. -/
theorem breaksWith_implemented (h : ∀ c ∈ children, c.Genuine) :
    BreaksWith (if (select (.token .kwImplements) children).isEmpty then []
      else " implements ".toList ++
        commaSeparated ((select (.rule .typeList) children).map text))
      (if (select (.token .kwImplements) children).isEmpty then []
        else select (.rule .typeList) children) := by
  split
  · exact breaksWith_nil.2 not_hasLineBreak_nil
  · have htypes := breaksWith_commaSeparated (g := fun t => [t]) (select (.rule .typeList) children)
      fun t ht => by simpa [BreaksWith] using (h t (List.mem_of_mem_filter ht)).hasLineBreak_text
    rw [List.flatMap_singleton'] at htypes
    exact htypes.after (by decide)

/-- The first line of a class breaks with the types it spells out. -/
theorem breaksWith_heading (h : ∀ c ∈ children, c.Genuine) :
    BreaksWith (heading children) (superTypes children) := by
  have hname : ¬ HasLineBreak ("Class ".toList ++ textOf .identifier children) := by
    rw [hasLineBreak_append, or_iff_right (by decide)]
    exact not_hasLineBreak_name rfl h
  exact (((breaksWith_extended h).after hname).append (breaksWith_implemented h)).before (by decide)

theorem genuine_of_mem_listedParameters (h : ∀ c ∈ children, c.Genuine) {p : Tree Token}
    (hp : p ∈ listedParameters children) : p.Genuine := by
  unfold listedParameters at hp
  split at hp
  · cases hp
  · rename_i list hlist
    obtain ⟨ps, hps, hlist⟩ := Option.bind_eq_some_iff.1 hlist
    have hps := h ps (List.mem_of_mem_filter (mem_select_of_child? hps))
    have hlist := hps.children list (List.mem_of_mem_filter (mem_select_of_child? hlist))
    exact hlist.children p (List.mem_of_mem_filter hp)

/-- A type with a name behind it breaks with the type. -/
theorem BreaksWith.beforeName {s name : List Char} {ts : List (Tree Token)} (hs : BreaksWith s ts)
    (hname : ¬ HasLineBreak name) : BreaksWith (s ++ ' ' :: name) ts := by
  refine hs.before ?_
  rw [hasLineBreak_cons, or_iff_right (by decide)]
  exact hname

/-- A signature breaks with what stands before the parameters and with their types. -/
theorem breaksWith_signatureOf (h : ∀ c ∈ children, c.Genuine) {ts : List (Tree Token)}
    (hhead : BreaksWith (signatureHead r children) ts) :
    BreaksWith (signatureOf r children) (ts ++ parameterTypes children) := by
  have hitem : ∀ p ∈ listedParameters children,
      BreaksWith (parameterItem p) (child? .typeType p.children).toList := fun p hp =>
    have hp := (genuine_of_mem_listedParameters h hp).children
    (breaksWith_textOf hp).beforeName (not_hasLineBreak_name rfl hp)
  have hitems := (breaksWith_commaSeparated _ hitem).after (s := ['(']) (by decide)
  exact (hhead.append hitems).before (by decide)

theorem not_hasLineBreak_of_mem_fieldNames (h : ∀ c ∈ children, c.Genuine) {name : List Char}
    (hname : name ∈ fieldNames children) : ¬ HasLineBreak name := by
  unfold fieldNames at hname
  split at hname
  · cases hname
  · rename_i list hlist
    obtain ⟨d, hd, rfl⟩ := List.mem_map.1 hname
    have hlist := h list (List.mem_of_mem_filter (mem_select_of_child? hlist))
    exact not_hasLineBreak_name rfl (hlist.children d (List.mem_of_mem_filter hd)).children

/-- A member breaks with the types it spells out. -/
theorem breaksWith_entry (h : ∀ c ∈ children, c.Genuine) {m : Member} (hm : m ∈ listed r children) :
    BreaksWith m.entry (memberTypes r children) := by
  have hname : ¬ HasLineBreak (textOf .identifier children) := not_hasLineBreak_name rfl h
  unfold listed at hm
  split at hm
  · obtain ⟨name, hmem, rfl⟩ := List.mem_map.1 hm
    exact (breaksWith_textOf h).beforeName
      (not_hasLineBreak_of_mem_fieldNames h (List.mem_of_mem_filter hmem))
  · dsimp only at hm
    split at hm
    · cases hm
    · split at hm
      · cases hm
      · obtain rfl := List.mem_singleton.1 hm
        exact breaksWith_signatureOf h ((breaksWith_textOf h).beforeName hname)
  · obtain rfl := List.mem_singleton.1 hm
    have hhead : signatureHead .constructorDeclaration children = textOf .identifier children :=
      if_neg nofun
    exact breaksWith_signatureOf h (breaksWith_nil.2 (hhead ▸ hname))
  · cases hm

end

/-! ## Lines -/

/-- A line that is written for a part of the tree, with the types that it spells out. -/
inductive Writes (tree : Tree Token) : List (Tree Token) → List Char → Prop where
  | package {children : List (Tree Token)} (h : (.packageDeclaration, children) ∈ tree.nodes) :
      tree.Writes [] ("# Package ".toList ++ textOf .qualifiedName children)
  | heading {children : List (Tree Token)} (level : Int)
      (h : (.classDeclaration, children) ∈ tree.nodes) :
      tree.Writes (superTypes children) (indented level (heading children))
  | title {title : String} (level : Int)
      (h : title ∈ ["Static fields:", "Static methods:", "Fields:", "Methods:"]) :
      tree.Writes [] (indented level title.toList)
  | member {r : Rule} {children : List (Tree Token)} {m : Member} (level : Int)
      (h : (r, children) ∈ tree.nodes) (hm : m ∈ listed r children) :
      tree.Writes (memberTypes r children) (indented level (' ' :: ' ' :: m.entry))

/-- A line breaks exactly if one of the types that it spells out has a text block. -/
theorem Writes.breaksWith {tree : Tree Token} (htree : tree.Genuine) {types : List (Tree Token)}
    {line : List Char} (h : tree.Writes types line) : BreaksWith line types := by
  have hblanks (level : Int) : ¬ HasLineBreak (List.replicate (2 * level).toNat ' ') := by
    rintro ⟨c, hc, hbreak⟩
    rw [List.eq_of_mem_replicate hc] at hbreak
    cases hbreak
  cases h with
  | package h =>
    exact (breaksWith_nil.2 (not_hasLineBreak_name rfl (htree.of_mem_nodes h))).after (by decide)
  | heading level h => exact (breaksWith_heading (htree.of_mem_nodes h)).after (hblanks level)
  | title level h =>
    refine BreaksWith.after (breaksWith_nil.2 ?_) (hblanks level)
    have htitles : ["Static fields:", "Static methods:", "Fields:", "Methods:"].all
        (fun title => !title.toList.any isLineBreak) = true := by decide
    simpa [HasLineBreak] using List.all_eq_true.1 htitles _ h
  | member level h hm =>
    have hentry := (breaksWith_entry (htree.of_mem_nodes h) hm).after (s := "  ".toList) (by decide)
    exact hentry.after (hblanks level)

end Tree

/-! ## The walk -/

namespace Outline

variable {methodsOnly : Bool} {o o' : Outline}

/-- The lines of a list of members. -/
def sectionLines (level : Int) (title : String) (members : List (List Char)) : List (List Char) :=
  if members.isEmpty then []
  else indented level title.toList :: members.map fun m => indented level (' ' :: ' ' :: m)

theorem sectionText_eq (level : Int) (title : String) (members : List (List Char)) :
    sectionText level title members = endLines (sectionLines level title members) := by
  unfold sectionText sectionLines
  split
  · rfl
  · simp [endLines, indentedLine, indented, List.flatMap_map]

/-- The lines that a visit writes. -/
def linesAt (methodsOnly : Bool) (o : Outline) : Visit Token → List (List Char)
  | .enter .packageDeclaration children =>
    let name := Tree.textOf .qualifiedName children
    if o.packages.contains name then [] else ["# Package ".toList ++ name]
  | .enter .classDeclaration children =>
    if Tree.isIgnoredClass .classDeclaration children then []
    else [indented o.level (Tree.heading children)]
  | .leave .classDeclaration =>
    if o.ignores then []
    else (sections methodsOnly).flatMap fun entry =>
      sectionLines o.level entry.1 (o.shelf entry.2)
  | _ => []

/-- The lines that a walk writes, up to a missing child. -/
def lines (methodsOnly : Bool) : Outline → List (Visit Token) → List (List Char)
  | _, [] => []
  | o, v :: vs =>
    match o.step methodsOnly v with
    | .ok o' => o.linesAt methodsOnly v ++ o'.lines methodsOnly vs
    | .error _ => []

/-- Beginning what has been read writes what doing it writes. -/
theorem begin_text (d : Option Deed) :
    (o.begin methodsOnly d).text = o.text ++ d.elim [] (o.written methodsOnly) := by
  cases d with
  | none => exact (List.append_nil _).symm
  | some d =>
    cases d with
    | passIgnored => exact (List.append_nil _).symm
    | announce | openClass | add | closeClass => exact perform_text

/-- Beginning what has been read collects its members, unless classes are ignored. -/
theorem begin_shelf (d : Option Deed) (s : Shelf) :
    (o.begin methodsOnly d).shelf s =
      o.shelf s ++ if o.ignores then [] else d.elim [] fun d => Deed.entries s [d] := by
  cases d with
  | none => simp [begin]
  | some d =>
    cases d with
    | passIgnored => cases s <;> simp [begin, setIgnored, shelf, Deed.entries, Deed.members]
    | announce | openClass | add | closeClass => exact perform_shelf s

/-- The lines of a node are what is done when it has been read. -/
theorem written_of_read {r : Rule} {children : List (Tree Token)} {d : Option Deed}
    (h : Deed.read r children = .ok d)
    (hignored : d = some .passIgnored ↔ Tree.isIgnoredClass r children = true) :
    d.elim [] (o.written methodsOnly) = endLines (o.linesAt methodsOnly (.enter r children)) := by
  unfold Deed.read at h
  split at h
  · obtain ⟨name, hname, rfl⟩ := exists_of_map_ok h
    simp only [linesAt, Tree.textOf_of_childText hname, Function.comp_apply, Option.elim_some, written,
      announcement]
    split <;> simp [endLines]
  · obtain ⟨d, hread, rfl⟩ := exists_of_map_ok h
    rw [Option.some.injEq] at hignored
    rcases Deed.heading_of_read hread with ⟨rfl, -⟩ | ⟨name, extended, implemented, rfl, -, hheading⟩
    · rw [linesAt, if_pos (hignored.1 rfl)]
      rfl
    · have hpassed : ¬ Tree.isIgnoredClass .classDeclaration children = true := by
        intro hclass
        cases hignored.2 hclass
      rw [linesAt, if_neg hpassed, ← hheading]
      simp [written, endLines, indentedLine, indented]
  · obtain ⟨members, -, rfl⟩ := exists_of_map_ok h
    rfl
  · obtain ⟨members, -, rfl⟩ := exists_of_map_ok h
    rfl
  · obtain ⟨members, -, rfl⟩ := exists_of_map_ok h
    rfl
  · cases h
    unfold linesAt
    split <;> simp_all

/-- A visit to a node that can be read writes its lines. -/
theorem step_text {v : Visit Token} (hv : v.Legible) (h : o.step methodsOnly v = .ok o') :
    o'.text = o.text ++ endLines (o.linesAt methodsOnly v) := by
  cases v with
  | enter r children =>
    obtain ⟨d, hread, hignored⟩ := hv r children rfl
    rw [step_of_read hread] at h
    rw [← Except.ok.inj h, begin_text, written_of_read hread hignored]
  | leave r =>
    by_cases hr : r = .classDeclaration
    · subst hr
      have hleave : o.leaveClass methodsOnly = o' := Except.ok.inj h
      rw [← hleave, leaveClass_eq, linesAt]
      split
      · rfl
      · rw [endLines_flatMap]
        simp only [closing, sectionText_eq]
    · rw [step_leave hr] at h
      rw [← Except.ok.inj h]
      unfold linesAt
      split <;> simp_all
  | token | skipped | missing =>
    rw [← show o = o' from Except.ok.inj h]
    exact (List.append_nil _).symm

/-- What a visit puts into the lists of members it has found in the node. -/
theorem step_shelf {v : Visit Token} (hv : v.Legible) (h : o.step methodsOnly v = .ok o') {s : Shelf}
    {entry : List Char} (hentry : entry ∈ o'.shelf s) :
    entry ∈ o.shelf s ∨ ∃ r children, v = .enter r children ∧
      ∃ m ∈ Tree.listed r children, m.entry = entry := by
  cases v with
  | enter r children =>
    obtain ⟨d, hread, -⟩ := hv r children rfl
    rw [step_of_read hread] at h
    rw [← Except.ok.inj h, begin_shelf, List.mem_append] at hentry
    refine hentry.imp_right fun hentry => ⟨r, children, rfl, ?_⟩
    split at hentry
    · cases hentry
    · match d, hread with
      | some (.add members), hread =>
        obtain ⟨m, hm, hentry⟩ := List.mem_map.1 hentry
        have hmem : m ∈ members := by simpa [Deed.members] using List.mem_of_mem_filter hm
        exact ⟨m, Deed.members_of_read hread ▸ hmem, hentry⟩
      | none, _ | some (.announce _), _ | some (.openClass _ _ _), _ | some .closeClass, _
      | some .passIgnored, _ => cases hentry
  | leave r =>
    by_cases hr : r = .classDeclaration
    · subst hr
      have hleave : o.leaveClass methodsOnly = o' := Except.ok.inj h
      rw [← hleave, leaveClass_eq] at hentry
      exact .inl (by cases s <;> exact hentry)
    · rw [step_leave hr] at h
      exact .inl (Except.ok.inj h ▸ hentry)
  | token | skipped | missing => exact .inl (Except.ok.inj h ▸ hentry)

/-- A walk writes its lines. -/
theorem run_text {vs : List (Visit Token)} (h : ∀ v ∈ vs, v.Legible) :
    (o.run methodsOnly vs).1.text = o.text ++ endLines (o.lines methodsOnly vs) := by
  induction vs generalizing o with
  | nil => simp [run, lines]
  | cons v vs ih =>
    obtain ⟨hv, hvs⟩ := List.forall_mem_cons.1 h
    obtain ⟨o', hstep⟩ : ∃ o', o.step methodsOnly v = .ok o' := exists_step_of_legible hv
    rw [run_cons hstep, ih hvs, step_text hv hstep, lines, hstep, endLines_append, List.append_assoc]

/-- The lines of a visit are written for a part of the tree. -/
theorem writes_of_mem_linesAt {tree : Tree Token} {v : Visit Token}
    (hv : ∀ r children, v = .enter r children → (r, children) ∈ tree.nodes)
    (ho : ∀ s, ∀ entry ∈ o.shelf s, ∃ r children, (r, children) ∈ tree.nodes ∧
      ∃ m ∈ Tree.listed r children, m.entry = entry)
    {line : List Char} (hline : line ∈ o.linesAt methodsOnly v) :
    ∃ types, tree.Writes types line := by
  unfold linesAt at hline
  split at hline
  · dsimp only at hline
    split at hline
    · cases hline
    · obtain rfl := List.mem_singleton.1 hline
      exact ⟨_, .package (hv _ _ rfl)⟩
  · split at hline
    · cases hline
    · obtain rfl := List.mem_singleton.1 hline
      exact ⟨_, .heading _ (hv _ _ rfl)⟩
  · split at hline
    · cases hline
    · obtain ⟨⟨title, s⟩, hsection, hline⟩ := List.mem_flatMap.1 hline
      unfold sectionLines at hline
      split at hline
      · cases hline
      · rcases List.mem_cons.1 hline with rfl | hline
        · refine ⟨_, .title _ ?_⟩
          have htitle := List.mem_map_of_mem (f := Prod.fst) (List.mem_of_mem_filter hsection)
          exact htitle
        · obtain ⟨entry, hentry, rfl⟩ := List.mem_map.1 hline
          obtain ⟨r, children, hnode, m, hm, rfl⟩ := ho _ entry hentry
          exact ⟨_, .member _ hnode hm⟩
  · cases hline

/-- All lines of a walk are written for parts of the tree. The lists of members hold only what has
been found in nodes of the tree. -/
theorem writes_of_mem_lines {tree : Tree Token} {vs : List (Visit Token)}
    (hlegible : ∀ v ∈ vs, v.Legible)
    (hvs : ∀ r children, .enter r children ∈ vs → (r, children) ∈ tree.nodes)
    (ho : ∀ s, ∀ entry ∈ o.shelf s, ∃ r children, (r, children) ∈ tree.nodes ∧
      ∃ m ∈ Tree.listed r children, m.entry = entry) :
    ∀ line ∈ o.lines methodsOnly vs, ∃ types, tree.Writes types line := by
  induction vs generalizing o with
  | nil => nofun
  | cons v vs ih =>
    obtain ⟨hv, hlegible⟩ := List.forall_mem_cons.1 hlegible
    obtain ⟨o', hstep⟩ : ∃ o', o.step methodsOnly v = .ok o' := exists_step_of_legible hv
    have hnode : ∀ r children, v = .enter r children → (r, children) ∈ tree.nodes :=
      fun r children henter => hvs r children (henter ▸ List.mem_cons_self)
    have ho' : ∀ s, ∀ entry ∈ o'.shelf s, ∃ r children, (r, children) ∈ tree.nodes ∧
        ∃ m ∈ Tree.listed r children, m.entry = entry := by
      intro s entry hentry
      rcases step_shelf hv hstep hentry with hold | ⟨r, children, henter, hlisted⟩
      · exact ho s entry hold
      · exact ⟨r, children, hnode r children henter, hlisted⟩
    intro line hline
    rw [lines, hstep] at hline
    rcases List.mem_append.1 hline with hline | hline
    · exact writes_of_mem_linesAt hnode ho hline
    · exact ih hlegible (fun r children hr => hvs r children (List.mem_cons_of_mem v hr)) ho' line hline

end Outline

/-- **Only text blocks break lines.** Let a file be without complaints. Its summary is the lines that
the walk writes, each with a line feed at its end; each of them is the line of a package, the first
line of a class, the title of a list of members or a member. A line has a line feed or a carriage
return in it exactly if one of the types that it spells out has a text block. So the lines of the
summary are the lines that have been written exactly if none of these spells out such a type. -/
theorem line_breaks_from_text_blocks (methodsOnly : Bool) (packages : List (List Char))
    (source : List Char)
    (h : ((TokenStream.ofSource source).parse .compilationUnit 0).complaints = []) :
    let tree := (analyse .compilationUnit 0 source).tree
    let text := (outlineSource methodsOnly packages source).1.text
    let lines := (Outline.empty packages).lines methodsOnly tree.visits
    text = lines.flatMap (· ++ ['\n']) ∧
      (∀ line ∈ lines, ∃ types, tree.Writes types line) ∧
      (∀ types line, tree.Writes types line →
        (HasLineBreak line ↔ ∃ t ∈ types, t.HasTextBlock)) ∧
      (text.splitOnP isLineBreak = lines ++ [[]] ↔ ∀ line ∈ lines, ¬ HasLineBreak line) := by
  intro tree text lines
  have hlegible := Tree.legible_visits (legible_of_no_complaints h)
  have htext : text = endLines lines := Outline.run_text hlegible
  refine ⟨htext, ?_, ?_, ?_⟩
  · refine Outline.writes_of_mem_lines hlegible
      (fun r children hr => Tree.mem_nodes_of_mem_visits _ hr) fun s entry hentry => ?_
    cases s <;> cases hentry
  · exact fun types line hline => hline.breaksWith (Tree.genuine_of_no_complaints h)
  · rw [htext]
    exact splitOnP_endLines_eq_iff

/-- The first line of a class with a text block in an annotation of its superclass is two lines of
the summary. -/
theorem heading_on_two_lines :
    let source := "class A extends @B(\"\"\"\n\"\"\")int\x7b\x7d".toList
    let text := (outlineSource false [] source).1.text
    let lines := (Outline.empty []).lines false (analyse .compilationUnit 0 source).tree.visits
    ((TokenStream.ofSource source).parse .compilationUnit 0).complaints = [] ∧
      lines = ["Class A extends @B(\"\"\"\n\"\"\")int:".toList] ∧
      text = "Class A extends @B(\"\"\"\n\"\"\")int:\n".toList ∧
      text.splitOnP isLineBreak ≠ lines ++ [[]] := by
  intro source text lines
  have hfile : ((TokenStream.ofSource source).parse .compilationUnit 0).complaints = [] ∧
      (Outline.empty []).lines false (analyse .compilationUnit 0 source).tree.visits =
        ["Class A extends @B(\"\"\"\n\"\"\")int:".toList] := by
    rw [TokenStream.parse_eq_plain, analyse_tree_eq_plain]
    decide +kernel
  obtain ⟨hquiet, hlines⟩ := hfile
  obtain ⟨htext, -, -, hsplit⟩ := line_breaks_from_text_blocks false [] source hquiet
  refine ⟨hquiet, hlines, ?_, fun hwhole => ?_⟩
  · rw [show text = _ from htext, hlines]
    rfl
  · have hbreak : HasLineBreak "Class A extends @B(\"\"\"\n\"\"\")int:".toList := by decide
    refine hsplit.1 hwhole _ ?_ hbreak
    rw [hlines]
    exact List.mem_singleton.2 rfl

end JavaOutline
