import JavaOutline.Proofs.Outline.Deeds

/-!
# Derivations can be read

An outline asks a node for children that error recovery may have left out. In a derivation they are
all there, since the grammar wants them. So every node of a derivation can be read, and a walk through
a derivation comes to its end.

A class is ignored for the name of its superclass (`Tree.isIgnoredClass`). In a derivation there is
such a name exactly where the class extends another one, so just these classes are read as ignored
(`Deed.legible_of_language`). No package is inside a class, so that a derivation is orderly as soon as no
ignored class has a class inside (`Deed.orderly_of_derives`).
-/

namespace JavaOutline

namespace Rule

/-- Can the rule occur below the root of a file and its package? -/
def isBelowUnit : Rule → Bool
  | .compilationUnit | .packageDeclaration => false
  | _ => true

/-- The rules below the root of a file do not lead back to it. -/
theorem isBelowUnit_body (r : Rule) (h : r.isBelowUnit = true) :
    r.body.within (fun _ => true) isBelowUnit = true := by
  have hbody : (!r.isBelowUnit || r.body.within (fun _ => true) isBelowUnit) = true := by
    cases r <;> rfl
  rw [h] at hbody
  exact hbody

end Rule

namespace Tree

variable {r q : Rule} {t : Tree Token} {children : List (Tree Token)}

/-- Is a node with this rule and these children a class whose superclass is named like an exception
or an error? -/
def isIgnoredClass (r : Rule) (children : List (Tree Token)) : Bool :=
  r = .classDeclaration && (child? .typeType children).any fun t => Outline.isErrorName t.text

/-- The children of a child in a derivation. -/
theorem DerivesAll.of_mem_select (hd : DerivesAll Token.kind children)
    (ht : t ∈ select (.rule q) children) :
    t.children.map (symbol Token.kind) ∈ q.language ∧ DerivesAll Token.kind t.children := by
  rw [select, List.mem_filter, isA_iff] at ht
  have hderives := (derivesAll_iff children).1 hd t ht.1
  cases t with
  | node role r cs =>
    obtain rfl : r = q := by simpa [symbol] using ht.2
    exact hderives
  | token | skipped | missing => simp [symbol] at ht

theorem mem_select_of_child? (h : child? q children = some t) : t ∈ select (.rule q) children :=
  List.mem_of_mem_head? h

/-- The text of a child that is always there. -/
theorem exists_childText (hw : children.map (symbol Token.kind) ∈ r.language)
    (h : r.always (.rule q) = true) : ∃ s, childText q children = .ok s := by
  obtain ⟨role, cs, hchild, -⟩ := exists_child hw h
  exact ⟨_, by rw [childText, hchild]⟩

/-- Where each element has a result, all have. -/
theorem exists_mapM {α β ε : Type} {f : α → Except ε β} {l : List α}
    (h : ∀ a ∈ l, ∃ b, f a = .ok b) : ∃ bs, l.mapM f = .ok bs := by
  induction l with
  | nil => exact ⟨[], rfl⟩
  | cons a l ih =>
    obtain ⟨b, hb⟩ := h a (by simp)
    obtain ⟨bs, hbs⟩ := ih fun a ha => h a (List.mem_cons_of_mem _ ha)
    refine ⟨b :: bs, ?_⟩
    rw [List.mapM_cons, bind_of_ok hb, bind_of_ok hbs]
    rfl

/-- The parameters of a method or constructor can be read. -/
theorem exists_parameters (hw : children.map (symbol Token.kind) ∈ r.language)
    (hd : DerivesAll Token.kind children) (h : r.always (.rule .formalParameters) = true) :
    ∃ ps, parameters children = .ok ps := by
  obtain ⟨role, cs, hchild, -⟩ := exists_child hw h
  obtain ⟨-, hcs⟩ := hd.of_mem_select (mem_select_of_child? hchild)
  unfold parameters
  rw [hchild]
  dsimp only
  cases hlist : child? .formalParameterList (node role .formalParameters cs).children with
  | none => exact ⟨[], rfl⟩
  | some list =>
    dsimp only
    obtain ⟨-, hparameters⟩ := hcs.of_mem_select (mem_select_of_child? hlist)
    refine exists_mapM fun p hp => ?_
    obtain ⟨hwp, -⟩ := hparameters.of_mem_select hp
    obtain ⟨type, htype⟩ := exists_childText (q := .typeType) hwp rfl
    obtain ⟨name, hname⟩ := exists_childText (q := .variableDeclaratorId) hwp rfl
    refine ⟨type ++ ' ' :: name, ?_⟩
    rw [bind_of_ok htype, bind_of_ok hname]
    rfl

end Tree

namespace Deed

open Tree

variable {r : Rule} {children : List (Tree Token)}

/-- The fields of a declaration can be read. -/
theorem exists_readFields (hw : children.map (symbol Token.kind) ∈ Rule.fieldDeclaration.language)
    (hd : DerivesAll Token.kind children) : ∃ members, readFields children = .ok members := by
  obtain ⟨type, htype⟩ := exists_childText (q := .typeType) hw rfl
  obtain ⟨role, cs, hlist, -⟩ := exists_child (q := .variableDeclarators) hw rfl
  obtain ⟨-, hcs⟩ := hd.of_mem_select (mem_select_of_child? hlist)
  have hnames := exists_mapM (l := Tree.select (.rule .variableDeclarator) cs) fun d hd =>
    exists_childText (q := .variableDeclaratorId) (hcs.of_mem_select hd).1 rfl
  obtain ⟨names, hnames⟩ := hnames
  unfold readFields
  rw [bind_of_ok htype, hlist]
  exact ⟨_, bind_of_ok hnames⟩

/-- A method can be read. -/
theorem exists_readMethod (hw : children.map (symbol Token.kind) ∈ Rule.methodDeclaration.language)
    (hd : DerivesAll Token.kind children) : ∃ members, readMethod children = .ok members := by
  obtain ⟨name, hname⟩ := exists_childText (q := .identifier) hw rfl
  obtain ⟨result, hresult⟩ := exists_childText (q := .typeTypeOrVoid) hw rfl
  obtain ⟨ps, hps⟩ := exists_parameters hw hd rfl
  unfold readMethod
  rw [bind_of_ok hname, bind_of_ok hresult, bind_of_ok hps]
  dsimp only
  split
  · exact ⟨_, rfl⟩
  · split
    · exact ⟨_, rfl⟩
    · exact ⟨_, rfl⟩

/-- A constructor can be read. -/
theorem exists_readConstructor
    (hw : children.map (symbol Token.kind) ∈ Rule.constructorDeclaration.language)
    (hd : DerivesAll Token.kind children) : ∃ members, readConstructor children = .ok members := by
  obtain ⟨name, hname⟩ := exists_childText (q := .identifier) hw rfl
  obtain ⟨ps, hps⟩ := exists_parameters hw hd rfl
  unfold readConstructor
  rw [bind_of_ok hname, bind_of_ok hps]
  exact ⟨_, rfl⟩

/-- A class can be read, and it is ignored for the name of its superclass. -/
theorem exists_readClass (hw : children.map (symbol Token.kind) ∈ Rule.classDeclaration.language) :
    ∃ d, readClass children = .ok d ∧
      (d = .passIgnored ↔ isIgnoredClass .classDeclaration children = true) := by
  have hignored : isIgnoredClass .classDeclaration children =
      (child? .typeType children).any fun t => Outline.isErrorName t.text := rfl
  obtain ⟨name, hname⟩ := exists_childText (q := .identifier) hw rfl
  rw [hignored]
  unfold readClass
  rw [bind_of_ok hname]
  dsimp only
  by_cases hextends : (select (.token .kwExtends) children).isEmpty = true
  · have hnone : child? .typeType children = none := by
      cases hchild : child? .typeType children with
      | none => rfl
      | some t =>
        have ht := mem_select_of_child? hchild
        rw [select, List.mem_filter, isA_iff] at ht
        refine absurd (Rule.mem_of_entails (a := .rule .typeType) rfl hw ?_)
          ((select_isEmpty_iff _).1 hextends)
        exact List.mem_map.2 ⟨t, ht⟩
    rw [if_pos hextends, hnone]
    exact ⟨_, rfl, iff_of_false (by rintro ⟨⟩) (by rintro ⟨⟩)⟩
  · have htype : .rule .typeType ∈ children.map (symbol Token.kind) := by
      refine Rule.mem_of_entails rfl hw (a := .token .kwExtends) ?_
      exact not_not.1 fun h => hextends ((select_isEmpty_iff _).2 h)
    obtain ⟨role, cs, hchild, -⟩ := exists_child? htype
    have htext : childText .typeType children = .ok (node role .typeType cs).text := by
      rw [childText, hchild]
    rw [if_neg hextends, bind_of_ok htext, hchild, Option.any_some]
    cases Outline.isErrorName (node role .typeType cs).text with
    | true => exact ⟨_, rfl, iff_of_true rfl rfl⟩
    | false => exact ⟨_, rfl, iff_of_false (by rintro ⟨⟩) (by rintro ⟨⟩)⟩

/-- The node can be read, and it is passed over exactly if it is an ignored class. -/
def Legible (n : Rule × List (Tree Token)) : Prop :=
  ∃ d, read n.1 n.2 = .ok d ∧ (d = some .passIgnored ↔ isIgnoredClass n.1 n.2 = true)

/-- A node whose children are as the grammar wants them can be read. -/
theorem legible_of_language (hw : children.map (symbol Token.kind) ∈ r.language)
    (hd : DerivesAll Token.kind children) : Legible (r, children) := by
  by_cases hr : r = .classDeclaration
  · subst hr
    obtain ⟨d, hread, hignored⟩ := exists_readClass hw
    refine ⟨some d, ?_, ?_⟩
    · rw [read, hread]
      rfl
    · rw [Option.some_inj, hignored]
  · have hread : ∃ d, read r children = .ok d := by
      unfold read
      split
      · obtain ⟨name, hname⟩ := exists_childText (q := .qualifiedName) hw rfl
        exact ⟨_, by rw [hname]; rfl⟩
      · exact absurd rfl hr
      · obtain ⟨members, hmembers⟩ := exists_readFields hw hd
        exact ⟨_, by rw [hmembers]; rfl⟩
      · obtain ⟨members, hmembers⟩ := exists_readMethod hw hd
        exact ⟨_, by rw [hmembers]; rfl⟩
      · obtain ⟨members, hmembers⟩ := exists_readConstructor hw hd
        exact ⟨_, by rw [hmembers]; rfl⟩
      · exact ⟨none, rfl⟩
    obtain ⟨d, hread⟩ := hread
    refine ⟨d, hread, iff_of_false ?_ (by simp [isIgnoredClass, hr])⟩
    rcases read_other hr hread with rfl | ⟨name, rfl⟩ | ⟨members, rfl⟩ <;> nofun

/-- No class and no package is inside an ignored class of a derivation if no class is. -/
theorem orderly_of_derives {t : Tree Token} (h : t.Derives Token.kind)
    (hflat : ∀ n ∈ t.nodes, isIgnoredClass n.1 n.2 = true →
      ∀ m ∈ nodesAll n.2, m.1 ≠ .classDeclaration) : ∀ n ∈ t.nodes, Orderly n := by
  intro n hn
  obtain ⟨hw, hd⟩ := h.of_mem_nodes n hn
  obtain ⟨d, hread, hignored⟩ := legible_of_language hw hd
  refine ⟨d, hread, fun hd' m hm => ⟨hflat n hn (hignored.1 hd') m hm, ?_⟩⟩
  have hclass : n.1.isBelowUnit = true := by
    have hr := hignored.1 hd'
    rw [isIgnoredClass, Bool.and_eq_true, decide_eq_true_eq] at hr
    rw [hr.1]
    rfl
  have hbelow : m.1.isBelowUnit = true :=
    hd.nodes_within Rule.isBelowUnit_body (fun u hu q hq =>
      Rule.rule_of_language (Rule.isBelowUnit_body n.1 hclass) hclass hw
        (hq ▸ List.mem_map_of_mem hu)) m hm
  rintro hpackage
  rw [hpackage] at hbelow
  cases hbelow

end Deed

end JavaOutline
