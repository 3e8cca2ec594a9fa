import JavaOutline.Proofs.Outline.Ignored
import JavaOutline.Proofs.Parser.Indices

/-!
# Files without complaints have outlines

An outline asks the nodes of a tree for certain children and stops where one of them is missing.
`Tree.Complete` says of a node that all of them are there. In a derivation every node is complete,
wherever it stands (`Tree.complete_of_language`), and no step of a walk through nodes that can be
read ends the walk (`Outline.run_of_legible`). So every file without complaints has an outline
(`outline_of_no_complaints`).
-/

namespace JavaOutline

namespace Tree

/-- The parameters of a method or constructor are there, and each has a type and a name. -/
def HasParameters (children : List (Tree Token)) : Prop :=
  ∃ ps, child? .formalParameters children = some ps ∧
    ∀ list, child? .formalParameterList ps.children = some list →
      ∀ p ∈ select (.rule .formalParameter) list.children,
        (child? .typeType p.children).isSome ∧ (child? .variableDeclaratorId p.children).isSome

/-- All children are there for which an outline asks the node. -/
def Complete (n : Rule × List (Tree Token)) : Prop :=
  match n.1 with
  | .packageDeclaration => (child? .qualifiedName n.2).isSome
  | .classDeclaration =>
    (child? .identifier n.2).isSome ∧
      (select (.token .kwExtends) n.2 ≠ [] → (child? .typeType n.2).isSome)
  | .fieldDeclaration =>
    (child? .typeType n.2).isSome ∧ ∃ list, child? .variableDeclarators n.2 = some list ∧
      ∀ d ∈ select (.rule .variableDeclarator) list.children,
        (child? .variableDeclaratorId d.children).isSome
  | .methodDeclaration =>
    (child? .identifier n.2).isSome ∧ (child? .typeTypeOrVoid n.2).isSome ∧ HasParameters n.2
  | .constructorDeclaration => (child? .identifier n.2).isSome ∧ HasParameters n.2
  | _ => True

section
variable {r q : Rule} {children : List (Tree Token)}

/-- A child that is always there is found. -/
theorem isSome_child? (hw : children.map (symbol Token.kind) ∈ r.language)
    (h : r.always (.rule q) = true) : (child? q children).isSome := by
  obtain ⟨role, cs, hchild, -⟩ := exists_child hw h
  rw [hchild, Option.isSome_some]

/-- The parameters of a method or constructor are all there. -/
theorem hasParameters_of_language (hw : children.map (symbol Token.kind) ∈ r.language)
    (hd : DerivesAll Token.kind children) (h : r.always (.rule .formalParameters) = true) :
    HasParameters children := by
  obtain ⟨role, cs, hps, -⟩ := exists_child hw h
  refine ⟨_, hps, fun list hlist p hp => ?_⟩
  have hcs := (hd.of_mem_select (mem_select_of_child? hps)).2
  have hparameters := (hcs.of_mem_select (mem_select_of_child? hlist)).2
  have hwp := (hparameters.of_mem_select hp).1
  exact ⟨isSome_child? hwp rfl, isSome_child? hwp rfl⟩

/-- A node whose children are as the grammar wants them is complete. -/
theorem complete_of_language (hw : children.map (symbol Token.kind) ∈ r.language)
    (hd : DerivesAll Token.kind children) : Complete (r, children) := by
  unfold Complete
  dsimp only
  split
  · exact isSome_child? hw rfl
  · refine ⟨isSome_child? hw rfl, fun hextends => ?_⟩
    -- A class that extends something says what it extends.
    have htype : .rule .typeType ∈ children.map (symbol Token.kind) := by
      refine Rule.mem_of_entails rfl hw (a := .token .kwExtends) (not_not.1 fun h => hextends ?_)
      exact List.isEmpty_iff.1 ((select_isEmpty_iff _).2 h)
    obtain ⟨role, cs, hchild, -⟩ := exists_child? htype
    rw [hchild, Option.isSome_some]
  · obtain ⟨role, cs, hlist, -⟩ := exists_child (q := .variableDeclarators) hw rfl
    refine ⟨isSome_child? hw rfl, _, hlist, fun d hmem => ?_⟩
    have hcs := (hd.of_mem_select (mem_select_of_child? hlist)).2
    exact isSome_child? (hcs.of_mem_select hmem).1 rfl
  · exact ⟨isSome_child? hw rfl, isSome_child? hw rfl, hasParameters_of_language hw hd rfl⟩
  · exact ⟨isSome_child? hw rfl, hasParameters_of_language hw hd rfl⟩
  · trivial

end

mutual

/-- What a walk enters is a node of the tree. -/
theorem mem_nodes_of_mem_visits {α : Type} {r : Rule} {children : List (Tree α)} :
    ∀ t : Tree α, .enter r children ∈ t.visits → (r, children) ∈ t.nodes
  | .token _ _, h | .skipped _, h | .missing _, h => by simp [visits] at h
  | .node _ r' children', h => by
    simp only [visits, List.cons_append, List.mem_cons, List.mem_append, List.not_mem_nil,
      Visit.enter.injEq, reduceCtorEq, or_false] at h
    rcases h with ⟨rfl, rfl⟩ | h
    · exact List.mem_cons_self
    · exact List.mem_cons_of_mem _ (mem_nodesAll_of_mem_visitsAll children' h)

/-- `mem_nodes_of_mem_visits` for several trees. -/
theorem mem_nodesAll_of_mem_visitsAll {α : Type} {r : Rule} {children : List (Tree α)} :
    ∀ ts : List (Tree α), .enter r children ∈ visitsAll ts → (r, children) ∈ nodesAll ts
  | [], h => by simp [visitsAll] at h
  | t :: ts, h => by
    rcases List.mem_append.1 h with h | h
    · exact List.mem_append_left _ (mem_nodes_of_mem_visits t h)
    · exact List.mem_append_right _ (mem_nodesAll_of_mem_visitsAll ts h)

end

end Tree

/-- If the visit enters a node, the node can be read. -/
def Visit.Legible (v : Visit Token) : Prop :=
  ∀ r children, v = .enter r children → Deed.Legible (r, children)

/-- A walk through nodes that can be read enters no others. -/
theorem Tree.legible_visits {t : Tree Token} (h : ∀ n ∈ t.nodes, Deed.Legible n) :
    ∀ v ∈ t.visits, v.Legible := by
  rintro v hv r children rfl
  exact h _ (mem_nodes_of_mem_visits t hv)

namespace Outline

variable {methodsOnly : Bool} {o : Outline}

/-- Only where a node is entered that cannot be read does a step fail. -/
theorem exists_step_of_legible {v : Visit Token} (h : v.Legible) :
    ∃ o', o.step methodsOnly v = .ok o' := by
  cases v with
  | enter r children =>
    obtain ⟨d, hread, -⟩ := h r children rfl
    exact ⟨_, step_of_read hread⟩
  | leave r =>
    by_cases hr : r = .classDeclaration
    · subst hr
      exact ⟨_, rfl⟩
    · exact ⟨o, step_leave hr⟩
  | token | skipped | missing => exact ⟨o, rfl⟩

/-- A walk through nodes that can be read comes to its end. -/
theorem run_of_legible {vs : List (Visit Token)} (h : ∀ v ∈ vs, v.Legible) :
    (o.run methodsOnly vs).2 = none := by
  induction vs generalizing o with
  | nil => rfl
  | cons v vs ih =>
    obtain ⟨hv, hvs⟩ := List.forall_mem_cons.1 h
    obtain ⟨o', hstep⟩ : ∃ o', o.step methodsOnly v = .ok o' := exists_step_of_legible hv
    rw [run_cons hstep]
    exact ih hvs

end Outline

/-- **A file without complaints has an outline.** All children are there for which the nodes of its
tree are asked, so the walk comes to its end, and no file with this text fails for a missing
child. -/
theorem outline_of_no_complaints (methodsOnly : Bool) (packages : List (List Char))
    (source : List Char)
    (h : ((TokenStream.ofSource source).parse .compilationUnit 0).complaints = []) :
    (∀ n ∈ (analyse .compilationUnit 0 source).tree.nodes, Tree.Complete n) ∧
      (outlineSource methodsOnly packages source).2 = none ∧
      ∀ name bytes, Utf8.decode bytes = .ok source →
        (outlineFile methodsOnly packages name (some bytes)).result =
          .ok (outlineSource methodsOnly packages source).1.text := by
  have hend : (outlineSource methodsOnly packages source).2 = none :=
    Outline.run_of_legible (Tree.legible_visits (legible_of_no_complaints h))
  refine ⟨fun n hn => ?_, hend, fun name bytes hbytes => ?_⟩
  · obtain ⟨hw, hd⟩ := (analyse_derives h).1.of_mem_nodes n hn
    exact Tree.complete_of_language hw hd
  · obtain ⟨o, hrun⟩ : ∃ o, outlineSource methodsOnly packages source = (o, none) :=
      ⟨_, Prod.ext rfl hend⟩
    simp only [outlineFile, hbytes, hrun]

/-- A class with a constructor has an outline. -/
theorem outline_of_constructor :
    let source := "class A\x7bA()\x7b\x7d\x7d".toList
    ((TokenStream.ofSource source).parse .compilationUnit 0).complaints = [] ∧
      (outlineSource false [] source).2 = none := by
  intro source
  have hquiet : ((TokenStream.ofSource source).parse .compilationUnit 0).complaints = [] := by
    rw [TokenStream.parse_eq_plain]
    decide +kernel
  exact ⟨hquiet, (outline_of_no_complaints false [] source hquiet).2.1⟩

end JavaOutline
