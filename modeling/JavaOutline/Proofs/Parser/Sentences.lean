import JavaOutline.Proofs.Network.Derivations
import JavaOutline.Proofs.Parser.Completeness
import JavaOutline.Proofs.Parser.Conservation

/-!
# A file is read to its end exactly if it is a sentence

Soundness and completeness together: the parser reads a text without lexical errors to its end and
without a complaint if and only if the kinds of its tokens form a sentence of the grammar
(`read_to_end_iff_sentence`). The sentences are those of the grammar as it is written, without
levels of operators and without an order of the alternatives.
-/

namespace JavaOutline

open Network

/-! ## Sentences -/

/-- The sentences of a rule: the kinds at the leaves of its derivations. Levels and guards do not
count. -/
def Rule.sentences (r : Rule) : Language Kind :=
  {w | ∃ t : Tree Kind, t.Derives id ∧ t.symbol id = .rule r ∧ t.leaves = w}

instance (r : Rule) (w : List Symbol) : Decidable (w ∈ r.language) :=
  inferInstanceAs (Decidable (w ∈ (r.body.regular r).matches'))

namespace Tree

variable {α : Type} (kind : α → Kind)

mutual

/-- It can be computed whether a tree is a derivation. -/
def decidableDerives : (t : Tree α) → Decidable (t.Derives kind)
  | .token _ _ => isTrue trivial
  | .skipped _ | .missing _ => isFalse id
  | .node _ _ children =>
    have := decidableDerivesAll children
    instDecidableAnd

/-- It can be computed whether trees are derivations. -/
def decidableDerivesAll : (ts : List (Tree α)) → Decidable (DerivesAll kind ts)
  | [] => isTrue trivial
  | t :: ts =>
    have := decidableDerives t
    have := decidableDerivesAll ts
    instDecidableAnd

end

instance (t : Tree α) : Decidable (t.Derives kind) := decidableDerives kind t

end Tree

section
variable {kinds : Array Kind}

/-- The tokens from a position on lead to the end of the file. -/
theorem passesAll_drop {i : Nat} (hi : i ≤ kinds.size) :
    PassesAll kinds ((kinds.toList.drop i).map .token) i kinds.size := by
  induction h : kinds.size - i generalizing i with
  | zero =>
    obtain rfl : i = kinds.size := by omega
    rw [← Array.length_toList, List.drop_length]
    exact .nil _
  | succ n ih =>
    have hlt : i < kinds.toList.length := by
      rw [Array.length_toList]
      omega
    rw [List.drop_eq_getElem_cons hlt, List.map_cons]
    refine .cons ⟨?_, ?_⟩ (ih (i := i + 1) (by omega) (by omega))
    · have hlt' : i < kinds.size := by simpa using hlt
      simp [kindAt, Array.getD_eq_getD_getElem?, hlt']
    · rw [behind, if_pos (by omega)]

/-- The end of the file may be read any number of times. -/
theorem passesAll_replicate (m : Nat) :
    PassesAll kinds (List.replicate m (.token .endOfFile)) kinds.size kinds.size := by
  induction m with
  | zero => exact .nil _
  | succ m ih =>
    refine .cons ⟨kindAt_of_size_le (Nat.le_refl _), ?_⟩ ih
    rw [behind, if_neg (Nat.lt_irrefl _)]

/-- A sentence takes a run through the network from the first token to the end of the file. -/
theorem accepts_sentence {m : Nat}
    (h : kinds.toList ++ List.replicate m .endOfFile ∈ Rule.compilationUnit.sentences) :
    Accepts kinds (.start .compilationUnit) [] 0 := by
  obtain ⟨t, hderives, hroot, hleaves⟩ := h
  have hpass : PassesAll kinds (t.leaves.map .token) 0 kinds.size := by
    rw [hleaves, List.map_append, List.map_replicate, passesAll_append]
    exact ⟨kinds.size, passesAll_drop (Nat.zero_le _), passesAll_replicate m⟩
  have hrule := hderives.passes hpass
  rw [hroot] at hrule
  exact hrule [] (Accepts.exit (.done (node_zero _) (Nat.le_refl _)))

/-- **A sentence is parsed to its end without complaints.** -/
theorem TokenStream.parse_sentence {T : TokenStream} (level : Nat) (hclosed : Closed T.kinds)
    {m : Nat}
    (h : T.kinds.toList ++ List.replicate m .endOfFile ∈ Rule.compilationUnit.sentences) :
    (T.parse .compilationUnit level).complaints = [] ∧
      T.kinds.size ≤ (T.parse .compilationUnit level).next := by
  have hS : (Setting.java T.kinds T.index).Java := ⟨rfl, rfl, hclosed⟩
  have hready : (Setting.java T.kinds T.index).Ready (depthLimit T.kinds.size)
      Rule.compilationUnit.rank .initial :=
    ⟨Progress.honest_initial, Nat.zero_le _, depthLimit_ge ..⟩
  have hnested : Nested .compilationUnit level [] := by
    intro o ho
    cases ho
  have hlive : (Setting.java T.kinds T.index).Live ⟨[], level⟩ (.start .compilationUnit) .initial :=
    { viable := (accepts_sentence h).viable (ρ := []) hnested rfl (.start _) rfl (.start _)
      sited := ⟨.start _, rfl⟩
      nested := hnested
      quiet := rfl
      calm := rfl }
  have hend := (Setting.completeAt hS _).rule [] .compilationUnit level _ hready hlive
  exact ⟨List.reverse_eq_nil_iff.2 hend.quiet, hend.viable.accepts.size_le (node_zero _)⟩

end

/-! ## Source texts -/

/-- No visible token of a source text is the end of the file. -/
theorem closed_kinds (source : List Char) : Closed (TokenStream.ofSource source).kinds := by
  intro i hi
  rw [← TokenStream.get_kind, TokenStream.get_kind_eq_endOfFile] at hi
  simpa using hi

/-- The kinds at the leaves of a tree that covers a source text are those of its tokens, and behind
them the end of the file any number of times. -/
theorem exists_leaves_kind {r : Rule} {level : Nat} {source : List Char}
    (h : (analyse r level source).next = .endOfFile) :
    ∃ m, (analyse r level source).tree.leaves.map Token.kind =
      (TokenStream.ofSource source).kinds.toList ++ List.replicate m .endOfFile := by
  obtain ⟨m, hleaves, -⟩ := analyse_leaves r level source
  refine ⟨m, ?_⟩
  rw [analyse_next_eq_endOfFile] at h
  rw [hleaves, h, ← Array.length_toList, List.take_length, List.map_append, List.map_replicate,
    TokenStream.final_kind, TokenStream.kinds, Array.toList_map]

/-- **The parser accepts exactly the sentences of the grammar.** A source text in which everything is
a token is read to its end without messages if and only if its tokens form a sentence of a
compilation unit, the end of the file being read as often as the sentence asks for it. -/
theorem read_to_end_iff_sentence (level : Nat) (source : List Char)
    (hlex : (TokenStream.ofSource source).messages = []) :
    (analyse .compilationUnit level source).messages = [] ∧
        (analyse .compilationUnit level source).next = .endOfFile ↔
      ∃ m, (TokenStream.ofSource source).kinds.toList ++ List.replicate m .endOfFile ∈
        Rule.compilationUnit.sentences := by
  constructor
  · rintro ⟨hmessages, hnext⟩
    obtain ⟨hderives, hroot⟩ := analyse_derives (complaints_of_messages hmessages)
    obtain ⟨m, hleaves⟩ := exists_leaves_kind hnext
    refine ⟨m, (analyse .compilationUnit level source).tree.map Token.kind, ?_, ?_, ?_⟩
    · exact (Tree.derives_map ..).2 hderives
    · exact (Tree.symbol_map ..).trans hroot
    · rw [Tree.leaves_map, hleaves]
  · rintro ⟨m, h⟩
    obtain ⟨hquiet, hend⟩ := TokenStream.parse_sentence level (closed_kinds source) h
    constructor
    · have hgarbage : (TokenStream.ofSource source).garbage = [] := List.map_eq_nil_iff.1 hlex
      have hmerge : (analyse .compilationUnit level source).messages =
          (TokenStream.ofSource source).merge _ (TokenStream.ofSource source).garbage
            ((TokenStream.ofSource source).parse .compilationUnit level).complaints := rfl
      rw [hmerge, hgarbage, hquiet]
      rfl
    · rw [analyse_next_eq_endOfFile]
      rw [TokenStream.size_kinds] at hend
      exact Nat.le_antisymm (analyse_next_le ..) hend

/-- A derivation of `class A{int x=a-b*c;}` that takes the difference first. -/
def differenceFirst : Tree Kind :=
  let leaf (k : Kind) : Tree Kind := .token none k
  let node (r : Rule) (children : List (Tree Kind)) : Tree Kind := .node none r children
  let name := node .identifier [leaf .identifier]
  let operand := node .expression [node .primary [name]]
  let difference := node .expression [operand, leaf .sub, operand]
  let value := node .expression [difference, leaf .mul, operand]
  let declarator := node .variableDeclarator
    [node .variableDeclaratorId [name], leaf .assign, node .variableInitializer [value]]
  let field := node .fieldDeclaration
    [node .typeType [node .primitiveType [leaf .kwInt]], node .variableDeclarators [declarator],
      leaf .semi]
  let body := node .classBody
    [leaf .lbrace, node .classBodyDeclaration [node .memberDeclaration [field]], leaf .rbrace]
  node .compilationUnit
    [node .typeDeclaration [node .classDeclaration [leaf .kwClass, name, body]]]

/-- The parser reads the product first, and reads the file to its end without messages, although the
sentence has been derived in another way. -/
theorem read_to_end_of_differenceFirst :
    (TokenStream.ofSource "class A\x7bint x=a-b*c;\x7d".toList).messages = [] ∧
      differenceFirst.Derives id ∧
      differenceFirst.leaves =
        (TokenStream.ofSource "class A\x7bint x=a-b*c;\x7d".toList).kinds.toList ∧
      (analyse .compilationUnit 0 "class A\x7bint x=a-b*c;\x7d".toList).messages = [] ∧
      (analyse .compilationUnit 0 "class A\x7bint x=a-b*c;\x7d".toList).next = .endOfFile := by
  have hlex : (TokenStream.ofSource "class A\x7bint x=a-b*c;\x7d".toList).messages = [] ∧
      differenceFirst.leaves =
        (TokenStream.ofSource "class A\x7bint x=a-b*c;\x7d".toList).kinds.toList := by
    decide +kernel
  have hderives : differenceFirst.Derives id := by decide +kernel
  refine ⟨hlex.1, hderives, hlex.2, (read_to_end_iff_sentence 0 _ hlex.1).2 ⟨0, ?_⟩⟩
  exact ⟨differenceFirst, hderives, rfl, by simpa using hlex.2⟩

end JavaOutline
