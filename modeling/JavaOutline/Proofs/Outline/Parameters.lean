import JavaOutline.Proofs.Grammar.Arrangement
import JavaOutline.Proofs.Outline.Listed

/-!
# The parameters of a signature

The last parameter of a method or constructor can have variable arity, and the grammar gives it a
rule of its own. A signature asks for the parameters of the other rule only. The parameters of a
declaration in a derivation are those that are listed, and behind them perhaps one of variable arity
(`Tree.declaredParameters_eq`). So a signature lists all parameters exactly if there is no such
parameter (`parameters_of_signature`).
-/

namespace JavaOutline

namespace Tree

variable {children ts us : List (Tree Token)}

/-- Is the tree a parameter of variable arity? -/
def isVariableArity (t : Tree Token) : Bool := t.isA (.rule .lastFormalParameter)

/-- Is the tree a parameter? What a method is called on is none. -/
def isParameter (t : Tree Token) : Bool := t.isA (.rule .formalParameter) || t.isVariableArity

/-- The parameters that a method or constructor declares, in order. -/
def declaredParameters (children : List (Tree Token)) : List (Tree Token) :=
  (select (.rule .formalParameters) children).flatMap fun ps =>
    (select (.rule .formalParameterList) ps.children).flatMap fun list =>
      list.children.filter isParameter

theorem filter_isParameter_of_fixed (h : select (.rule .lastFormalParameter) ts = []) :
    ts.filter isParameter = select (.rule .formalParameter) ts := by
  refine List.filter_congr fun t ht => ?_
  rw [isParameter, isVariableArity, Bool.eq_false_iff.2 (List.filter_eq_nil_iff.1 h t ht),
    Bool.or_false]

/-- The parameter of variable arity is the last one of a list. -/
theorem filter_isParameter
    (hw : children.map (symbol Token.kind) ∈ Rule.formalParameterList.language) :
    children.filter isParameter = select (.rule .formalParameter) children ++
      select (.rule .lastFormalParameter) children := by
  obtain ⟨p, hp, h⟩ := Piece.yields_choice.1 (Rule.yields_of_language rfl hw)
  rcases List.mem_cons.1 hp with rfl | hp
  · obtain ⟨first, _, rfl, hfirst, h⟩ := Piece.yields_andThen.1 h
    obtain ⟨more, last, rfl, hmore, hlast⟩ := Piece.yields_andThen.1 h
    have hfixed : select (.rule .lastFormalParameter) (first ++ more) = [] := by
      rw [select_append, select_eq_nil_of_yields rfl hfirst, select_eq_nil_of_yields rfl hmore]
      rfl
    rw [← List.append_assoc]
    generalize first ++ more = fixed at hfixed ⊢
    rw [List.filter_append, filter_isParameter_of_fixed hfixed, select_append, select_append, hfixed,
      List.nil_append, List.append_assoc]
    refine congrArg _ ?_
    rcases Piece.yields_optional.1 hlast with rfl | ⟨q, hq, hlast⟩
    · rfl
    · obtain rfl := List.mem_singleton.1 hq
      obtain ⟨_, _, rfl, hword, hparameter⟩ := Piece.yields_andThen.1 hlast
      obtain ⟨comma, rfl, hcomma⟩ := Piece.yields_token.1 hword
      obtain ⟨role, cs, rfl⟩ := Piece.yields_call.1 hparameter
      have hvariable : isParameter (.node role .lastFormalParameter cs) = true := rfl
      have hnone : isParameter comma = false := by
        simp [isParameter, isVariableArity, Bool.eq_false_iff, isA_iff, hcomma]
      simp [hvariable, hnone, select_cons, select_nil, symbol_node, hcomma]
  · obtain rfl := List.mem_singleton.1 hp
    obtain ⟨role, cs, rfl⟩ := Piece.yields_call.1 h
    rfl

/-- The parameters of a declaration are those that are listed, and behind them perhaps one of variable
arity. -/
theorem declaredParameters_eq {r : Rule} (hr : r ∈ [.methodDeclaration, .constructorDeclaration])
    (hw : children.map (symbol Token.kind) ∈ r.language) (hd : DerivesAll Token.kind children) :
    ∃ last : Option (Tree Token), (∀ p ∈ last, p.isVariableArity = true) ∧
      (∀ p ∈ listedParameters children, p.isVariableArity = false) ∧
      declaredParameters children = listedParameters children ++ last.toList := by
  have honce : r.atMost (.rule .formalParameters) 1 = true := by
    clear hw
    revert r
    decide
  have hparameters := select_eq_toList_child? honce hw
  rw [declaredParameters, listedParameters, hparameters]
  cases hps : child? .formalParameters children with
  | none => exact ⟨none, by rintro _ ⟨⟩, by rintro _ ⟨⟩, rfl⟩
  | some ps =>
    obtain ⟨hw', hd'⟩ := hd.of_mem_select (List.mem_of_mem_head? hps)
    rw [Option.toList_some, List.flatMap_singleton, select_eq_toList_child? rfl hw',
      Option.bind_some]
    cases hlist : child? .formalParameterList ps.children with
    | none => exact ⟨none, by rintro _ ⟨⟩, by rintro _ ⟨⟩, rfl⟩
    | some list =>
      obtain ⟨hw'', -⟩ := hd'.of_mem_select (List.mem_of_mem_head? hlist)
      refine ⟨child? .lastFormalParameter list.children, fun p hp => ?_, fun p hp => ?_, ?_⟩
      · exact (List.mem_filter.1 (List.mem_of_mem_head? hp)).2
      · have hsymbol := (isA_iff _ p).1 (List.mem_filter.1 hp).2
        rw [isVariableArity, Bool.eq_false_iff, Ne, isA_iff, hsymbol]
        rintro ⟨⟩
      · rw [Option.toList_some, List.flatMap_singleton, filter_isParameter hw'',
          select_eq_toList_child? (q := .lastFormalParameter) rfl hw'']

theorem entry_of_mem_listed {r : Rule} {m : Member}
    (hr : r ∈ [.methodDeclaration, .constructorDeclaration]) (hm : m ∈ listed r children) :
    m.entry = signatureOf r children := by
  simp only [List.mem_cons, List.not_mem_nil, or_false] at hr
  rcases hr with rfl | rfl
  · unfold listed at hm
    dsimp only at hm
    split at hm
    · cases hm
    · split at hm
      · cases hm
      · rw [List.mem_singleton.1 hm]
  · rw [List.mem_singleton.1 hm]

theorem signature_concat_ne (head : List Char) (items : List (List Char)) {item : List Char}
    (h : item ≠ []) : signature head (items ++ [item]) ≠ signature head items := by
  have hlonger : (commaSeparated items).length < (commaSeparated (items ++ [item])).length := by
    by_cases hitems : items = []
    · rw [hitems, List.nil_append, commaSeparated_singleton]
      exact List.length_pos_iff.2 h
    · rw [commaSeparated_concat hitems, List.length_append, List.length_append]
      have hitem := List.length_pos_iff.2 h
      omega
  intro heq
  have hlength := congrArg List.length heq
  simp only [signature, List.length_append, List.length_cons] at hlength
  omega

end Tree

/-- **A signature lists the parameters of fixed arity.** A walk through a file without complaints
comes to a method or constructor and lists it unless it passes it over. The signature that is listed
has the parameters in the order of their declaration, each with its type and name, but not one of
variable arity. So all are there exactly if none has variable arity. -/
theorem parameters_of_signature (methodsOnly : Bool) (packages : List (List Char))
    (source : List Char)
    (h : ((TokenStream.ofSource source).parse .compilationUnit 0).complaints = [])
    {before after : List (Visit Token)} {r : Rule} {children : List (Tree Token)}
    (hr : r ∈ [Rule.methodDeclaration, .constructorDeclaration])
    (hwalk : (analyse .compilationUnit 0 source).tree.visits =
      before ++ .enter r children :: after) :
    let declared := Tree.declaredParameters children
    let fixed := declared.filter fun p => !p.isVariableArity
    ∃ o, (Outline.empty packages).run methodsOnly before = (o, none) ∧
      o.step methodsOnly (.enter r children) =
        .ok (if o.ignores then o else (Tree.listed r children).foldl Outline.addMember o) ∧
      (∀ m ∈ Tree.listed r children,
        m.entry = signature (Tree.signatureHead r children) (fixed.map Tree.parameterItem)) ∧
      (signature (Tree.signatureHead r children) (fixed.map Tree.parameterItem) =
          signature (Tree.signatureHead r children) (declared.map Tree.parameterItem) ↔
        ∀ p ∈ declared, p.isVariableArity = false) := by
  intro declared fixed
  obtain ⟨hw, hd⟩ := derives_of_walk h hwalk
  obtain ⟨last, hlast, hlisted, hdeclared⟩ := Tree.declaredParameters_eq hr hw hd
  have hfixed : fixed = Tree.listedParameters children := by
    have hnone : last.toList.filter (fun p => !p.isVariableArity) = [] :=
      List.filter_eq_nil_iff.2 fun p hp => by simp [hlast p (Option.mem_toList.1 hp)]
    have hall : (Tree.listedParameters children).filter (fun p => !p.isVariableArity) =
        Tree.listedParameters children :=
      List.filter_eq_self.2 fun p hp => by simp [hlisted p hp]
    rw [show fixed = _ from congrArg (List.filter _) hdeclared, List.filter_append, hall, hnone,
      List.append_nil]
  obtain ⟨o, hrun, hstep⟩ := exists_listed_of_no_complaints methodsOnly packages h
    (List.mem_cons_of_mem _ hr) hwalk
  refine ⟨o, hrun, hstep, fun m hm => ?_, ?_⟩
  · rw [hfixed]
    exact Tree.entry_of_mem_listed hr hm
  · rw [hfixed, show declared = _ from hdeclared, List.map_append, List.forall_mem_append]
    cases last with
    | none => simpa using hlisted
    | some p =>
      refine iff_of_false (Tree.signature_concat_ne _ _ ?_).symm fun hfalse => ?_
      · simp [Tree.parameterItem]
      · have hvariable := hlast p rfl
        rw [hfalse.2 p (by simp)] at hvariable
        cases hvariable

/-- A constructor with a parameter of variable arity is listed without parameters. -/
theorem signature_of_variable_arity :
    let source := "class A\x7bA(int...a)\x7b\x7d\x7d".toList
    ((TokenStream.ofSource source).parse .compilationUnit 0).complaints = [] ∧
      ∃ before after children, (analyse .compilationUnit 0 source).tree.visits =
          before ++ .enter .constructorDeclaration children :: after ∧
        (Tree.declaredParameters children).map Tree.parameterItem = ["int a".toList] ∧
        ∃ o, (Outline.empty []).run false before = (o, none) ∧
          o.step false (.enter .constructorDeclaration children) =
            .ok (o.addMember ⟨.methods, "A()".toList⟩) := by
  intro source
  have hfile : ((TokenStream.ofSource source).parse .compilationUnit 0).complaints = [] ∧
      let visits := (analyse .compilationUnit 0 source).tree.visits
      ((Outline.empty []).run false (visits.take 11)).1.ignores = false ∧
        Visit.entersAt (fun r children => r = .constructorDeclaration &&
          (Tree.declaredParameters children).map Tree.parameterItem = ["int a".toList] &&
          Tree.listed r children = [⟨.methods, "A()".toList⟩]) visits 11 = true := by
    rw [TokenStream.parse_eq_plain, analyse_tree_eq_plain]
    decide +kernel
  obtain ⟨hquiet, hignores, hmember⟩ := hfile
  clear_value source
  obtain ⟨r, children, hmember, hwalk⟩ := Visit.exists_entersAt hmember
  rw [Bool.and_eq_true, Bool.and_eq_true, decide_eq_true_eq, decide_eq_true_eq,
    decide_eq_true_eq] at hmember
  obtain ⟨⟨rfl, hdeclared⟩, hlisted⟩ := hmember
  obtain ⟨o, hrun, hstep, -⟩ := parameters_of_signature false [] source hquiet (by simp) hwalk
  rw [hrun] at hignores
  rw [hignores, hlisted] at hstep
  exact ⟨hquiet, _, _, children, hwalk, hdeclared, o, hrun, hstep⟩

end JavaOutline
