import JavaOutline.Proofs.Grammar.Arrangement
import JavaOutline.Proofs.Outline.Listed

/-!
# The supertypes in the first line of a class

The first line of a class names what the class extends and implements. It asks the class for its
children of some kinds, not for what stands behind the words `extends` and `implements`. In a
derivation this comes to the same for what is extended. But the types that a class permits are a list
of types like those that it implements, and the first line does not tell the two apart
(`Tree.heading_eq`): it names them all as soon as the class implements anything
(`first_line_of_class`).
-/

namespace JavaOutline

namespace Tree

variable {children : List (Tree Token)}

/-- A clause of a declaration: nothing, or a word and what stands behind it. -/
def IsClause (k : Kind) (q : Rule) (ts : List (Tree Token)) : Prop :=
  ts = [] ∨ ∃ word role cs, ts = [word, .node role q cs] ∧ word.symbol Token.kind = .token k

theorem isClause_of_yields {k : Kind} {q : Rule} {level : Nat} {ts : List (Tree Token)}
    (h : (Piece.optional [.andThen (.token k) (.call q level)]).Yields ts) : IsClause k q ts := by
  rcases Piece.yields_optional.1 h with rfl | ⟨p, hp, h⟩
  · exact .inl rfl
  · obtain rfl := List.mem_singleton.1 hp
    obtain ⟨us, vs, rfl, hword, hnode⟩ := Piece.yields_andThen.1 h
    obtain ⟨word, rfl, hsymbol⟩ := Piece.yields_token.1 hword
    obtain ⟨role, cs, rfl⟩ := Piece.yields_call.1 hnode
    exact .inr ⟨word, role, cs, rfl, hsymbol⟩

/-- A class has a name, perhaps type parameters, its clauses in order, and a body. -/
theorem class_arrangement
    (hw : children.map (symbol Token.kind) ∈ Rule.classDeclaration.language) :
    ∃ (word name body : Tree Token) (typeParameters extending implementing permitting :
        List (Tree Token)),
      children = word :: name ::
        (typeParameters ++ (extending ++ (implementing ++ (permitting ++ [body])))) ∧
      word.symbol Token.kind = .token .kwClass ∧ name.symbol Token.kind = .rule .identifier ∧
      (typeParameters = [] ∨ ∃ role cs, typeParameters = [.node role .typeParameters cs]) ∧
      IsClause .kwExtends .typeType extending ∧ IsClause .kwImplements .typeList implementing ∧
      IsClause .kwPermits .typeList permitting ∧ body.symbol Token.kind = .rule .classBody := by
  obtain ⟨_, ts₁, rfl, hword, h₁⟩ := Piece.yields_andThen.1 (Rule.yields_of_language rfl hw)
  obtain ⟨word, rfl, hsymbol⟩ := Piece.yields_token.1 hword
  obtain ⟨_, ts₂, rfl, hname, h₂⟩ := Piece.yields_andThen.1 h₁
  obtain ⟨role, cs, rfl⟩ := Piece.yields_call.1 hname
  obtain ⟨typeParameters, ts₃, rfl, htypes, h₃⟩ := Piece.yields_andThen.1 h₂
  obtain ⟨extending, ts₄, rfl, hextending, h₄⟩ := Piece.yields_andThen.1 h₃
  obtain ⟨implementing, ts₅, rfl, himplementing, h₅⟩ := Piece.yields_andThen.1 h₄
  obtain ⟨permitting, ts₆, rfl, hpermitting, hbody⟩ := Piece.yields_andThen.1 h₅
  obtain ⟨role', cs', rfl⟩ := Piece.yields_call.1 hbody
  refine ⟨word, _, _, typeParameters, extending, implementing, permitting, rfl, hsymbol, rfl, ?_,
    isClause_of_yields hextending, isClause_of_yields himplementing, isClause_of_yields hpermitting,
    rfl⟩
  rcases Piece.yields_optional.1 htypes with rfl | ⟨p, hp, htypes⟩
  · exact .inl rfl
  · obtain rfl := List.mem_singleton.1 hp
    exact .inr (Piece.yields_call.1 htypes)

/-- What a class is asked for by kind is what stands behind the words of its clauses. -/
theorem select_of_class
    (hw : children.map (symbol Token.kind) ∈ Rule.classDeclaration.language) :
    (select (.token .kwExtends) children).isEmpty = (behind? .kwExtends children).isNone ∧
      (select (.token .kwImplements) children).isEmpty = (behind? .kwImplements children).isNone ∧
      select (.rule .typeType) children = (behind? .kwExtends children).toList ∧
      select (.rule .typeList) children =
        (behind? .kwImplements children).toList ++ (behind? .kwPermits children).toList := by
  obtain ⟨word, name, body, typeParameters, extending, implementing, permitting, rfl, hword, hname,
    htypes, hextending, himplementing, hpermitting, hbody⟩ := class_arrangement hw
  rcases htypes with rfl | ⟨_, _, rfl⟩ <;>
  rcases hextending with rfl | ⟨w₁, _, _, rfl, h₁⟩ <;>
  rcases himplementing with rfl | ⟨w₂, _, _, rfl, h₂⟩ <;>
  rcases hpermitting with rfl | ⟨w₃, _, _, rfl, h₃⟩ <;>
  simp [select_cons, select_nil, behind?_cons, behind?_nil, symbol_node, *]

/-- A clause as it is written, with these words before it; nothing if there is no such clause. -/
def clauseText (words : String) (k : Kind) (children : List (Tree Token)) : List Char :=
  match behind? k children with
  | none => []
  | some t => words.toList ++ t.text

/-- The first line of a class by what the class declares: its name, the type behind `extends` and the
types behind `implements`. -/
def declaredHeading (children : List (Tree Token)) : List Char :=
  "Class ".toList ++ textOf .identifier children ++ clauseText " extends " .kwExtends children ++
    clauseText " implements " .kwImplements children ++ [':']

/-- What the first line of a class says beyond what the class declares: the types that it permits, if
it implements any. -/
def permittedText (children : List (Tree Token)) : List Char :=
  if (behind? .kwImplements children).isSome then clauseText ", " .kwPermits children else []

/-- The types that a class implements as its first line names them. -/
theorem commaSeparated_typeLists (implemented permitted : Option (Tree Token)) :
    (if implemented.isNone then [] else " implements ".toList ++
      commaSeparated ((implemented.toList ++ permitted.toList).map text)) =
      (match implemented with
        | none => []
        | some t => " implements ".toList ++ t.text) ++
        if implemented.isSome then match permitted with
          | none => []
          | some t => ", ".toList ++ t.text
        else [] := by
  cases implemented with
  | none => rfl
  | some s =>
    cases permitted with
    | none =>
      change " implements ".toList ++ commaSeparated [s.text] = " implements ".toList ++ s.text ++ []
      rw [commaSeparated_singleton, List.append_nil]
    | some t =>
      change " implements ".toList ++ commaSeparated ([s.text] ++ [t.text]) =
        " implements ".toList ++ s.text ++ (", ".toList ++ t.text)
      rw [commaSeparated_concat (List.cons_ne_nil _ _), commaSeparated_singleton,
        List.append_assoc]

/-- The first line of a class names the types that the class permits behind those that it
implements. -/
theorem heading_eq (hw : children.map (symbol Token.kind) ∈ Rule.classDeclaration.language) :
    heading children = "Class ".toList ++ textOf .identifier children ++
      clauseText " extends " .kwExtends children ++
      clauseText " implements " .kwImplements children ++ permittedText children ++ [':'] := by
  obtain ⟨hextends, himplements, htype, hlists⟩ := select_of_class hw
  have hextended : extended? children = (behind? .kwExtends children).map text := by
    rw [extended?, child?, hextends, htype]
    cases behind? .kwExtends children <;> rfl
  unfold heading
  rw [hextended, himplements, hlists, commaSeparated_typeLists]
  unfold permittedText clauseText
  generalize "Class ".toList ++ textOf .identifier children = front
  cases behind? .kwExtends children <;> simp only [Option.map, List.append_assoc]

/-- The first line of a class is the declared one unless the class implements and permits types. -/
theorem heading_eq_declaredHeading_iff
    (hw : children.map (symbol Token.kind) ∈ Rule.classDeclaration.language) :
    heading children = declaredHeading children ↔
      behind? .kwImplements children = none ∨ behind? .kwPermits children = none := by
  have hmore : permittedText children = [] ↔
      behind? .kwImplements children = none ∨ behind? .kwPermits children = none := by
    unfold permittedText clauseText
    cases behind? .kwImplements children <;> cases behind? .kwPermits children <;> simp
  rw [heading_eq hw, ← hmore]
  unfold declaredHeading
  generalize "Class ".toList ++ textOf .identifier children ++
    clauseText " extends " .kwExtends children ++
    clauseText " implements " .kwImplements children = line
  simp

end Tree

/-- **The first line of a class names what the class permits.** A walk through a file without
complaints comes to a class that is not ignored and writes its first line: its name, the type behind
`extends`, the types behind `implements`, and behind these the types that it permits. So the line is
as declared exactly if the class does not implement and permit types at the same time. -/
theorem first_line_of_class (methodsOnly : Bool) (packages : List (List Char))
    (source : List Char)
    (h : ((TokenStream.ofSource source).parse .compilationUnit 0).complaints = [])
    {before after : List (Visit Token)} {children : List (Tree Token)}
    (hwalk : (analyse .compilationUnit 0 source).tree.visits =
      before ++ .enter .classDeclaration children :: after)
    (hkept : Tree.isIgnoredClass .classDeclaration children = false) :
    ∃ o o' line, (Outline.empty packages).run methodsOnly before = (o, none) ∧
      o.step methodsOnly (.enter .classDeclaration children) = .ok o' ∧
      o'.text = o.text ++ indentedLine o.level line ∧
      line = "Class ".toList ++ Tree.textOf .identifier children ++
        Tree.clauseText " extends " .kwExtends children ++
        Tree.clauseText " implements " .kwImplements children ++ Tree.permittedText children ++
        [':'] ∧
      (line = Tree.declaredHeading children ↔
        Tree.behind? .kwImplements children = none ∨ Tree.behind? .kwPermits children = none) := by
  obtain ⟨hw, -⟩ := derives_of_walk h hwalk
  obtain ⟨o, d, hrun, hread, hignored, hstep⟩ :=
    exists_step_of_no_complaints methodsOnly packages h hwalk
  obtain ⟨e, he, rfl⟩ := exists_of_map_ok hread
  rcases Deed.heading_of_read he with ⟨rfl, -⟩ | ⟨name, extended, implemented, rfl, -, hheading⟩
  · rw [hignored.1 rfl] at hkept
    cases hkept
  · refine ⟨o, _, _, hrun, hstep, ?_, Tree.heading_eq hw, Tree.heading_eq_declaredHeading_iff hw⟩
    rw [← hheading]
    rfl

/-- The first line of a class that permits `byte` says that the class implements it. -/
theorem first_line_of_permitting_class :
    let source := "class A implements int permits byte\x7b\x7d".toList
    ((TokenStream.ofSource source).parse .compilationUnit 0).complaints = [] ∧
      ∃ before after children, (analyse .compilationUnit 0 source).tree.visits =
          before ++ .enter .classDeclaration children :: after ∧
        Tree.isIgnoredClass .classDeclaration children = false ∧
        Tree.declaredHeading children = "Class A implements int:".toList ∧
        ∃ o o', (Outline.empty []).run false before = (o, none) ∧
          o.step false (.enter .classDeclaration children) = .ok o' ∧
          o'.text = o.text ++ indentedLine o.level "Class A implements int, byte:".toList := by
  intro source
  have hfile : ((TokenStream.ofSource source).parse .compilationUnit 0).complaints = [] ∧
      Visit.entersAt (fun r children => r = .classDeclaration &&
        !Tree.isIgnoredClass r children &&
        Tree.declaredHeading children = "Class A implements int:".toList &&
        Tree.heading children = "Class A implements int, byte:".toList)
        (analyse .compilationUnit 0 source).tree.visits 2 = true := by
    rw [TokenStream.parse_eq_plain, analyse_tree_eq_plain]
    decide +kernel
  obtain ⟨hquiet, hclass⟩ := hfile
  clear_value source
  obtain ⟨r, children, hclass, hwalk⟩ := Visit.exists_entersAt hclass
  simp only [Bool.and_eq_true, decide_eq_true_eq, Bool.not_eq_true'] at hclass
  obtain ⟨⟨⟨rfl, hkept⟩, hdeclared⟩, hheading⟩ := hclass
  obtain ⟨o, o', line, hrun, hstep, htext, hline, -⟩ :=
    first_line_of_class false [] source hquiet hwalk hkept
  have hw := (derives_of_walk hquiet hwalk).1
  rw [hline, ← Tree.heading_eq hw, hheading] at htext
  exact ⟨hquiet, _, _, children, hwalk, hkept, hdeclared, o, o', hrun, hstep, htext⟩

end JavaOutline
