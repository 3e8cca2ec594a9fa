import JavaOutline.Grammar.Java
import JavaOutline.Network.Basic

/-!
# How deep the parser goes before it takes a token

The parser works with a bound on the depth of its calls. This file shows that a bound in proportion
to the number of tokens is enough. No rule calls itself before it has taken a token: rules come in
layers (`Rule.layer`), and what a rule begins with belongs to lower layers. So the calls that are
made before the first token of a piece are at most `Piece.need` deep, all others start behind a
token, and no piece is deeper than `tokenDepth`. Every turn of a loop takes a token
(`Piece.advances`), so loops do not add to the depth either. `Rule.depth_bounds` puts this together
for all right-hand sides.
-/

namespace JavaOutline

namespace Rule

/-- Does the rule derive only words with at least one token besides the end of the file? -/
def consumes : Rule → Bool
  | .compilationUnit | .switchRuleOutcome => false
  | _ => true

/-- The layer of a rule. What a rule calls before its first token is in a lower layer. -/
def layer : Rule → Nat
  | .forControl | .switchRuleOutcome => 10
  | .interfaceBodyDeclaration | .blockStatement | .forInit => 9
  | .classBodyDeclaration | .interfaceMemberDeclaration | .variableInitializer | .elementValue
  | .statement | .expressionList | .lambdaBody => 8
  | .memberDeclaration | .interfaceMethodDeclaration | .expression => 7
  | .compilationUnit | .methodDeclaration | .compactConstructorDeclaration
  | .interfaceCommonBodyDeclaration | .formalParameterList | .lambdaLVTIList
  | .annotationTypeElementDeclaration | .annotationMethodOrConstantRest | .recordComponentList
  | .resources | .primary => 6
  | .typeDeclaration | .modifier | .typeBound | .enumConstants | .typeTypeOrVoid
  | .fieldDeclaration | .constDeclaration | .genericInterfaceMethodDeclaration | .typeArgument
  | .receiverParameter | .formalParameter | .lastFormalParameter | .lambdaLVTIParameter
  | .annotationTypeElementRest | .annotationConstantRest | .recordComponent
  | .localVariableDeclaration | .localTypeDeclaration | .resource | .enhancedForControl | .pattern
  | .guardedPattern | .typeList => 5
  | .packageDeclaration | .classOrInterfaceModifier | .variableModifier | .typeParameter
  | .enumConstant | .interfaceMethodModifier | .variableDeclarators | .classType | .typeType => 4
  | .variableDeclarator | .qualifiedNameList | .annotationUse | .elementValuePairs | .catchType
  | .lambdaExpression | .creator => 3
  | .methodBody | .genericMethodDeclaration | .genericConstructorDeclaration
  | .constructorDeclaration | .constantDeclarator | .variableDeclaratorId | .classOrInterfaceType
  | .qualifiedName | .literal | .altAnnotationQualifiedName | .elementValuePair
  | .annotationMethodRest | .switchBlockStatementGroup | .methodCall | .lambdaParameters
  | .createdName | .innerCreator | .classCreatorRest | .explicitGenericInvocation
  | .typeArgumentsOrDiamond | .nonWildcardTypeArgumentsOrDiamond | .superSuffix
  | .explicitGenericInvocationSuffix => 2
  | _ => 1

/-- A bound on the depth of the calls that are made before the first token of a rule. -/
def rank (r : Rule) : Nat := 20 * r.layer

end Rule

/-- A bound on the depth of the calls that are made for one token. -/
def tokenDepth : Nat := 220

namespace Piece

mutual

/-- Does the piece derive only words with at least one token besides the end of the file? -/
def consumes : Piece → Bool
  | .nothing | .guard _ => false
  | .token k => k ≠ .endOfFile
  | .oneOf ks => ks.all (· ≠ .endOfFile)
  | .call r _ => r.consumes
  | .named _ p => p.consumes
  | .andThen p q => p.consumes || q.consumes
  | .choice alts => allConsume alts
  | .optional _ | .many _ => false
  | .many1 alts => allConsume alts

/-- Do all alternatives derive only words with at least one token? -/
def allConsume : List Piece → Bool
  | [] => true
  | p :: ps => p.consumes && allConsume ps

end

mutual

/-- How deep the calls for a piece can go before its first token. -/
def need : Piece → Nat
  | .nothing | .token _ | .oneOf _ | .guard _ => 1
  | .call r _ => 1 + r.rank
  | .named _ p => 1 + p.need
  | .andThen p q => 1 + max p.need (if p.consumes then 0 else q.need)
  | .choice alts | .optional alts => 2 + maxNeed alts
  | .many alts | .many1 alts => 4 + maxNeed alts

/-- How deep the calls for alternatives can go before their first token. -/
def maxNeed : List Piece → Nat
  | [] => 0
  | p :: ps => max p.need (maxNeed ps)

end

mutual

/-- A bound on the needs of a piece and of all its parts. -/
def height : Piece → Nat
  | .nothing | .token _ | .oneOf _ | .guard _ => 1
  | .call r _ => 1 + r.rank
  | .named _ p => 1 + p.height
  | .andThen p q => 1 + max p.height q.height
  | .choice alts | .optional alts => 2 + maxHeight alts
  | .many alts | .many1 alts => 4 + maxHeight alts

/-- A bound on the needs of alternatives and of all their parts. -/
def maxHeight : List Piece → Nat
  | [] => 0
  | p :: ps => max p.height (maxHeight ps)

end

mutual

/-- Does every turn of a loop in the piece take a token? -/
def advances : Piece → Bool
  | .nothing | .token _ | .oneOf _ | .guard _ | .call _ _ => true
  | .named _ p => p.advances
  | .andThen p q => p.advances && q.advances
  | .choice alts | .optional alts => allAdvance alts
  | .many alts | .many1 alts => allConsume alts && allAdvance alts

/-- Does every turn of a loop in one of the alternatives take a token? -/
def allAdvance : List Piece → Bool
  | [] => true
  | p :: ps => p.advances && allAdvance ps

end

/-- The piece takes no more than `tokenDepth` for a token, and its loops take tokens. -/
structure Fits (p : Piece) : Prop where
  height_le : p.height ≤ tokenDepth
  advances : p.advances = true

/-- The same for all alternatives of a decision. -/
def AllFit (alts : List Piece) : Prop := ∀ p ∈ alts, p.Fits

section
variable {p q : Piece} {alts : List Piece}

theorem consumes_of_mem (h : allConsume alts = true) (hp : p ∈ alts) : p.consumes = true := by
  induction alts with
  | nil => cases hp
  | cons q qs ih =>
    rw [allConsume, Bool.and_eq_true] at h
    rcases List.mem_cons.1 hp with rfl | hp
    · exact h.1
    · exact ih h.2 hp

theorem need_le_of_mem (hp : p ∈ alts) : p.need ≤ maxNeed alts := by
  induction alts with
  | nil => cases hp
  | cons q qs ih =>
    rw [maxNeed]
    rcases List.mem_cons.1 hp with rfl | hp
    · exact Nat.le_max_left ..
    · exact Nat.le_trans (ih hp) (Nat.le_max_right ..)

/-- There is no piece without any calls. -/
theorem need_pos (p : Piece) : 0 < p.need := by
  cases p <;> rw [need] <;> omega

mutual

/-- What a piece needs is no more than its height. -/
theorem need_le_height : ∀ p : Piece, p.need ≤ p.height
  | .nothing | .token _ | .oneOf _ | .guard _ | .call _ _ => Nat.le_refl _
  | .named _ p => Nat.add_le_add_left (need_le_height p) 1
  | .andThen p q => by
    have hp := need_le_height p
    have hq := need_le_height q
    rw [need, height]
    split <;> omega
  | .choice alts | .optional alts => Nat.add_le_add_left (maxNeed_le_maxHeight alts) 2
  | .many alts | .many1 alts => Nat.add_le_add_left (maxNeed_le_maxHeight alts) 4

/-- What alternatives need is no more than their height. -/
theorem maxNeed_le_maxHeight : ∀ alts : List Piece, maxNeed alts ≤ maxHeight alts
  | [] => Nat.le_refl 0
  | p :: ps => by
    have hp := need_le_height p
    have hps := maxNeed_le_maxHeight ps
    rw [maxNeed, maxHeight]
    omega

end

theorem maxNeed_le_of_allFit (h : AllFit alts) : maxNeed alts ≤ tokenDepth := by
  induction alts with
  | nil => exact Nat.zero_le _
  | cons q qs ih =>
    obtain ⟨hq, hqs⟩ := List.forall_mem_cons.1 h
    have hneed := need_le_height q
    have hheight := hq.height_le
    rw [maxNeed]
    exact Nat.max_le.2 ⟨by omega, ih hqs⟩

theorem allAdvance_of_allFit (h : AllFit alts) : allAdvance alts = true := by
  induction alts with
  | nil => rfl
  | cons q qs ih =>
    obtain ⟨hq, hqs⟩ := List.forall_mem_cons.1 h
    rw [allAdvance, hq.advances, ih hqs]
    rfl

theorem AllFit.of_bounds (hheight : maxHeight alts ≤ tokenDepth) (hadvance : allAdvance alts = true) :
    AllFit alts := by
  induction alts with
  | nil => simp [AllFit]
  | cons q qs ih =>
    rw [maxHeight] at hheight
    rw [allAdvance, Bool.and_eq_true] at hadvance
    have hq : q.Fits := ⟨by omega, hadvance.1⟩
    exact List.forall_mem_cons.2 ⟨hq, ih (by omega) hadvance.2⟩

namespace Fits

theorem need_le (h : p.Fits) : p.need ≤ tokenDepth :=
  Nat.le_trans (need_le_height p) h.height_le

theorem named {role : Role} (h : (Piece.named role p).Fits) : p.Fits := by
  have hheight := h.height_le
  rw [height] at hheight
  exact ⟨by omega, h.advances⟩

theorem left (h : (p.andThen q).Fits) : p.Fits := by
  have hheight := h.height_le
  have hadvance := h.advances
  rw [height] at hheight
  rw [Piece.advances, Bool.and_eq_true] at hadvance
  exact ⟨by omega, hadvance.1⟩

theorem right (h : (p.andThen q).Fits) : q.Fits := by
  have hheight := h.height_le
  have hadvance := h.advances
  rw [height] at hheight
  rw [Piece.advances, Bool.and_eq_true] at hadvance
  exact ⟨by omega, hadvance.2⟩

theorem choice (h : (Piece.choice alts).Fits) : AllFit alts := by
  have hheight := h.height_le
  rw [height] at hheight
  exact .of_bounds (by omega) h.advances

theorem optional (h : (Piece.optional alts).Fits) : AllFit alts := by
  have hheight := h.height_le
  rw [height] at hheight
  exact .of_bounds (by omega) h.advances

theorem many (h : (Piece.many alts).Fits) :
    AllFit alts ∧ allConsume alts = true ∧ 4 + maxNeed alts ≤ tokenDepth := by
  have hheight := h.height_le
  have hadvance := h.advances
  have hneed := maxNeed_le_maxHeight alts
  rw [height] at hheight
  rw [Piece.advances, Bool.and_eq_true] at hadvance
  exact ⟨.of_bounds (by omega) hadvance.2, hadvance.1, by omega⟩

theorem many1 (h : (Piece.many1 alts).Fits) :
    AllFit alts ∧ allConsume alts = true ∧ 4 + maxNeed alts ≤ tokenDepth :=
  many ⟨h.height_le, h.advances⟩

end Fits

end

end Piece

/-- Every right-hand side keeps to its rule's rank and to the depth for one token, its loops take
tokens, and it takes a token itself if its rule is said to. -/
theorem Rule.depth_bounds (r : Rule) : r.body.piece.need < r.rank ∧ r.body.piece.Fits ∧
    (r.consumes = true → r.body.piece.consumes = true) := by
  have hbounds : (decide (r.body.piece.need < r.rank) && decide (r.body.piece.height ≤ tokenDepth) &&
      r.body.piece.advances && (!r.consumes || r.body.piece.consumes)) = true := by
    cases r <;> rfl
  simp only [Bool.and_eq_true, Bool.or_eq_true, Bool.not_eq_true', decide_eq_true_eq] at hbounds
  obtain ⟨⟨⟨hneed, hheight⟩, hadvance⟩, hconsumes⟩ := hbounds
  exact ⟨hneed, ⟨hheight, hadvance⟩, fun h => hconsumes.resolve_left (by simp [h])⟩

/-- A rule that applies operators takes a token. -/
theorem Rule.consumes_of_operators {r : Rule} {atoms : List Piece} {suffixes : List Suffix}
    (h : r.body = .operators atoms suffixes) : r.consumes = true := by
  unfold consumes
  split
  · cases h
  · cases h
  · rfl

end JavaOutline
