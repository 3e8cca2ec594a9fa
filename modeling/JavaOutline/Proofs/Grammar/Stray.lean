import JavaOutline.Proofs.Grammar.Depth

/-!
# How deep the parser goes at a token that does not fit

Where the next token does not fit, the parser may repair the input without taking a token, and so go
deeper than `Piece.need` allows. But a repair that takes nothing is made only if the next token fits
what follows, and a decision is made only for an alternative that the next token fits. So behind a
token of the grammar, and behind a choice, the parser is on the right way again or has saved
something (`Piece.stops`). What comes before is `Piece.strayNeed` deep at most. Again the rules come
in layers (`Rule.strayLayer`): a rule that is called astray calls only rules of lower layers.
-/

namespace JavaOutline

namespace Rule

/-- The layer of a rule that is called astray. What it calls astray is in a lower layer. -/
def strayLayer : Rule → Nat
  | .fieldDeclaration | .annotationConstantRest => 5
  | .variableDeclarators => 4
  | .enumConstants | .genericMethodDeclaration | .genericConstructorDeclaration | .constDeclaration
  | .interfaceMethodDeclaration | .genericInterfaceMethodDeclaration | .variableDeclarator
  | .qualifiedNameList | .formalParameter | .elementValuePairs | .recordComponentList | .catchType
  | .innerCreator => 3
  | .typeParameter | .typeBound | .enumConstant | .methodDeclaration | .constructorDeclaration
  | .compactConstructorDeclaration | .constantDeclarator | .interfaceCommonBodyDeclaration
  | .variableDeclaratorId | .classOrInterfaceType | .receiverParameter | .lastFormalParameter
  | .lambdaLVTIList | .qualifiedName | .elementValuePair | .annotationMethodRest | .recordComponent
  | .resources | .switchBlockStatementGroup | .expressionList | .pattern | .lambdaExpression
  | .classType | .classCreatorRest | .explicitGenericInvocation | .typeList => 2
  | _ => 1

/-- A bound on the depth of the calls that are made astray for a rule. -/
def strayRank (r : Rule) : Nat := 10 * r.strayLayer

theorem rank_le (r : Rule) : r.rank ≤ tokenDepth := by
  cases r <;> decide

/-- No rule goes deeper astray than before its first token. -/
theorem strayRank_le_rank (r : Rule) : r.strayRank ≤ r.rank := by
  cases r <;> decide

end Rule

namespace Piece

/-- Does a way astray end behind the piece at the latest? -/
def stops : Piece → Bool
  | .token _ | .oneOf _ | .choice _ => true
  | .named _ p => p.stops
  | .andThen p q => p.stops || q.stops
  | _ => false

mutual

/-- How deep the calls for a piece can go astray. -/
def strayNeed : Piece → Nat
  | .nothing | .token _ | .oneOf _ | .guard _ => 1
  | .call r _ => 1 + r.strayRank
  | .named _ p => 1 + p.strayNeed
  | .andThen p q => 1 + max p.strayNeed (if p.stops then 0 else q.strayNeed)
  | .choice _ | .optional _ => 2
  | .many _ => 4
  | .many1 alts => 4 + maxStrayNeed alts

/-- How deep the calls for alternatives can go astray. -/
def maxStrayNeed : List Piece → Nat
  | [] => 0
  | p :: ps => max p.strayNeed (maxStrayNeed ps)

end

mutual

/-- What a piece needs astray is no more than its height. -/
theorem strayNeed_le_height : ∀ p : Piece, p.strayNeed ≤ p.height
  | .nothing | .token _ | .oneOf _ | .guard _ => Nat.le_refl _
  | .call r _ => Nat.add_le_add_left r.strayRank_le_rank 1
  | .named _ p => Nat.add_le_add_left (strayNeed_le_height p) 1
  | .andThen p q => by
    have hp := strayNeed_le_height p
    have hq := strayNeed_le_height q
    rw [strayNeed, height]
    split <;> omega
  | .choice alts | .optional alts => Nat.le_add_right 2 _
  | .many alts => Nat.le_add_right 4 _
  | .many1 alts => Nat.add_le_add_left (maxStrayNeed_le_maxHeight alts) 4

/-- What alternatives need astray is no more than their height. -/
theorem maxStrayNeed_le_maxHeight : ∀ alts : List Piece, maxStrayNeed alts ≤ maxHeight alts
  | [] => Nat.le_refl 0
  | p :: ps => by
    have hp := strayNeed_le_height p
    have hps := maxStrayNeed_le_maxHeight ps
    rw [maxStrayNeed, maxHeight]
    omega

end

theorem Fits.strayNeed_le {p : Piece} (h : p.Fits) : p.strayNeed ≤ tokenDepth :=
  Nat.le_trans (strayNeed_le_height p) h.height_le

end Piece

/-- Every right-hand side keeps to its rule's rank also astray. -/
theorem Rule.strayNeed_lt_strayRank (r : Rule) : r.body.piece.strayNeed < r.strayRank := by
  have h : decide (r.body.piece.strayNeed < r.strayRank) = true := by
    cases r <;> rfl
  exact of_decide_eq_true h

end JavaOutline
