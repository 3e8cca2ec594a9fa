import JavaOutline.Grammar.Java

/-!
# The guards of the operators

The guards of all operators are numbered through the grammar, rule by rule and in each rule in the
order of its operators. A guard lets its operator be applied where the least level allowed is not
above the operator's own.
-/

namespace JavaOutline

namespace Rule

/-- The rule with this number. -/
def ofIndex? (i : Nat) : Option Rule := all[i]?

/-- The levels of the operators of a rule, in order. -/
def levels (r : Rule) : List Nat :=
  match r.body with
  | .plain _ => []
  | .operators _ suffixes => suffixes.map (·.level)

/-- All guards of the grammar: the rule, and the level of the operator. -/
def guards : List (Rule × Nat) := all.flatMap fun r => r.levels.map fun n => (r, n)

/-- Does the guard with this number, if it is one of the rule's, let its operator be applied where
operators of this level or higher are allowed? -/
def guardHolds? (r : Rule) (level i : Nat) : Option Bool :=
  match guards[i]? with
  | some (r', n) => if r' = r then some (level ≤ n) else none
  | none => none

end Rule

end JavaOutline
