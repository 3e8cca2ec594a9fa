import JavaOutline.Proofs.Grammar.Arrangement

/-!
# The levels of operators

An expression is an atom, or an operand with an operator behind it. Which operator that is can be
read off the tokens behind the operand (`operatorLevel?`), and where the expression ends with another
operand, the operator also says which operators that operand may have (`operandLevel`). The grammar
gives the same levels to its guards and calls (`levelled_of_suffix`, `levelled_of_atom`).

`Tree.Graded` says that the last operand of a node binds tighter than its operator, and `Tree.Settled`
that no operator has been left to a node whose first operand could have had it for its own last
operand.
-/

namespace JavaOutline

open Computability

/-- The level of the operator behind the first operand of an expression, if the expression begins with
an operand. -/
def operatorLevel? : List Symbol → Option Nat
  | .rule .expression :: .token k :: w =>
    match k with
    | .lbrack => some 25
    | .dot => some 24
    | .colonColon => some 22
    | .inc | .dec => some 18
    | .mul | .div | .mod => some 14
    | .add | .sub => some 13
    | .lt | .gt => if w.head? = some (.token k) then some 12 else some 11
    | .le | .ge => some 11
    | .kwInstanceof => some 10
    | .equal | .notEqual => some 9
    | .bitAnd => some 8
    | .caret => some 7
    | .bitOr => some 6
    | .andAnd => some 5
    | .orOr => some 4
    | .question => some 3
    | .assign | .addAssign | .subAssign | .mulAssign | .divAssign | .andAssign | .orAssign
    | .xorAssign | .shiftRightAssign | .unsignedShiftRightAssign | .shiftLeftAssign | .modAssign =>
      some 2
    | _ => none
  | _ => none

/-- The least level of an operator in the last operand of an expression that ends with one. Behind an
operator it is the next level, or the same one for those that associate to the right; behind a cast
it is 16, and behind the other operators before an operand 17. -/
def operandLevel (w : List Symbol) : Nat :=
  match operatorLevel? w with
  | some n => if n = 2 ∨ n = 3 then n else n + 1
  | none => if w.head? = some (.token .lparen) then 16 else 17

/-! ## The levels of the grammar -/

namespace Piece

/-- The level of the operand with which the piece ends, if it ends with one. -/
def ending? : Piece → Option Nat
  | .call .expression level => some level
  | .andThen _ q => q.ending?
  | _ => none

variable {p q : Piece} {k : Kind} {w : List Symbol} {level m : Nat}

/-- The word of an expression that is made of the piece has an operator of this level, or none, and
ends as the piece does. -/
structure Levelled (p : Piece) (level : Option Nat) (w : List Symbol) : Prop where
  level : operatorLevel? w = level
  ending : ∀ m, p.ending? = some m → operandLevel w = m
  last : p.ending? = none → w.getLast? ≠ some (.rule .expression)

theorem mem_words_token_andThen (hw : w ∈ ((token k).andThen q).words) :
    ∃ v ∈ q.words, w = .token k :: v := by
  rw [words_andThen, Language.mem_mul] at hw
  obtain ⟨u, rfl, v, hv, rfl⟩ := hw
  exact ⟨v, hv, rfl⟩

/-- A piece without operands does not end with one. -/
theorem getLast?_ne_of_atMost (h : p.atMost (.rule .expression) 0 = true) (hw : w ∈ p.words) :
    w.getLast? ≠ some (.rule .expression) := by
  intro hlast
  have hcount := count_le_of_atMost h hw
  rw [Nat.le_zero, List.count_eq_zero] at hcount
  exact hcount (List.mem_of_getLast? hlast)

/-- An operator between two operands. -/
theorem levelled_infix (hlevel : ∀ u ∈ p.words,
      operatorLevel? (.rule .expression :: (u ++ [.rule .expression])) = some level)
    (hm : (if level = 2 ∨ level = 3 then level else level + 1) = m)
    (hw : w ∈ (p.andThen (refAt .expression m)).words) :
    Levelled (p.andThen (refAt .expression m)) (some level) (.rule .expression :: w) := by
  rw [words_andThen, Language.mem_mul] at hw
  obtain ⟨u, hu, v, rfl, rfl⟩ := hw
  refine ⟨hlevel u hu, fun m' hm' => ?_, nofun⟩
  obtain rfl := Option.some.inj hm'
  rw [operandLevel, hlevel u hu, ← hm]

theorem levelled_oneOf {ks : List Kind} {role : Role} (hlevel : ∀ k ∈ ks,
      operatorLevel? [.rule .expression, .token k, .rule .expression] = some level)
    (hm : (if level = 2 ∨ level = 3 then level else level + 1) = m)
    (hw : w ∈ ((named role (oneOf ks)).andThen (refAt .expression m)).words) :
    Levelled ((named role (oneOf ks)).andThen (refAt .expression m)) (some level)
      (.rule .expression :: w) := by
  refine levelled_infix (fun u hu => ?_) hm hw
  obtain ⟨k, hk, rfl⟩ := mem_words_oneOf.1 hu
  exact hlevel k hk

/-- An operator behind its only operand. -/
theorem levelled_suffix (hlevel : ∀ v, operatorLevel? (.rule .expression :: .token k :: v) = some level)
    (hp : ∀ u ∈ p.words, u = [.token k]) (hq : q.atMost (.rule .expression) 0 = true)
    (hending : q.ending? = none) (hw : w ∈ (p.andThen q).words) :
    Levelled (p.andThen q) (some level) (.rule .expression :: w) := by
  rw [words_andThen, Language.mem_mul] at hw
  obtain ⟨u, hu, v, hv, rfl⟩ := hw
  obtain rfl := hp u hu
  refine ⟨hlevel v, fun m hm => absurd (hending.symm.trans hm) nofun, fun _ => ?_⟩
  cases v with
  | nil => nofun
  | cons a v =>
    rw [List.singleton_append, List.getLast?_cons_cons, List.getLast?_cons_cons]
    exact getLast?_ne_of_atMost hq hv

/-- What has no operand has no operator. -/
theorem levelled_atom (h : p.atMost (.rule .expression) 0 = true) (hending : p.ending? = none)
    (hw : w ∈ p.words) : Levelled p none w := by
  refine ⟨?_, fun m hm => absurd (hending.symm.trans hm) nofun, fun _ => getLast?_ne_of_atMost h hw⟩
  have hcount := count_le_of_atMost h hw
  rw [Nat.le_zero, List.count_eq_zero] at hcount
  match w, hcount with
  | [], _ => rfl
  | .token _ :: _, _ => rfl
  | .rule r :: v, hcount =>
    have hne : r ≠ .expression := fun heq => hcount (by rw [heq]; exact List.mem_cons_self)
    unfold operatorLevel?
    split
    · rename_i heq
      cases heq
      exact absurd rfl hne
    · rfl

end Piece

open Piece in
/-- **The level of an operator of the grammar is that of its token.** -/
theorem levelled_of_suffix {atoms : List Piece} {suffixes : List Suffix}
    (hbody : Rule.expression.body = .operators atoms suffixes) {suffix : Suffix}
    (hs : suffix ∈ suffixes) {w : List Symbol} (hw : w ∈ suffix.rest.words) :
    suffix.rest.Levelled (some suffix.level) (.rule .expression :: w) := by
  obtain ⟨-, rfl⟩ := Body.operators.inj hbody
  simp only [List.mem_cons, List.not_mem_nil, or_false] at hs
  rcases hs with rfl | rfl | rfl | rfl | rfl | rfl | rfl | rfl | rfl | rfl | rfl | rfl | rfl | rfl |
    rfl | rfl | rfl
  · exact levelled_oneOf (by decide) rfl hw
  · exact levelled_oneOf (by decide) rfl hw
  · refine levelled_infix (fun u hu => ?_) rfl hw
    obtain ⟨p, hp, hu⟩ := mem_anyWords.1 hu
    simp only [List.mem_cons, List.not_mem_nil, or_false] at hp
    rcases hp with rfl | rfl | rfl
    · obtain ⟨_, rfl, rfl⟩ := mem_words_token_andThen hu
      rfl
    · obtain ⟨_, hv, rfl⟩ := mem_words_token_andThen hu
      obtain ⟨_, rfl, rfl⟩ := mem_words_token_andThen hv
      rfl
    · obtain ⟨_, rfl, rfl⟩ := mem_words_token_andThen hu
      rfl
  · exact levelled_oneOf (by decide) rfl hw
  · exact levelled_oneOf (by decide) rfl hw
  · exact levelled_infix (by rintro _ rfl; rfl) rfl hw
  · exact levelled_infix (by rintro _ rfl; rfl) rfl hw
  · exact levelled_infix (by rintro _ rfl; rfl) rfl hw
  · exact levelled_infix (by rintro _ rfl; rfl) rfl hw
  · exact levelled_infix (by rintro _ rfl; rfl) rfl hw
  · -- The operand between the question mark and the colon may be anything.
    obtain ⟨_, hv, rfl⟩ := mem_words_token_andThen hw
    obtain ⟨_, rfl, _, hend, rfl⟩ := Language.mem_mul.1 hv
    obtain ⟨_, rfl, rfl⟩ := mem_words_token_andThen hend
    exact ⟨rfl, fun m hm => Option.some.inj hm, by rintro ⟨⟩⟩
  · exact levelled_oneOf (by decide) rfl hw
  · obtain ⟨_, hv, rfl⟩ := mem_words_token_andThen hw
    obtain ⟨_, rfl, _, rfl, rfl⟩ := Language.mem_mul.1 hv
    exact ⟨rfl, by rintro _ ⟨⟩, fun _ => by decide⟩
  · exact levelled_suffix (fun _ => rfl) (fun _ hu => hu) rfl rfl hw
  · exact levelled_suffix (fun _ => rfl) (fun _ hu => hu) rfl rfl hw
  · obtain ⟨k, hk, rfl⟩ := mem_words_oneOf.1 hw
    have hlevel : ∀ k ∈ [Kind.inc, .dec], operatorLevel? [.rule .expression, .token k] = some 18 := by
      decide
    exact ⟨hlevel k hk, by rintro _ ⟨⟩, by rintro _ ⟨⟩⟩
  · exact levelled_suffix (fun _ => rfl) (fun _ hu => hu) rfl rfl hw

open Piece in
/-- An atom has no operator behind its first operand. -/
theorem levelled_of_atom {atoms : List Piece} {suffixes : List Suffix}
    (hbody : Rule.expression.body = .operators atoms suffixes) {atom : Piece} (ha : atom ∈ atoms)
    {w : List Symbol} (hw : w ∈ atom.words) : atom.Levelled none w := by
  obtain ⟨rfl, -⟩ := Body.operators.inj hbody
  simp only [List.mem_cons, List.not_mem_nil, or_false] at ha
  rcases ha with rfl | rfl | rfl | rfl | rfl | rfl | rfl | rfl | rfl
  · exact levelled_atom rfl rfl hw
  · exact levelled_atom rfl rfl hw
  · exact levelled_atom rfl rfl hw
  · exact levelled_atom rfl rfl hw
  · exact levelled_atom rfl rfl hw
  · obtain ⟨u, hu, _, rfl, rfl⟩ := Language.mem_mul.1 hw
    obtain ⟨k, hk, rfl⟩ := mem_words_oneOf.1 hu
    have hlevel : ∀ k ∈ [Kind.add, .sub, .inc, .dec, .tilde, .bang],
      operandLevel [.token k, .rule .expression] = 17 := by decide
    exact ⟨rfl, fun m hm => (hlevel k hk).trans (Option.some.inj hm), by rintro ⟨⟩⟩
  · obtain ⟨v, hv, rfl⟩ := mem_words_token_andThen hw
    exact ⟨rfl, fun m hm => Option.some.inj hm, by rintro ⟨⟩⟩
  · exact levelled_atom rfl rfl hw
  · exact levelled_atom rfl rfl hw

/-! ## Operators in trees -/

theorem operandLevel_ne_zero (w : List Symbol) : operandLevel w ≠ 0 := by
  unfold operandLevel
  split
  · split <;> omega
  · split <;> decide

namespace Tree

variable {α β : Type}

/-- The children of a tree that is an expression. -/
def expression? : Tree α → Option (List (Tree α))
  | .node _ .expression children => some children
  | _ => none

/-- The level of the operator behind the first operand of an expression with these children. -/
def level? (kind : α → Kind) (children : List (Tree α)) : Option Nat :=
  operatorLevel? (children.map (symbol kind))

/-- The children of the operand with which an expression begins. -/
def leftOperand? (children : List (Tree α)) : Option (List (Tree α)) :=
  children.head?.bind expression?

/-- The children of the operand with which an expression ends. -/
def rightOperand? (children : List (Tree α)) : Option (List (Tree α)) :=
  children.getLast?.bind expression?

/-- The operator of the last operand has the level that its place asks for. -/
def Graded (kind : α → Kind) (children : List (Tree α)) : Prop :=
  ∀ right ∈ rightOperand? children, ∀ l ∈ level? kind right,
    operandLevel (children.map (symbol kind)) ≤ l

/-- The operator does not have the level for the last operand of its own first operand. -/
def Settled (kind : α → Kind) (children : List (Tree α)) : Prop :=
  ∀ q ∈ level? kind children, ∀ left ∈ leftOperand? children, (rightOperand? left).isSome →
    q < operandLevel (left.map (symbol kind))

instance (kind : α → Kind) (children : List (Tree α)) : Decidable (Settled kind children) :=
  inferInstanceAs (Decidable (∀ q ∈ level? kind children, ∀ left ∈ leftOperand? children,
    (rightOperand? left).isSome → q < operandLevel (left.map (symbol kind))))

/-- What stands before the last operand does not matter for it. -/
theorem rightOperand?_append {ts us right : List (Tree α)} (h : right ∈ rightOperand? us) :
    right ∈ rightOperand? (ts ++ us) := by
  obtain ⟨t, hlast, ht⟩ := Option.bind_eq_some_iff.1 h
  refine Option.bind_eq_some_iff.2 ⟨t, ?_, ht⟩
  rw [List.getLast?_append, hlast, Option.some_or]

theorem expression?_isSome_iff {kind : α → Kind} {t : Tree α} :
    t.expression?.isSome ↔ t.symbol kind = .rule .expression := by
  cases t with
  | node role r children => cases r <;> simp [expression?, symbol]
  | token | skipped | missing => simp [expression?, symbol]

/-- The last operand is the last child. -/
theorem rightOperand?_isSome_iff {kind : α → Kind} {children : List (Tree α)} :
    (rightOperand? children).isSome ↔
      (children.map (symbol kind)).getLast? = some (.rule .expression) := by
  rw [rightOperand?, List.getLast?_map]
  cases children.getLast? with
  | none => simp
  | some t => simpa using expression?_isSome_iff

variable {kind : α → Kind} {f : β → α}

theorem expression?_map (f : β → α) (t : Tree β) :
    (t.map f).expression? = t.expression?.map (mapAll f) := by
  cases t with
  | node role r children => cases r <;> rfl
  | token | skipped | missing => rfl

theorem level?_mapAll (children : List (Tree β)) :
    level? kind (mapAll f children) = level? (kind ∘ f) children := by
  rw [level?, level?, map_symbol_mapAll]

theorem leftOperand?_mapAll (children : List (Tree β)) :
    leftOperand? (mapAll f children) = (leftOperand? children).map (mapAll f) := by
  rw [leftOperand?, leftOperand?, mapAll_eq_map, List.head?_map]
  cases children.head? with
  | none => rfl
  | some t => exact expression?_map f t

theorem rightOperand?_mapAll (children : List (Tree β)) :
    rightOperand? (mapAll f children) = (rightOperand? children).map (mapAll f) := by
  rw [rightOperand?, rightOperand?, mapAll_eq_map, List.getLast?_map]
  cases children.getLast? with
  | none => rfl
  | some t => exact expression?_map f t

/-- What a leaf holds counts for the levels only by its kind. -/
theorem graded_mapAll {children : List (Tree β)} :
    Graded kind (mapAll f children) ↔ Graded (kind ∘ f) children := by
  simp only [Graded, level?_mapAll, rightOperand?_mapAll, map_symbol_mapAll, Option.mem_def,
    Option.map_eq_some_iff, forall_exists_index, and_imp, forall_apply_eq_imp_iff₂]

theorem settled_mapAll {children : List (Tree β)} :
    Settled kind (mapAll f children) ↔ Settled (kind ∘ f) children := by
  simp only [Settled, level?_mapAll, leftOperand?_mapAll, rightOperand?_mapAll, map_symbol_mapAll,
    Option.mem_def, Option.map_eq_some_iff, Option.isSome_map, forall_exists_index, and_imp,
    forall_apply_eq_imp_iff₂]

end Tree

end JavaOutline
