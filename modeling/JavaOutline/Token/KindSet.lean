import JavaOutline.Token.Kind

/-!
# Sets of token kinds

Look-ahead sets are small sets of kinds that are joined and asked for members all the time, so a
`KindSet` is a bit vector with one bit for each kind. `mem_union` and `mem_ofList` say what the
operations do to membership; nothing else looks at the bits.
-/

namespace JavaOutline

/-- A set of token kinds. -/
structure KindSet where
  /-- Bit `k.index` says whether the kind `k` belongs to the set. -/
  bits : Nat
  deriving DecidableEq, Repr, Inhabited

/-- Different kinds have different numbers. -/
theorem Kind.index_inj {j k : Kind} : j.index = k.index ↔ j = k := by
  constructor
  · intro h
    have hj := Kind.ofNat_ctorIdx j
    have hk := Kind.ofNat_ctorIdx k
    unfold Kind.index at h
    rw [← hj, h, hk]
  · rintro rfl
    rfl

namespace KindSet

/-- Does the kind belong to the set? -/
def contains (s : KindSet) (k : Kind) : Bool := s.bits.testBit k.index

instance : Membership Kind KindSet where
  mem s k := s.contains k = true

instance (k : Kind) (s : KindSet) : Decidable (k ∈ s) :=
  inferInstanceAs (Decidable (s.contains k = true))

/-- The set without members. -/
def empty : KindSet := ⟨0⟩

instance : EmptyCollection KindSet := ⟨empty⟩

/-- The set of this kind alone. -/
def single (k : Kind) : KindSet := ⟨1 <<< k.index⟩

/-- The kinds of either set. -/
def union (s t : KindSet) : KindSet := ⟨s.bits ||| t.bits⟩

instance : Union KindSet := ⟨union⟩

/-- The kinds of a list. -/
def ofList (ks : List Kind) : KindSet := ks.foldr (fun k s => single k ∪ s) ∅

/-- The members, in the order of the lexical grammar. -/
def toList (s : KindSet) : List Kind := Kind.all.filter s.contains

/-- Do the two sets have no member in common? -/
def disjoint (s t : KindSet) : Bool := s.bits &&& t.bits == 0

@[simp] theorem contains_eq (s : KindSet) (k : Kind) : s.contains k = true ↔ k ∈ s := Iff.rfl

theorem not_mem_empty (k : Kind) : k ∉ (∅ : KindSet) := by
  simp [Membership.mem, contains, EmptyCollection.emptyCollection, empty]

@[simp] theorem mem_union (s t : KindSet) (k : Kind) : k ∈ s ∪ t ↔ k ∈ s ∨ k ∈ t := by
  simp [Membership.mem, contains, Union.union, union, Nat.testBit_or]

@[simp] theorem mem_single (j k : Kind) : j ∈ single k ↔ j = k := by
  change (1 <<< k.index).testBit j.index = true ↔ j = k
  rw [Nat.one_shiftLeft, Nat.testBit_two_pow, decide_eq_true_iff, Kind.index_inj]
  exact eq_comm

@[simp] theorem mem_ofList (k : Kind) (ks : List Kind) : k ∈ ofList ks ↔ k ∈ ks := by
  induction ks with
  | nil => exact iff_of_false (not_mem_empty k) List.not_mem_nil
  | cons j ks ih =>
    rw [List.mem_cons, ← mem_single, ← ih]
    exact mem_union _ _ _

end KindSet

end JavaOutline
