import JavaOutline.Prediction.Config

/-!
# Sets of stacks

Which stacks a set stands for (`Stacks.Covers`), what pushing, popping and merging do to them, and
the two forms of the set: with known callers the empty stack is a stack like any other, with unknown
callers it stands for all (`Stacks.Pure`).
-/

namespace JavaOutline

namespace Stacks

/-- The stack belongs to the set. If `wild`, the empty stack of the set stands for all stacks, and
each stack of the set for all that begin with it. -/
def Covers (wild : Bool) : Stacks → List Place → Prop
  | .none, _ => False
  | .bottom, τ => wild = true ∨ τ = []
  | .branch ret below others, τ => (∃ σ, τ = ret :: σ ∧ Covers wild below σ) ∨ Covers wild others τ

/-- All return places of the set satisfy `P`. -/
def All (P : Place → Prop) : Stacks → Prop
  | .none | .bottom => True
  | .branch ret below others => P ret ∧ All P below ∧ All P others

/-- Every part of the set has a stack. -/
def Full : Stacks → Prop
  | .none => False
  | .bottom => True
  | .branch _ below others => Full below ∧ (others = .none ∨ Full others)

/-- Wherever the empty stack belongs to the set or to a part of it, it is alone there. -/
def Pure : Stacks → Prop
  | .none | .bottom => True
  | .branch _ below others => Pure below ∧ others.hasBottom = false ∧ Pure others

section
variable {wild : Bool} {s t : Stacks} {τ : List Place} {ret : Place} {P : Place → Prop}

theorem covers_push : (s.push ret).Covers wild τ ↔ ∃ σ, τ = ret :: σ ∧ s.Covers wild σ := by
  rw [push, Covers, Covers, or_false]

theorem covers_ofList (σ : List Place) : (ofList σ).Covers false τ ↔ τ = σ := by
  induction σ generalizing τ with
  | nil => rw [ofList, Covers, Bool.false_eq_true, false_or]
  | cons ret σ ih =>
    rw [ofList, covers_push]
    constructor
    · rintro ⟨σ', rfl, h⟩
      rw [ih.1 h]
    · rintro rfl
      exact ⟨σ, rfl, ih.2 rfl⟩

theorem hasBottom_iff : s.hasBottom = true ↔ s.Covers false [] := by
  induction s with
  | none => exact iff_of_false nofun id
  | bottom => exact iff_of_true rfl (.inr rfl)
  | branch ret below others _ ih =>
    rw [hasBottom, Covers, ih]
    exact ⟨.inr, fun h => h.resolve_left nofun⟩

/-- A set with the empty stack stands for all stacks. -/
theorem covers_of_hasBottom (h : s.hasBottom = true) : s.Covers true τ := by
  induction s with
  | none => cases h
  | bottom => exact .inl rfl
  | branch ret below others _ ih => exact .inr (ih h)

/-- A stack with a top is found below the branch of its top. -/
theorem covers_cons (h : s.Covers false (ret :: τ)) :
    ∃ below, (ret, below) ∈ s.tops ∧ below.Covers false τ := by
  induction s with
  | none => exact h.elim
  | bottom => rcases h with h | h <;> cases h
  | branch ret' below others _ ih =>
    rcases h with ⟨σ, heq, hσ⟩ | h
    · obtain ⟨rfl, rfl⟩ := List.cons.inj heq
      exact ⟨below, List.mem_cons_self, hσ⟩
    · obtain ⟨below', hmem, hσ⟩ := ih h
      exact ⟨below', List.mem_cons_of_mem _ hmem, hσ⟩

theorem covers_of_mem_tops {below : Stacks} (h : (ret, below) ∈ s.tops) (hτ : below.Covers wild τ) :
    s.Covers wild (ret :: τ) := by
  induction s with
  | none | bottom => cases h
  | branch ret' below' others _ ih =>
    rcases List.mem_cons.1 h with heq | h
    · obtain ⟨rfl, rfl⟩ := Prod.mk.inj heq
      exact .inl ⟨τ, rfl, hτ⟩
    · exact .inr (ih h)

/-- What a set stands for are the stacks that begin with one of it. -/
theorem covers_true : s.Covers true τ ↔ ∃ π rest, τ = π ++ rest ∧ s.Covers false π := by
  induction s generalizing τ with
  | none => exact iff_of_false id fun ⟨_, _, _, h⟩ => h
  | bottom => exact iff_of_true (.inl rfl) ⟨[], τ, rfl, .inr rfl⟩
  | branch ret below others ihb iho =>
    rw [Covers, iho]
    constructor
    · rintro (⟨σ, rfl, hσ⟩ | ⟨π, rest, rfl, h⟩)
      · obtain ⟨π, rest, rfl, h⟩ := ihb.1 hσ
        exact ⟨ret :: π, rest, rfl, .inl ⟨π, rfl, h⟩⟩
      · exact ⟨π, rest, rfl, .inr h⟩
    · rintro ⟨π, rest, rfl, ⟨σ, rfl, h⟩ | h⟩
      · exact .inl ⟨σ ++ rest, rfl, ihb.2 ⟨σ, rest, rfl, h⟩⟩
      · exact .inr ⟨π, rest, rfl, h⟩

/-! ## Joining sets -/

theorem covers_addBottom : s.addBottom.Covers false τ ↔ τ = [] ∨ s.Covers false τ := by
  induction s with
  | none => simp [addBottom, Covers]
  | bottom => simp [addBottom, Covers]
  | branch ret below others _ ih =>
    rw [addBottom, Covers, ih, Covers]
    exact or_left_comm

theorem covers_addBranch {below : Stacks} {join : Stacks → Stacks}
    (hjoin : ∀ t σ, (join t).Covers wild σ ↔ below.Covers wild σ ∨ t.Covers wild σ) :
    (addBranch ret below join s).Covers wild τ ↔
      (∃ σ, τ = ret :: σ ∧ below.Covers wild σ) ∨ s.Covers wild τ := by
  induction s with
  | none => exact Iff.rfl
  | bottom => exact Iff.rfl
  | branch ret' below' others _ ih =>
    rw [addBranch]
    split
    · rename_i heq
      subst heq
      rw [Covers, Covers]
      constructor
      · rintro (⟨σ, rfl, hσ⟩ | h)
        · rcases (hjoin below' σ).1 hσ with hσ | hσ
          · exact .inl ⟨σ, rfl, hσ⟩
          · exact .inr (.inl ⟨σ, rfl, hσ⟩)
        · exact .inr (.inr h)
      · rintro (⟨σ, rfl, hσ⟩ | ⟨σ, rfl, hσ⟩ | h)
        · exact .inl ⟨σ, rfl, (hjoin below' σ).2 (.inl hσ)⟩
        · exact .inl ⟨σ, rfl, (hjoin below' σ).2 (.inr hσ)⟩
        · exact .inr h
    · split
      · exact Iff.rfl
      · rw [Covers, ih, Covers]
        exact or_left_comm

/-- **Joining two sets** gives what either of them stands for. -/
theorem covers_merge : (merge wild s t).Covers wild τ ↔ s.Covers wild τ ∨ t.Covers wild τ := by
  induction s generalizing t τ with
  | none => rw [merge, Covers, false_or]
  | bottom =>
    rw [merge, Covers]
    cases wild with
    | true => exact iff_of_true (.inl rfl) (.inl (.inl rfl))
    | false =>
      rw [if_neg nofun, covers_addBottom]
      simp
  | branch ret below others ihb iho =>
    rw [merge]
    split
    · rename_i h
      rw [Bool.and_eq_true] at h
      obtain ⟨rfl, hbottom⟩ := h
      exact iff_of_true (.inl rfl) (.inr (covers_of_hasBottom hbottom))
    · rw [covers_addBranch fun t σ => ihb, iho, Covers]
      exact or_assoc.symm

theorem covers_of_addBranch {below : Stacks} {join : Stacks → Stacks}
    (hjoin : ∀ t σ, (join t).Covers false σ → below.Covers false σ ∨ t.Covers false σ)
    (h : (addBranch ret below join s).Covers false τ) :
    (∃ σ, τ = ret :: σ ∧ below.Covers false σ) ∨ s.Covers false τ := by
  induction s with
  | none | bottom => exact h
  | branch ret' below' others _ ih =>
    rw [addBranch] at h
    split at h
    · rename_i heq
      subst heq
      rcases h with ⟨σ, rfl, hσ⟩ | h
      · exact (hjoin below' σ hσ).imp (fun hσ => ⟨σ, rfl, hσ⟩) fun hσ => .inl ⟨σ, rfl, hσ⟩
      · exact .inr (.inr h)
    · split at h
      · exact h
      · rcases h with h | h
        · exact .inr (.inl h)
        · exact (ih h).imp id .inr

/-- Joining two sets adds no stack that is in neither of them, although some may be lost. -/
theorem covers_of_merge (h : (merge wild s t).Covers false τ) :
    s.Covers false τ ∨ t.Covers false τ := by
  induction s generalizing t τ with
  | none => exact .inr h
  | bottom =>
    rw [merge] at h
    split at h
    · exact .inl h
    · exact (covers_addBottom.1 h).imp .inr id
  | branch ret below others ihb iho =>
    rw [merge] at h
    split at h
    · rename_i hbottom
      rw [Bool.and_eq_true] at hbottom
      obtain rfl := h.resolve_left nofun
      exact .inr (hasBottom_iff.1 hbottom.2)
    · rcases covers_of_addBranch (fun t σ => ihb) h with h | h
      · exact .inl (.inl h)
      · exact (iho h).imp .inr id

theorem All.addBottom (h : s.All P) : s.addBottom.All P := by
  induction s with
  | none | bottom => trivial
  | branch ret below others _ ih => exact ⟨h.1, h.2.1, ih h.2.2⟩

theorem All.addBranch {below : Stacks} {join : Stacks → Stacks} (hret : P ret)
    (hbelow : below.All P) (hjoin : ∀ t : Stacks, t.All P → (join t).All P) (h : s.All P) :
    (addBranch ret below join s).All P := by
  induction s with
  | none | bottom => exact ⟨hret, hbelow, trivial⟩
  | branch ret' below' others _ ih =>
    rw [Stacks.addBranch]
    split
    · exact ⟨hret, hjoin _ h.2.1, h.2.2⟩
    · split
      · exact ⟨hret, hbelow, h⟩
      · exact ⟨h.1, h.2.1, ih h.2.2⟩

theorem All.merge (hs : s.All P) (ht : t.All P) : (merge wild s t).All P := by
  induction s generalizing t with
  | none => exact ht
  | bottom =>
    rw [Stacks.merge]
    split
    · trivial
    · exact ht.addBottom
  | branch ret below others ihb iho =>
    rw [Stacks.merge]
    split
    · trivial
    · exact All.addBranch hs.1 hs.2.1 (fun t ht => ihb hs.2.1 ht) (iho hs.2.2 ht)

theorem All.of_mem_tops {below : Stacks} (h : s.All P) (hmem : (ret, below) ∈ s.tops) :
    P ret ∧ below.All P := by
  induction s with
  | none | bottom => cases hmem
  | branch ret' below' others _ ih =>
    rcases List.mem_cons.1 hmem with heq | hmem
    · obtain ⟨rfl, rfl⟩ := Prod.mk.inj heq
      exact ⟨h.1, h.2.1⟩
    · exact ih h.2.2 hmem

theorem All.of_covers (h : s.All P) (hτ : s.Covers false τ) : ∀ q ∈ τ, P q := by
  induction s generalizing τ with
  | none => exact hτ.elim
  | bottom =>
    obtain rfl := hτ.resolve_left nofun
    nofun
  | branch ret below others ihb iho =>
    rcases hτ with ⟨σ, rfl, hσ⟩ | hτ
    · exact List.forall_mem_cons.2 ⟨h.1, ihb h.2.1 hσ⟩
    · exact iho h.2.2 hτ

theorem all_ofList {σ : List Place} (h : ∀ q ∈ σ, P q) : (ofList σ).All P := by
  induction σ with
  | nil => trivial
  | cons ret σ ih =>
    obtain ⟨hret, hσ⟩ := List.forall_mem_cons.1 h
    exact ⟨hret, ih hσ, trivial⟩

theorem hasBottom_addBranch {below : Stacks} {join : Stacks → Stacks} :
    (addBranch ret below join s).hasBottom = s.hasBottom := by
  induction s with
  | none | bottom => rfl
  | branch ret' below' others _ ih =>
    rw [addBranch]
    split
    · rfl
    · split
      · rfl
      · exact ih

theorem Pure.addBranch {below : Stacks} {join : Stacks → Stacks} (hbelow : below.Pure)
    (hjoin : ∀ t : Stacks, t.Pure → (join t).Pure) (h : s.Pure) (hs : s.hasBottom = false) :
    (addBranch ret below join s).Pure := by
  induction s with
  | none => exact ⟨hbelow, rfl, trivial⟩
  | bottom => cases hs
  | branch ret' below' others _ ih =>
    rw [Stacks.addBranch]
    split
    · exact ⟨hjoin _ h.1, h.2⟩
    · split
      · exact ⟨hbelow, hs, h⟩
      · exact ⟨h.1, hasBottom_addBranch.trans h.2.1, ih h.2.2 h.2.1⟩

theorem Pure.hasBottom (h : s.Pure) : s = .bottom ∨ s.hasBottom = false := by
  cases s with
  | none => exact .inr rfl
  | bottom => exact .inl rfl
  | branch ret below others => exact .inr h.2.1

/-- The empty stack stays alone wherever sets are joined that have it. -/
theorem Pure.merge (hs : s.Pure) (ht : t.Pure) : (merge true s t).Pure := by
  have hjoin : (Stacks.merge true s t).Pure ∧ (s.hasBottom = false → t.hasBottom = false →
      (Stacks.merge true s t).hasBottom = false) := by
    induction s generalizing t with
    | none => exact ⟨ht, fun _ h => h⟩
    | bottom => exact ⟨trivial, nofun⟩
    | branch ret below others ihb iho =>
      rw [Stacks.merge]
      cases hbottom : t.hasBottom with
      | true => exact ⟨trivial, nofun⟩
      | false =>
        obtain ⟨hpure, hno⟩ := iho hs.2.2 ht
        have hrest := hno hs.2.1 hbottom
        rw [if_neg (by simp)]
        refine ⟨Pure.addBranch hs.1 (fun t ht => (ihb hs.1 ht).1) hpure hrest, fun _ _ => ?_⟩
        rw [hasBottom_addBranch, hrest]
  exact hjoin.1

theorem Pure.of_mem_tops {below : Stacks} (h : s.Pure) (hmem : (ret, below) ∈ s.tops) :
    below.Pure := by
  induction s with
  | none | bottom => cases hmem
  | branch ret' below' others _ ih =>
    rcases List.mem_cons.1 hmem with heq | hmem
    · obtain ⟨rfl, rfl⟩ := Prod.mk.inj heq
      exact h.1
    · exact ih h.2.2 hmem

/-! ## Sets with stacks in all parts -/

theorem Full.exists_covers (h : s.Full) : ∃ π, s.Covers false π := by
  induction s with
  | none => exact h.elim
  | bottom => exact ⟨[], .inr rfl⟩
  | branch ret below others ih _ =>
    obtain ⟨π, hπ⟩ := ih h.1
    exact ⟨ret :: π, .inl ⟨π, rfl, hπ⟩⟩

theorem Full.push (h : s.Full) (ret : Place) : (s.push ret).Full := ⟨h, .inl rfl⟩

theorem full_ofList (σ : List Place) : (ofList σ).Full := by
  induction σ with
  | nil => trivial
  | cons ret σ ih => exact ih.push ret

theorem Full.of_mem_tops {below : Stacks} (h : s.Full) (hmem : (ret, below) ∈ s.tops) :
    below.Full := by
  induction s with
  | none | bottom => cases hmem
  | branch ret' below' others _ ih =>
    rcases List.mem_cons.1 hmem with heq | hmem
    · obtain ⟨rfl, rfl⟩ := Prod.mk.inj heq
      exact h.1
    · rcases h.2 with rfl | hothers
      · cases hmem
      · exact ih hothers hmem

theorem full_addBottom (h : s = .none ∨ s.Full) : s.addBottom.Full := by
  induction s with
  | none | bottom => trivial
  | branch ret below others _ ih =>
    have hfull := h.resolve_left nofun
    exact ⟨hfull.1, .inr (ih hfull.2)⟩

theorem full_addBranch {below : Stacks} {join : Stacks → Stacks} (hbelow : below.Full)
    (hjoin : ∀ t : Stacks, t.Full → (join t).Full) (h : s = .none ∨ s.Full) :
    (addBranch ret below join s).Full := by
  induction s with
  | none => exact ⟨hbelow, .inl rfl⟩
  | bottom => exact ⟨hbelow, .inr trivial⟩
  | branch ret' below' others _ ih =>
    have hfull := h.resolve_left nofun
    rw [addBranch]
    split
    · exact ⟨hjoin _ hfull.1, hfull.2⟩
    · split
      · exact ⟨hbelow, .inr hfull⟩
      · exact ⟨hfull.1, .inr (ih hfull.2)⟩

theorem full_merge (hs : s = .none ∨ s.Full) (ht : t.Full) : (merge wild s t).Full := by
  induction s generalizing t with
  | none => exact ht
  | bottom =>
    rw [merge]
    split
    · trivial
    · exact full_addBottom (.inr ht)
  | branch ret below others ihb iho =>
    have hfull := hs.resolve_left nofun
    rw [merge]
    split
    · trivial
    · exact full_addBranch hfull.1 (fun t ht => ihb (.inr hfull.1) ht) (.inr (iho hfull.2 ht))

end

end Stacks

end JavaOutline
