import JavaOutline.Proofs.Grammar.Children

/-!
# How the children of a node are arranged

The children of a node in a derivation form a word of the right-hand side of its rule. Here such
words are taken apart again: `Piece.Yields` says that some trees form a word of a piece, and there is
one lemma for each kind of piece that says how the trees are then arranged. A rule that has its
clauses in order, each with a token of its own, can be asked for what follows that token
(`Tree.behind?`), wherever the other clauses are left out. A child that occurs at most once
(`Rule.atMost`) is the only one of its kind (`Tree.select_eq_toList_child?`).
-/

namespace JavaOutline

open Computability

namespace Piece

variable {p q : Piece} {alts : List Piece} {ts : List (Tree Token)}

/-- The trees are what the piece asks for. -/
def Yields (p : Piece) (ts : List (Tree Token)) : Prop :=
  ts.map (Tree.symbol Token.kind) ∈ p.words

theorem yields_token {k : Kind} :
    (token k).Yields ts ↔ ∃ t, ts = [t] ∧ t.symbol Token.kind = .token k :=
  List.map_eq_singleton_iff

theorem yields_call {r : Rule} {level : Nat} :
    (call r level).Yields ts ↔ ∃ role cs, ts = [.node role r cs] := by
  constructor
  · intro h
    obtain ⟨t, rfl, ht⟩ := List.map_eq_singleton_iff.1
      (show ts.map (Tree.symbol Token.kind) = [.rule r] from h)
    cases t with
    | node role r' cs =>
      obtain rfl : r' = r := by simpa [Tree.symbol] using ht
      exact ⟨role, cs, rfl⟩
    | token | skipped | missing => cases ht
  · rintro ⟨role, cs, rfl⟩
    rfl

theorem yields_andThen :
    (andThen p q).Yields ts ↔ ∃ us vs, ts = us ++ vs ∧ p.Yields us ∧ q.Yields vs := by
  unfold Yields
  rw [words_andThen, Language.mem_mul]
  constructor
  · rintro ⟨u, hu, v, hv, huv⟩
    obtain ⟨us, vs, rfl, rfl, rfl⟩ := List.map_eq_append_iff.1 huv.symm
    exact ⟨us, vs, rfl, hu, hv⟩
  · rintro ⟨us, vs, rfl, hus, hvs⟩
    exact ⟨_, hus, _, hvs, List.map_append.symm⟩

theorem yields_choice : (choice alts).Yields ts ↔ ∃ p ∈ alts, p.Yields ts := mem_anyWords

theorem yields_optional : (optional alts).Yields ts ↔ ts = [] ∨ ∃ p ∈ alts, p.Yields ts := by
  unfold Yields
  rw [words_optional, Language.mem_add, Language.mem_one, List.map_eq_nil_iff, mem_anyWords]

mutual

/-- Does the symbol `a` occur at most `n` times in every word of the piece? -/
def atMost (a : Symbol) (n : Nat) : Piece → Bool
  | .nothing | .guard _ => true
  | .token k => a ≠ .token k || 1 ≤ n
  | .oneOf ks => (ks.all fun k => a ≠ .token k) || 1 ≤ n
  | .call r _ => a ≠ .rule r || 1 ≤ n
  | .named _ p => p.atMost a n
  | .andThen p q => (p.atMost a n && q.atMost a 0) || (p.atMost a 0 && q.atMost a n)
  | .choice alts | .optional alts => allAtMost a n alts
  | .many alts | .many1 alts => allAtMost a 0 alts

/-- The same for every alternative. -/
def allAtMost (a : Symbol) (n : Nat) : List Piece → Bool
  | [] => true
  | p :: ps => p.atMost a n && allAtMost a n ps

end

theorem count_singleton_le {a b : Symbol} {n : Nat} (h : a ≠ b ∨ 1 ≤ n) : [b].count a ≤ n := by
  rcases h with h | h
  · rw [List.count_singleton, if_neg (by simpa using h.symm)]
    exact Nat.zero_le n
  · exact List.count_le_length.trans h

theorem count_eq_zero_of_kstar {L : Language Symbol} {a : Symbol}
    (h : ∀ w ∈ L, w.count a ≤ 0) : ∀ w ∈ L∗, w.count a ≤ 0 :=
  forall_mem_kstar (P := fun w => w.count a ≤ 0) Nat.le.refl
    (fun u v hu hv => by rw [List.count_append]; exact Nat.add_le_add hu hv) h

mutual

theorem count_le_of_atMost {a : Symbol} : ∀ {p : Piece} {n : Nat} {w : List Symbol},
    p.atMost a n = true → w ∈ p.words → w.count a ≤ n
  | .nothing, n, w, _, hw | .guard _, n, w, _, hw => by
    obtain rfl : w = [] := hw
    exact Nat.zero_le n
  | .token k, n, w, h, hw => by
    obtain rfl : w = [.token k] := hw
    exact count_singleton_le (by simpa [atMost] using h)
  | .oneOf ks, n, w, h, hw => by
    obtain ⟨k, hk, rfl⟩ := mem_words_oneOf.1 hw
    rw [atMost, Bool.or_eq_true, List.all_eq_true] at h
    exact count_singleton_le (h.imp (fun h => by simpa using h k hk) of_decide_eq_true)
  | .call r _, n, w, h, hw => by
    obtain rfl : w = [.rule r] := hw
    exact count_singleton_le (by simpa [atMost] using h)
  | .named _ p, _, _, h, hw => count_le_of_atMost (p := p) h hw
  | .andThen p q, n, w, h, hw => by
    rw [words_andThen, Language.mem_mul] at hw
    obtain ⟨u, hu, v, hv, rfl⟩ := hw
    rw [atMost, Bool.or_eq_true, Bool.and_eq_true, Bool.and_eq_true] at h
    rw [List.count_append]
    rcases h with ⟨hp, hq⟩ | ⟨hp, hq⟩
    · exact Nat.add_le_add (count_le_of_atMost hp hu) (count_le_of_atMost hq hv)
    · have hle := Nat.add_le_add (count_le_of_atMost hp hu) (count_le_of_atMost hq hv)
      rwa [Nat.zero_add] at hle
  | .choice alts, _, _, h, hw => count_le_of_allAtMost alts h hw
  | .optional alts, n, w, h, hw => by
    rw [words_optional, Language.mem_add, Language.mem_one] at hw
    rcases hw with rfl | hw
    · exact Nat.zero_le n
    · exact count_le_of_allAtMost alts h hw
  | .many alts, n, w, h, hw =>
    (count_eq_zero_of_kstar (fun u hu => count_le_of_allAtMost alts h hu) w hw).trans
      (Nat.zero_le n)
  | .many1 alts, n, w, h, hw => by
    rw [words_many1, Language.mem_mul] at hw
    obtain ⟨u, hu, v, hv, rfl⟩ := hw
    rw [List.count_append]
    have hle := Nat.add_le_add (count_le_of_allAtMost alts h hu)
      (count_eq_zero_of_kstar (fun u hu => count_le_of_allAtMost alts h hu) v hv)
    exact hle.trans (Nat.zero_le n)

theorem count_le_of_allAtMost {a : Symbol} : ∀ (alts : List Piece) {n : Nat} {w : List Symbol},
    allAtMost a n alts = true → w ∈ anyWords alts → w.count a ≤ n
  | [], _, _, _, hw => (notMem_anyWords_nil hw).elim
  | p :: ps, n, w, h, hw => by
    rw [allAtMost, Bool.and_eq_true] at h
    rcases mem_anyWords_cons.1 hw with hw | hw
    · exact count_le_of_atMost h.1 hw
    · exact count_le_of_allAtMost ps h.2 hw

end

end Piece

/-- The children of a node are what its right-hand side asks for. -/
theorem Rule.yields_of_language {r : Rule} {p : Piece} {children : List (Tree Token)}
    (h : r.body = .plain p) (hw : children.map (Tree.symbol Token.kind) ∈ r.language) :
    p.Yields children := by
  rwa [Rule.language_plain h] at hw

/-- Does the symbol `a` occur at most `n` times in every word of the rule? -/
def Rule.atMost (r : Rule) (a : Symbol) (n : Nat) : Bool :=
  match r.body with
  | .plain p => p.atMost a n
  | .operators _ _ => false

theorem Rule.count_le_of_atMost {r : Rule} {a : Symbol} {n : Nat} {w : List Symbol}
    (h : r.atMost a n = true) (hw : w ∈ r.language) : w.count a ≤ n := by
  unfold atMost at h
  split at h
  · rename_i p hp
    rw [language_plain hp] at hw
    exact Piece.count_le_of_atMost h hw
  · cases h

namespace Tree

variable {a : Symbol} {t : Tree Token} {ts us : List (Tree Token)}

theorem symbol_node {α : Type} {kind : α → Kind} (role : Option Role) (r : Rule)
    (cs : List (Tree α)) : (node role r cs).symbol kind = .rule r := rfl

theorem select_nil : select a [] = [] := rfl

theorem select_append : select a (ts ++ us) = select a ts ++ select a us :=
  List.filter_append _ _

theorem select_cons :
    select a (t :: ts) = if t.symbol Token.kind = a then t :: select a ts else select a ts := by
  rw [select, List.filter_cons, if_congr (isA_iff a t) rfl rfl]
  rfl

theorem length_select : (select a ts).length = (ts.map (symbol Token.kind)).count a := by
  rw [select, ← List.countP_eq_length_filter, List.count, List.countP_map]
  refine List.countP_congr fun t _ => ?_
  rw [isA_iff, Function.comp_apply, beq_iff_eq]

/-- What occurs nowhere in a piece is not among the trees that the piece asks for. -/
theorem select_eq_nil_of_yields {p : Piece} (h : p.atMost a 0 = true) (hp : p.Yields ts) :
    select a ts = [] := by
  refine List.eq_nil_of_length_eq_zero (Nat.le_zero.1 ?_)
  rw [length_select]
  exact Piece.count_le_of_atMost h hp

/-- The first child of a rule is the only one where there can be at most one. -/
theorem select_eq_toList_child? {r q : Rule} (h : r.atMost (.rule q) 1 = true)
    (hw : ts.map (symbol Token.kind) ∈ r.language) :
    select (.rule q) ts = (child? q ts).toList := by
  have hlength : (select (.rule q) ts).length ≤ 1 := by
    rw [length_select]
    exact Rule.count_le_of_atMost h hw
  rw [child?]
  rcases hselect : select (.rule q) ts with _ | ⟨t, _ | ⟨t', rest⟩⟩
  · rfl
  · rfl
  · rw [hselect] at hlength
    simp at hlength

/-- The child right behind the first token of a kind. -/
def behind? (k : Kind) : List (Tree Token) → Option (Tree Token)
  | [] => none
  | t :: ts => if t.isA (.token k) then ts.head? else behind? k ts

theorem behind?_nil {k : Kind} : behind? k [] = none := rfl

theorem behind?_cons {k : Kind} :
    behind? k (t :: ts) = if t.symbol Token.kind = .token k then ts.head? else behind? k ts :=
  if_congr (isA_iff _ t) rfl rfl

end Tree

end JavaOutline
