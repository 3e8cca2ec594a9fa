import JavaOutline.Proofs.Grammar.Language
import JavaOutline.Proofs.Parser.Trail
import JavaOutline.Tree.Query

/-!
# The children of the nodes of a derivation

What the children of a node can be follows from the right-hand side of its rule. `Piece.always` says
that each word of a piece has a symbol, `Piece.entails` that each word with one symbol has another
one too, and `Piece.within` that only some kinds and rules occur. The lemmas at the end of the file
turn this into statements about the nodes of a derivation: a child that is always there can be asked
for (`Tree.exists_child`), and what occurs below a node is reached from its rule
(`Tree.Derives.nodes_within`, `Tree.Derives.leaves_within`).
-/

namespace JavaOutline

open Computability

/-- Is the symbol a token of the kinds `K` or one of the rules `R`? -/
def Accessor.within (K : Kind → Bool) (R : Rule → Bool) : Symbol → Bool
  | .token k => K k
  | .rule r => R r

namespace Piece

mutual

/-- Has every word of the piece the symbol `a`? -/
def always (a : Symbol) : Piece → Bool
  | .nothing | .guard _ | .optional _ | .many _ => false
  | .token k => a = .token k
  | .oneOf ks => ks.all fun k => a = .token k
  | .call r _ => a = .rule r
  | .named _ p => p.always a
  | .andThen p q => p.always a || q.always a
  | .choice alts | .many1 alts => allAlways a alts

/-- Has every word of every alternative the symbol `a`? -/
def allAlways (a : Symbol) : List Piece → Bool
  | [] => true
  | p :: ps => p.always a && allAlways a ps

end

mutual

/-- Has every word of the piece that has the symbol `a` the symbol `b` too? -/
def entails (a b : Symbol) : Piece → Bool
  | .nothing | .guard _ => true
  | .token k => a ≠ .token k
  | .oneOf ks => ks.all fun k => a ≠ .token k
  | .call r _ => a ≠ .rule r
  | .named _ p => p.entails a b
  | .andThen p q => p.always b || q.always b || (p.entails a b && q.entails a b)
  | .choice alts | .optional alts | .many alts | .many1 alts => allEntail a b alts

/-- The same for every alternative. -/
def allEntail (a b : Symbol) : List Piece → Bool
  | [] => true
  | p :: ps => p.entails a b && allEntail a b ps

end

/-- What holds of nothing, of the words of a language and of two words together if it holds of both
holds of the words of its star. -/
theorem forall_mem_kstar {L : Language Symbol} {P : List Symbol → Prop} (hnil : P [])
    (happend : ∀ u v, P u → P v → P (u ++ v)) (hL : ∀ w ∈ L, P w) : ∀ w ∈ L∗, P w := by
  rintro w ⟨words, rfl, hwords⟩
  induction words with
  | nil => exact hnil
  | cons u us ih =>
    rw [List.flatten_cons]
    exact happend u _ (hL u (hwords u (by simp))) (ih fun v hv => hwords v (List.mem_cons_of_mem u hv))

theorem mem_append_imp {a b : Symbol} {u v : List Symbol} (hu : a ∈ u → b ∈ u)
    (hv : a ∈ v → b ∈ v) (h : a ∈ u ++ v) : b ∈ u ++ v := by
  rcases List.mem_append.1 h with h | h
  · exact List.mem_append_left v (hu h)
  · exact List.mem_append_right u (hv h)

mutual

/-- A symbol that is always there is in every word. -/
theorem mem_of_always {a : Symbol} : ∀ {p : Piece} {w : List Symbol}, p.always a = true →
    w ∈ p.words → a ∈ w
  | .nothing, _, h, _ | .guard _, _, h, _ | .optional _, _, h, _ | .many _, _, h, _ => by
    simp [always] at h
  | .token k, w, h, hw => by
    obtain rfl : a = .token k := by simpa [always] using h
    obtain rfl : w = [.token k] := hw
    exact List.mem_singleton.2 rfl
  | .oneOf ks, w, h, hw => by
    obtain ⟨k, hk, rfl⟩ := mem_words_oneOf.1 hw
    have ha := List.all_eq_true.1 h k hk
    exact List.mem_singleton.2 (by simpa using ha)
  | .call r _, w, h, hw => by
    obtain rfl : a = .rule r := by simpa [always] using h
    obtain rfl : w = [.rule r] := hw
    exact List.mem_singleton.2 rfl
  | .named _ p, _, h, hw => mem_of_always (p := p) h hw
  | .andThen p q, w, h, hw => by
    rw [words_andThen, Language.mem_mul] at hw
    obtain ⟨u, hu, v, hv, rfl⟩ := hw
    rw [always, Bool.or_eq_true] at h
    rcases h with h | h
    · exact List.mem_append_left v (mem_of_always h hu)
    · exact List.mem_append_right u (mem_of_always h hv)
  | .choice alts, w, h, hw => mem_of_allAlways alts h hw
  | .many1 alts, w, h, hw => by
    rw [words_many1, Language.mem_mul] at hw
    obtain ⟨u, hu, v, -, rfl⟩ := hw
    exact List.mem_append_left v (mem_of_allAlways alts h hu)

/-- `mem_of_always` for alternatives. -/
theorem mem_of_allAlways {a : Symbol} : ∀ (alts : List Piece) {w : List Symbol},
    allAlways a alts = true → w ∈ anyWords alts → a ∈ w
  | [], _, _, hw => (notMem_anyWords_nil hw).elim
  | p :: ps, w, h, hw => by
    rw [allAlways, Bool.and_eq_true] at h
    rcases mem_anyWords_cons.1 hw with hw | hw
    · exact mem_of_always h.1 hw
    · exact mem_of_allAlways ps h.2 hw

end

mutual

/-- A symbol that another one entails is in every word that has that one. -/
theorem mem_of_entails {a b : Symbol} : ∀ {p : Piece} {w : List Symbol}, p.entails a b = true →
    w ∈ p.words → a ∈ w → b ∈ w
  | .nothing, w, _, hw, ha | .guard _, w, _, hw, ha => by
    obtain rfl : w = [] := hw
    cases ha
  | .token k, w, h, hw, ha => by
    obtain rfl : w = [.token k] := hw
    exact absurd (List.mem_singleton.1 ha) (by simpa [entails] using h)
  | .oneOf ks, w, h, hw, ha => by
    obtain ⟨k, hk, rfl⟩ := mem_words_oneOf.1 hw
    have hne := List.all_eq_true.1 h k hk
    exact absurd (List.mem_singleton.1 ha) (by simpa using hne)
  | .call r _, w, h, hw, ha => by
    obtain rfl : w = [.rule r] := hw
    exact absurd (List.mem_singleton.1 ha) (by simpa [entails] using h)
  | .named _ p, _, h, hw, ha => mem_of_entails (p := p) h hw ha
  | .andThen p q, w, h, hw, ha => by
    rw [words_andThen, Language.mem_mul] at hw
    obtain ⟨u, hu, v, hv, rfl⟩ := hw
    rw [entails, Bool.or_eq_true, Bool.or_eq_true, Bool.and_eq_true] at h
    rcases h with (h | h) | ⟨hp, hq⟩
    · exact List.mem_append_left v (mem_of_always h hu)
    · exact List.mem_append_right u (mem_of_always h hv)
    · exact mem_append_imp (mem_of_entails hp hu) (mem_of_entails hq hv) ha
  | .choice alts, _, h, hw, ha => mem_of_allEntail alts h hw ha
  | .optional alts, w, h, hw, ha => by
    rw [words_optional, Language.mem_add, Language.mem_one] at hw
    rcases hw with rfl | hw
    · cases ha
    · exact mem_of_allEntail alts h hw ha
  | .many alts, w, h, hw, ha => by
    exact forall_mem_kstar (P := fun w => a ∈ w → b ∈ w) (by simp) (fun _ _ => mem_append_imp)
      (fun u hu => mem_of_allEntail alts h hu) w hw ha
  | .many1 alts, w, h, hw, ha => by
    rw [words_many1, Language.mem_mul] at hw
    obtain ⟨u, hu, v, hv, rfl⟩ := hw
    exact mem_append_imp (mem_of_allEntail alts h hu) (forall_mem_kstar
      (P := fun w => a ∈ w → b ∈ w) (by simp) (fun _ _ => mem_append_imp)
      (fun u hu => mem_of_allEntail alts h hu) v hv) ha

/-- `mem_of_entails` for alternatives. -/
theorem mem_of_allEntail {a b : Symbol} : ∀ (alts : List Piece) {w : List Symbol},
    allEntail a b alts = true → w ∈ anyWords alts → a ∈ w → b ∈ w
  | [], _, _, hw, _ => (notMem_anyWords_nil hw).elim
  | p :: ps, w, h, hw, ha => by
    rw [allEntail, Bool.and_eq_true] at h
    rcases mem_anyWords_cons.1 hw with hw | hw
    · exact mem_of_entails h.1 hw ha
    · exact mem_of_allEntail ps h.2 hw ha

end

mutual

/-- Where a piece keeps to some kinds and rules its words do. -/
theorem symbol_of_within {K : Kind → Bool} {R : Rule → Bool} : ∀ {p : Piece} {w : List Symbol},
    p.within K R = true → w ∈ p.words → ∀ a ∈ w, a.within K R = true
  | .nothing, w, _, hw, a, ha | .guard _, w, _, hw, a, ha => by
    obtain rfl : w = [] := hw
    cases ha
  | .token k, w, h, hw, a, ha => by
    obtain rfl : w = [.token k] := hw
    obtain rfl : a = .token k := List.mem_singleton.1 ha
    exact h
  | .oneOf ks, w, h, hw, a, ha => by
    obtain ⟨k, hk, rfl⟩ := mem_words_oneOf.1 hw
    obtain rfl : a = .token k := List.mem_singleton.1 ha
    exact List.all_eq_true.1 h k hk
  | .call r _, w, h, hw, a, ha => by
    obtain rfl : w = [.rule r] := hw
    obtain rfl : a = .rule r := List.mem_singleton.1 ha
    exact h
  | .named _ p, _, h, hw, a, ha => symbol_of_within (p := p) h hw a ha
  | .andThen p q, w, h, hw, a, ha => by
    rw [words_andThen, Language.mem_mul] at hw
    obtain ⟨u, hu, v, hv, rfl⟩ := hw
    rw [within, Bool.and_eq_true] at h
    rcases List.mem_append.1 ha with ha | ha
    · exact symbol_of_within h.1 hu a ha
    · exact symbol_of_within h.2 hv a ha
  | .choice alts, _, h, hw, a, ha => symbol_of_allWithin alts h hw a ha
  | .optional alts, w, h, hw, a, ha => by
    rw [words_optional, Language.mem_add, Language.mem_one] at hw
    rcases hw with rfl | hw
    · cases ha
    · exact symbol_of_allWithin alts h hw a ha
  | .many alts, w, h, hw, a, ha => by
    exact forall_mem_kstar (P := fun w => ∀ a ∈ w, a.within K R = true) (by simp)
      (fun u v hu hv => List.forall_mem_append.2 ⟨hu, hv⟩)
      (fun u hu => symbol_of_allWithin alts h hu) w hw a ha
  | .many1 alts, w, h, hw, a, ha => by
    rw [words_many1, Language.mem_mul] at hw
    obtain ⟨u, hu, v, hv, rfl⟩ := hw
    rcases List.mem_append.1 ha with ha | ha
    · exact symbol_of_allWithin alts h hu a ha
    · exact forall_mem_kstar (P := fun w => ∀ a ∈ w, a.within K R = true) (by simp)
        (fun u v hu hv => List.forall_mem_append.2 ⟨hu, hv⟩)
        (fun u hu => symbol_of_allWithin alts h hu) v hv a ha

/-- `symbol_of_within` for alternatives. -/
theorem symbol_of_allWithin {K : Kind → Bool} {R : Rule → Bool} : ∀ (alts : List Piece)
    {w : List Symbol}, allWithin K R alts = true → w ∈ anyWords alts →
    ∀ a ∈ w, a.within K R = true
  | [], _, _, hw, _, _ => (notMem_anyWords_nil hw).elim
  | p :: ps, w, h, hw, a, ha => by
    rw [allWithin, Bool.and_eq_true] at h
    rcases mem_anyWords_cons.1 hw with hw | hw
    · exact symbol_of_within h.1 hw a ha
    · exact symbol_of_allWithin ps h.2 hw a ha

end

/-- Where a piece keeps to some rules its words do. -/
theorem rule_of_within {K : Kind → Bool} {R : Rule → Bool} {p : Piece} {w : List Symbol}
    (h : p.within K R = true) (hw : w ∈ p.words) (r : Rule) (hr : .rule r ∈ w) : R r = true :=
  symbol_of_within h hw (.rule r) hr

end Piece

namespace Rule

variable {r q : Rule} {w : List Symbol}

/-- Has every word of the rule the symbol `a`? -/
def always (r : Rule) (a : Symbol) : Bool :=
  match r.body with
  | .plain p => p.always a
  | .operators _ _ => false

/-- Has every word of the rule that has the symbol `a` the symbol `b` too? -/
def entails (r : Rule) (a b : Symbol) : Bool :=
  match r.body with
  | .plain p => p.entails a b
  | .operators _ _ => false

theorem mem_of_always {a : Symbol} (h : r.always a = true) (hw : w ∈ r.language) : a ∈ w := by
  unfold always at h
  split at h
  · rename_i p hp
    rw [language_plain hp] at hw
    exact Piece.mem_of_always h hw
  · cases h

theorem mem_of_entails {a b : Symbol} (h : r.entails a b = true) (hw : w ∈ r.language)
    (ha : a ∈ w) : b ∈ w := by
  unfold entails at h
  split at h
  · rename_i p hp
    rw [language_plain hp] at hw
    exact Piece.mem_of_entails h hw ha
  · cases h

/-- Where a right-hand side keeps to some kinds and rules, its rule among them, its words do. -/
theorem symbol_of_language {K : Kind → Bool} {R : Rule → Bool} (h : r.body.within K R = true)
    (hr : R r = true) (hw : w ∈ r.language) {a : Symbol} (ha : a ∈ w) : a.within K R = true := by
  cases hbody : r.body with
  | plain p =>
    rw [hbody] at h
    rw [language_plain hbody] at hw
    exact Piece.symbol_of_within h hw a ha
  | operators atoms suffixes =>
    rw [hbody, Body.within, Body.piece, Piece.within, Bool.and_eq_true] at h
    rw [language_operators hbody, Language.mem_add] at hw
    rcases hw with hw | hw
    · exact Piece.symbol_of_allWithin atoms h.1 hw a ha
    · obtain ⟨u, hu, v, hv, rfl⟩ := Language.mem_mul.1 hw
      obtain rfl : u = [.rule r] := hu
      rcases List.mem_append.1 ha with ha | ha
      · obtain rfl : a = .rule r := List.mem_singleton.1 ha
        exact hr
      · -- A rest of an operator is part of the operator with its guard.
        obtain ⟨rest, hrest, hv⟩ := Piece.mem_anyWords.1 hv
        obtain ⟨suffix, hsuffix, rfl⟩ := List.mem_map.1 hrest
        have hpiece := (Piece.allWithin_iff _).1 h.2 suffix.piece (List.mem_map_of_mem hsuffix)
        rw [Suffix.piece, Piece.within, Bool.and_eq_true] at hpiece
        exact Piece.symbol_of_within hpiece.2 hv a ha

theorem rule_of_language {K : Kind → Bool} {R : Rule → Bool} (h : r.body.within K R = true)
    (hr : R r = true) (hw : w ∈ r.language) (hq : .rule q ∈ w) : R q = true :=
  symbol_of_language h hr hw hq

end Rule

/-! ## Trees -/

namespace Tree

variable {r q : Rule} {children : List (Tree Token)}

/-- A tree belongs to its symbol. -/
theorem isA_iff (a : Symbol) (t : Tree Token) : t.isA a = true ↔ t.symbol Token.kind = a := by
  cases t <;> simp [isA, symbol, eq_comm]

theorem select_isEmpty_iff (a : Symbol) :
    (select a children).isEmpty = true ↔ a ∉ children.map (symbol Token.kind) := by
  rw [select, List.isEmpty_iff, List.filter_eq_nil_iff, List.mem_map]
  constructor
  · rintro h ⟨t, ht, rfl⟩
    exact h t ht ((isA_iff _ t).2 rfl)
  · intro h t ht ha
    exact h ⟨t, ht, (isA_iff a t).1 ha⟩

/-- Where a rule is among the symbols of the children it can be asked for. -/
theorem exists_child? (h : .rule q ∈ children.map (symbol Token.kind)) :
    ∃ role cs, child? q children = some (.node role q cs) ∧ .node role q cs ∈ children := by
  obtain ⟨t, hchild⟩ : ∃ t, child? q children = some t := by
    rw [child?]
    cases hselect : select (.rule q) children with
    | nil => exact absurd h ((select_isEmpty_iff _).1 (by rw [hselect]; rfl))
    | cons t ts => exact ⟨t, rfl⟩
  have ht : t ∈ select (.rule q) children := List.mem_of_mem_head? hchild
  rw [select, List.mem_filter, isA_iff] at ht
  cases t with
  | node role r' cs =>
    obtain rfl : r' = q := by simpa [symbol] using ht.2
    exact ⟨role, cs, hchild, ht.1⟩
  | token | skipped | missing => simp [symbol] at ht

/-- A child that is always there can be asked for. -/
theorem exists_child (hw : children.map (symbol Token.kind) ∈ r.language)
    (h : r.always (.rule q) = true) :
    ∃ role cs, child? q children = some (.node role q cs) ∧ .node role q cs ∈ children :=
  exists_child? (Rule.mem_of_always h hw)

section
variable {α : Type} {kind : α → Kind} {K : Kind → Bool} {R : Rule → Bool}

mutual

/-- Below a node there are only rules that its rule leads to. -/
theorem Derives.nodes_within (hR : ∀ r, R r = true → r.body.within K R = true) :
    ∀ {t : Tree α}, t.Derives kind → (∀ r, t.symbol kind = .rule r → R r = true) →
      ∀ n ∈ t.nodes, R n.1 = true
  | .token _ _, _, _, _, hn => by simp [nodes] at hn
  | .skipped _, h, _, _, _ | .missing _, h, _, _, _ => h.elim
  | .node _ r children, h, hr, n, hn => by
    have hroot := hr r rfl
    rcases List.mem_cons.1 hn with rfl | hn
    · exact hroot
    · refine DerivesAll.nodes_within hR h.2 (fun t ht q hq => ?_) n hn
      exact Rule.rule_of_language (hR r hroot) hroot h.1 (hq ▸ List.mem_map_of_mem ht)

/-- Below several trees there are only rules that their rules lead to. -/
theorem DerivesAll.nodes_within (hR : ∀ r, R r = true → r.body.within K R = true) :
    ∀ {ts : List (Tree α)}, DerivesAll kind ts →
      (∀ t ∈ ts, ∀ r, t.symbol kind = .rule r → R r = true) → ∀ n ∈ nodesAll ts, R n.1 = true
  | [], _, _, _, hn => by simp [nodesAll] at hn
  | t :: ts, h, hts, n, hn => by
    rcases List.mem_append.1 hn with hn | hn
    · exact Derives.nodes_within hR h.1 (hts t (by simp)) n hn
    · exact DerivesAll.nodes_within hR h.2 (fun u hu => hts u (List.mem_cons_of_mem t hu)) n hn

end

mutual

/-- A tree has only leaves of the kinds that its rule leads to. -/
theorem Derives.leaves_within (hR : ∀ r, R r = true → r.body.within K R = true) :
    ∀ {t : Tree α}, t.Derives kind → (t.symbol kind).within K R = true →
      ∀ a ∈ t.leaves, K (kind a) = true
  | .token _ b, _, ht, a, ha => by
    obtain rfl : a = b := List.mem_singleton.1 ha
    exact ht
  | .skipped _, h, _, _, _ | .missing _, h, _, _, _ => h.elim
  | .node _ r children, h, hr, a, ha => by
    refine DerivesAll.leaves_within hR h.2 (fun t ht => ?_) a ha
    exact Rule.symbol_of_language (hR r hr) hr h.1 (List.mem_map_of_mem ht)

/-- Several trees have only leaves of the kinds that their rules lead to. -/
theorem DerivesAll.leaves_within (hR : ∀ r, R r = true → r.body.within K R = true) :
    ∀ {ts : List (Tree α)}, DerivesAll kind ts →
      (∀ t ∈ ts, (t.symbol kind).within K R = true) → ∀ a ∈ leavesAll ts, K (kind a) = true
  | [], _, _, _, ha => by simp at ha
  | t :: ts, h, hts, a, ha => by
    rcases List.mem_append.1 ha with ha | ha
    · exact Derives.leaves_within hR h.1 (hts t (by simp)) a ha
    · exact DerivesAll.leaves_within hR h.2 (fun u hu => hts u (List.mem_cons_of_mem t hu)) a ha

end

end

end Tree

end JavaOutline
