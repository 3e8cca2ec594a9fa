import Mathlib.Computability.RegularExpressions
import JavaOutline.Grammar.Accessor
import JavaOutline.Grammar.Java
import JavaOutline.Proofs.Tree.Leaves
import JavaOutline.Tree.Walk

/-!
# Derivation trees

A right-hand side is a regular expression over tokens and rules: `Piece.regular` is that expression,
with levels, guards and names left out, since they only say which derivation is meant. A rule that
applies operators has the alternatives that the grammar gives it: an atom, or the rule itself
followed by an operator's rest (`Body.regular`).

`Tree.Derives` says that a tree is a derivation: at every node the tokens and rules of the children
form a word of the right-hand side, and no leaf comes from error recovery.
-/

namespace JavaOutline

open Computability

/-- What the children of a node are: tokens and rules. -/
abbrev Symbol := Accessor

namespace Piece

mutual

/-- The piece as a regular expression. -/
def regular : Piece → RegularExpression Symbol
  | .nothing | .guard _ => 1
  | .token k => .char (.token k)
  | .oneOf ks => (ks.map fun k => .char (.token k)).sum
  | .call r _ => .char (.rule r)
  | .named _ p => p.regular
  | .andThen p q => p.regular * q.regular
  | .choice alts => anyRegular alts
  | .optional alts => 1 + anyRegular alts
  | .many alts => (anyRegular alts).star
  | .many1 alts => anyRegular alts * (anyRegular alts).star

/-- One of the alternatives, as a regular expression. -/
def anyRegular : List Piece → RegularExpression Symbol
  | [] => 0
  | p :: ps => p.regular + anyRegular ps

end

/-- The words of tokens and rules that a piece derives. -/
def words (p : Piece) : Language Symbol := p.regular.matches'

/-- The words that one of the alternatives derives. -/
def anyWords (alts : List Piece) : Language Symbol := (anyRegular alts).matches'

section
variable {p q : Piece} {alts : List Piece} {w : List Symbol}

theorem notMem_anyWords_nil : w ∉ anyWords [] := Language.notMem_zero w

theorem mem_anyWords_cons : w ∈ anyWords (p :: alts) ↔ w ∈ p.words ∨ w ∈ anyWords alts := by
  unfold anyWords words
  rw [anyRegular, RegularExpression.matches'_add, Language.mem_add]

/-- Each word of alternatives is a word of one of them. -/
theorem mem_anyWords : w ∈ anyWords alts ↔ ∃ p ∈ alts, w ∈ p.words := by
  induction alts with
  | nil => exact iff_of_false notMem_anyWords_nil (by simp)
  | cons p ps ih =>
    rw [mem_anyWords_cons, ih]
    simp

@[simp] theorem words_nothing : words .nothing = 1 := rfl

@[simp] theorem words_guard (level : Nat) : words (.guard level) = 1 := rfl

@[simp] theorem words_token (k : Kind) : words (.token k) = {[.token k]} := rfl

@[simp] theorem words_call (r : Rule) (level : Nat) : words (.call r level) = {[.rule r]} := rfl

theorem mem_words_oneOf {ks : List Kind} : w ∈ words (.oneOf ks) ↔ ∃ k ∈ ks, w = [.token k] := by
  unfold words regular
  induction ks with
  | nil => exact iff_of_false (Language.notMem_zero w) (by simp)
  | cons k ks ih =>
    have hchar : w ∈ (RegularExpression.char (Accessor.token k)).matches' ↔ w = [.token k] := Iff.rfl
    rw [List.map_cons, List.sum_cons, RegularExpression.matches'_add, Language.mem_add, ih, hchar]
    simp

@[simp] theorem words_named (role : Role) (p : Piece) : words (.named role p) = p.words := rfl

@[simp] theorem words_andThen (p q : Piece) : words (.andThen p q) = p.words * q.words := rfl

@[simp] theorem words_choice (alts : List Piece) : words (.choice alts) = anyWords alts := rfl

@[simp] theorem words_optional (alts : List Piece) :
    words (.optional alts) = 1 + anyWords alts := rfl

@[simp] theorem words_many (alts : List Piece) : words (.many alts) = (anyWords alts)∗ := rfl

@[simp] theorem words_many1 (alts : List Piece) :
    words (.many1 alts) = anyWords alts * (anyWords alts)∗ := rfl

end

end Piece

/-- The right-hand side of the rule `r` as a regular expression. -/
def Body.regular (r : Rule) : Body → RegularExpression Symbol
  | .plain p => p.regular
  | .operators atoms suffixes =>
    Piece.anyRegular atoms + .char (.rule r) * Piece.anyRegular (suffixes.map Suffix.rest)

/-- The words that the right-hand side of a rule derives. -/
def Rule.language (r : Rule) : Language Symbol := (r.body.regular r).matches'

namespace Rule

variable {r : Rule}

theorem language_plain {p : Piece} (h : r.body = .plain p) : r.language = p.words := by
  rw [language, h]
  rfl

theorem language_operators {atoms : List Piece} {suffixes : List Suffix}
    (h : r.body = .operators atoms suffixes) :
    r.language = Piece.anyWords atoms + {[.rule r]} * Piece.anyWords (suffixes.map Suffix.rest) := by
  rw [language, h]
  rfl

end Rule

/-! ## Trees -/

namespace Tree

variable {α β : Type}

/-- The token or rule at the root of a tree, where `kind` is the kind of the token at a leaf. -/
def symbol (kind : α → Kind) : Tree α → Symbol
  | .token _ a | .skipped a => .token (kind a)
  | .missing k => .token k
  | .node _ r _ => .rule r

mutual

/-- The tree is a derivation: no leaf comes from error recovery, and at every node the children
form a word of the right-hand side. -/
def Derives (kind : α → Kind) : Tree α → Prop
  | .token _ _ => True
  | .skipped _ | .missing _ => False
  | .node _ r children => children.map (symbol kind) ∈ r.language ∧ DerivesAll kind children

/-- All the trees are derivations. -/
def DerivesAll (kind : α → Kind) : List (Tree α) → Prop
  | [] => True
  | t :: ts => t.Derives kind ∧ DerivesAll kind ts

end

variable {kind : α → Kind}

/-- `DerivesAll` in the natural per-element form. -/
theorem derivesAll_iff (ts : List (Tree α)) : DerivesAll kind ts ↔ ∀ t ∈ ts, t.Derives kind := by
  induction ts with
  | nil => simp [DerivesAll]
  | cons t ts ih => simp [DerivesAll, ih]

@[simp] theorem derivesAll_nil : DerivesAll kind ([] : List (Tree α)) := trivial

@[simp] theorem derivesAll_append (ts us : List (Tree α)) :
    DerivesAll kind (ts ++ us) ↔ DerivesAll kind ts ∧ DerivesAll kind us := by
  simp only [derivesAll_iff, List.forall_mem_append]

@[simp] theorem symbol_withRole (role : Role) (t : Tree α) :
    (t.withRole role).symbol kind = t.symbol kind := by
  cases t <;> rfl

@[simp] theorem derives_withRole (role : Role) (t : Tree α) :
    (t.withRole role).Derives kind ↔ t.Derives kind := by
  cases t <;> rfl

/-- A name for the last tree does not change what the trees are. -/
@[simp] theorem map_symbol_lastWithRole (role : Role) (ts : List (Tree α)) :
    (lastWithRole role ts).map (symbol kind) = ts.map (symbol kind) := by
  fun_induction lastWithRole role ts <;> simp_all

/-- A name for the last tree does not change what is derived. -/
@[simp] theorem derivesAll_lastWithRole (role : Role) (ts : List (Tree α)) :
    DerivesAll kind (lastWithRole role ts) ↔ DerivesAll kind ts := by
  fun_induction lastWithRole role ts <;> simp_all [DerivesAll]

mutual

/-- In a derivation no token has been skipped or assumed. -/
theorem Derives.intact : ∀ {t : Tree α}, t.Derives kind → t.Intact
  | .token _ _, _ => trivial
  | .skipped _, h | .missing _, h => h.elim
  | .node _ _ _, h => DerivesAll.intactAll h.2

/-- In derivations no token has been skipped or assumed. -/
theorem DerivesAll.intactAll : ∀ {ts : List (Tree α)}, DerivesAll kind ts → IntactAll ts
  | [], _ => trivial
  | _ :: _, h => ⟨h.1.intact, DerivesAll.intactAll h.2⟩

end

mutual

/-- In a derivation the children of every node form a word of the right-hand side and are
derivations themselves. -/
theorem Derives.of_mem_nodes : ∀ {t : Tree α}, t.Derives kind →
    ∀ n ∈ t.nodes, n.2.map (symbol kind) ∈ n.1.language ∧ DerivesAll kind n.2
  | .token _ _, _, _, hn => by simp [nodes] at hn
  | .skipped _, h, _, _ | .missing _, h, _, _ => h.elim
  | .node _ _ _, h, n, hn => by
    rcases List.mem_cons.1 hn with rfl | hn
    · exact h
    · exact DerivesAll.of_mem_nodesAll h.2 n hn

/-- `Derives.of_mem_nodes` for several trees. -/
theorem DerivesAll.of_mem_nodesAll : ∀ {ts : List (Tree α)}, DerivesAll kind ts →
    ∀ n ∈ nodesAll ts, n.2.map (symbol kind) ∈ n.1.language ∧ DerivesAll kind n.2
  | [], _, _, hn => by simp [nodesAll] at hn
  | _ :: _, h, n, hn => by
    rcases List.mem_append.1 hn with hn | hn
    · exact h.1.of_mem_nodes n hn
    · exact DerivesAll.of_mem_nodesAll h.2 n hn

end

theorem nodesAll_eq_flatMap {ts : List (Tree α)} : nodesAll ts = ts.flatMap nodes := by
  induction ts with
  | nil => rfl
  | cons t ts ih => rw [nodesAll, ih, List.flatMap_cons]

@[simp] theorem nodesAll_append (ts us : List (Tree α)) :
    nodesAll (ts ++ us) = nodesAll ts ++ nodesAll us := by
  simp only [nodesAll_eq_flatMap, List.flatMap_append]

@[simp] theorem nodes_withRole (role : Role) (t : Tree α) : (t.withRole role).nodes = t.nodes := by
  cases t <;> rfl

/-- A name for the last tree does not change the nodes. -/
@[simp] theorem nodesAll_lastWithRole (role : Role) (ts : List (Tree α)) :
    nodesAll (lastWithRole role ts) = nodesAll ts := by
  fun_induction lastWithRole role ts <;> simp_all [nodesAll]

theorem symbol_map (f : β → α) (t : Tree β) : (t.map f).symbol kind = t.symbol (kind ∘ f) := by
  cases t <;> rfl

theorem map_symbol_mapAll (f : β → α) (ts : List (Tree β)) :
    (mapAll f ts).map (symbol kind) = ts.map (symbol (kind ∘ f)) := by
  rw [mapAll_eq_map, List.map_map]
  exact List.map_congr_left fun t _ => symbol_map f t

mutual

/-- The nodes of a tree follow what is done to its leaves. -/
theorem nodes_map (f : β → α) : ∀ t : Tree β,
    (t.map f).nodes = t.nodes.map (Prod.map id (mapAll f))
  | .token _ _ | .skipped _ | .missing _ => rfl
  | .node _ r children => by
    rw [map, nodes, nodes, nodesAll_mapAll f children]
    rfl

/-- `nodes_map` for several trees. -/
theorem nodesAll_mapAll (f : β → α) : ∀ ts : List (Tree β),
    nodesAll (mapAll f ts) = (nodesAll ts).map (Prod.map id (mapAll f))
  | [] => rfl
  | t :: ts => by
    rw [mapAll, nodesAll, nodesAll, nodes_map f t, nodesAll_mapAll f ts, List.map_append]

end

mutual

/-- What a leaf holds counts for a derivation only by its kind. -/
theorem derives_map (f : β → α) : ∀ t : Tree β, (t.map f).Derives kind ↔ t.Derives (kind ∘ f)
  | .token _ _ | .skipped _ | .missing _ => Iff.rfl
  | .node _ r children => by
    rw [map, Derives, Derives, map_symbol_mapAll, derivesAll_mapAll f children]

/-- `derives_map` for several trees. -/
theorem derivesAll_mapAll (f : β → α) :
    ∀ ts : List (Tree β), DerivesAll kind (mapAll f ts) ↔ DerivesAll (kind ∘ f) ts
  | [] => Iff.rfl
  | t :: ts => and_congr (derives_map f t) (derivesAll_mapAll f ts)

end

end Tree

end JavaOutline
