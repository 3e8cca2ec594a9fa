import Mathlib.Data.List.Basic
import JavaOutline.Proofs.Network.Runs
import JavaOutline.Proofs.Parser.Trail

/-!
# What a look at one token shows

The sets with which the parser decides after one token are exact enough: a run from a place begins
with a token of `expected` (`Accepts.mem_expected`), also if the callers are not known
(`mem_followers`), and so a direct decision finds the alternative by which a run goes on
(`findIdx?_of_direct`).
-/

namespace JavaOutline

open Network

/-! ## What can come next from a place -/

/-- Only what may end without a token passes to the end of its rule. -/
theorem ends_of_passes {n : Nat} {p : Place} (hp : p.Valid)
    (h : (Look.ofPlace java.node n p).passes = true) : p.span.ends = true := by
  induction n generalizing p with
  | zero => cases h
  | succ n ih =>
    rw [Look.ofPlace] at h
    split at h
    · cases h
    · rename_i r l next hnode
      obtain ⟨hvalid, -, hends⟩ := hp.call hnode
      dsimp only at h
      split at h
      · rename_i hstart
        exact (hends (ih (.start r) hstart)).2 (ih hvalid h)
      · rename_i hstart
        exact absurd h hstart
    · rename_i l next hnode
      have hfollows := hp.guard hnode
      exact hfollows.ends (ih hfollows.valid h)
    · rename_i nexts hnode
      have hany : ∀ (ns : List Nat) (l : Look),
          (ns.foldl (fun l next => l.or (Look.ofPlace java.node n (p.move next))) l).passes = true →
          l.passes = true ∨ ∃ next ∈ ns, (Look.ofPlace java.node n (p.move next)).passes = true := by
        intro ns
        induction ns with
        | nil => exact fun l hl => .inl hl
        | cons m ns ihn =>
          intro l hl
          rcases ihn _ hl with hor | ⟨next, hnext, hpass⟩
          · rcases Bool.or_eq_true .. ▸ hor with hl | hm
            · exact .inl hl
            · exact .inr ⟨m, List.mem_cons_self, hm⟩
          · exact .inr ⟨next, List.mem_cons_of_mem _ hnext, hpass⟩
      obtain hno | ⟨next, hnext, hpass⟩ := hany nexts .none h
      · cases hno
      · have hfollows := hp.fork hnode hnext
        exact hfollows.ends (ih hfollows.valid hpass)
    · rename_i hnode
      exact hp.finish hnode

/-- Looking further than the span of a place shows nothing new. -/
theorem ofPlace_succ {n : Nat} {p : Place} (hp : p.Valid) (hn : p.span.length < n) :
    Look.ofPlace java.node (n + 1) p = Look.ofPlace java.node n p := by
  induction n generalizing p with
  | zero => omega
  | succ n ih =>
    rw [Look.ofPlace, Look.ofPlace]
    split
    · rfl
    · rename_i r l next hnode
      obtain ⟨hvalid, hlength, hends⟩ := hp.call hnode
      rw [ih (.start r) (by omega)]
      dsimp only
      split
      · rename_i hstart
        have hsum := (hends (ends_of_passes (.start r) hstart)).1
        rw [ih hvalid (by omega)]
      · rfl
    · rename_i l next hnode
      have hfollows := hp.guard hnode
      have hlength := hfollows.length
      rw [ih hfollows.valid (by omega)]
    · rename_i nexts hnode
      refine List.foldl_ext _ _ _ fun l next hnext => ?_
      have hfollows := hp.fork hnode hnext
      have hlength := hfollows.length
      rw [ih hfollows.valid (by omega)]
    · rfl

section
variable {p : Place}

theorem look_eq (hp : p.Valid) : java.look p = Look.ofPlace java.node 400 p := by
  simp only [java, cached]
  rw [table_getD]
  exact if_pos hp

/-- What can come next from a place follows from what can come next from the places behind it. -/
theorem look_eq_succ (hp : p.Valid) : java.look p = Look.ofPlace java.node 401 p := by
  have hlimit := hp.fits.2
  rw [look_eq hp, ← ofPlace_succ hp (by unfold spanLimit at hlimit; omega)]

theorem look_take (hp : p.Valid) {ks : KindSet} {next : Nat} (h : java.node p = .take ks next) :
    java.look p = ⟨ks, false, false⟩ := by
  rw [look_eq_succ hp, Look.ofPlace, h]

theorem look_finish (hp : p.Valid) (h : java.node p = .finish) :
    java.look p = ⟨∅, true, false⟩ := by
  rw [look_eq_succ hp, Look.ofPlace, h]

theorem look_guard (hp : p.Valid) {level next : Nat} (h : java.node p = .guard level next) :
    java.look p = { java.look (p.move next) with guarded := true } := by
  rw [look_eq_succ hp, Look.ofPlace, h, look_eq (hp.guard h).valid]

theorem look_call (hp : p.Valid) {r : Rule} {level next : Nat}
    (h : java.node p = .call r level next) :
    java.look p = if (java.look (.start r)).passes
      then { (java.look (.start r)).or (java.look (p.move next)) with
        passes := (java.look (p.move next)).passes }
      else java.look (.start r) := by
  rw [look_eq_succ hp, Look.ofPlace, h, look_eq (.start r), look_eq (hp.call h).1]

/-- What can come next in one way can come next. -/
structure Look.Within (l m : Look) : Prop where
  kinds : ∀ k ∈ l.kinds, k ∈ m.kinds
  passes : l.passes = true → m.passes = true

theorem Look.Within.trans {l m n : Look} (h : l.Within m) (h' : m.Within n) : l.Within n :=
  ⟨fun k hk => h'.kinds k (h.kinds k hk), fun hp => h'.passes (h.passes hp)⟩

theorem Look.within_guarded (l : Look) : l.Within { l with guarded := true } :=
  ⟨fun _ hk => hk, id⟩

theorem Look.within_or_left (l m : Look) : l.Within (l.or m) :=
  ⟨fun k hk => by simp [Look.or, hk], fun hp => by simp [Look.or, hp]⟩

theorem Look.within_or_right (l m : Look) : m.Within (l.or m) :=
  ⟨fun k hk => by simp [Look.or, hk], fun hp => by simp [Look.or, hp]⟩

theorem Look.mem_through {l m : Look} {k : Kind} :
    k ∈ ({ l.or m with passes := m.passes } : Look).kinds ↔ k ∈ l.kinds ∨ k ∈ m.kinds :=
  KindSet.mem_union ..

/-- Joining many looks joins each of them. -/
theorem Look.within_foldl {α : Type} (f : α → Look) (xs : List α) (l : Look) :
    l.Within (xs.foldl (fun l x => l.or (f x)) l) ∧
      ∀ x ∈ xs, (f x).Within (xs.foldl (fun l x => l.or (f x)) l) := by
  induction xs generalizing l with
  | nil => exact ⟨⟨fun _ hk => hk, id⟩, nofun⟩
  | cons x xs ih =>
    obtain ⟨hinit, hall⟩ := ih (l.or (f x))
    refine ⟨(l.within_or_left (f x)).trans hinit, List.forall_mem_cons.2 ⟨?_, hall⟩⟩
    exact (l.within_or_right (f x)).trans hinit

theorem look_fork (hp : p.Valid) {nexts : List Nat} {next : Nat} (h : java.node p = .fork nexts)
    (hnext : next ∈ nexts) : (java.look (p.move next)).Within (java.look p) := by
  rw [look_eq_succ hp, Look.ofPlace, h, look_eq (hp.fork h hnext).valid]
  exact (Look.within_foldl (fun next => Look.ofPlace java.node 400 (p.move next)) nexts .none).2
    next hnext

theorem ends_of_look (hp : p.Valid) (h : (java.look p).passes = true) : p.span.ends = true :=
  ends_of_passes hp (look_eq hp ▸ h)

end

/-! ## What can come next with known callers -/

/-- The kinds that can come after a rule, given where it and its callers return to. -/
def expectedBehind : List Place → KindSet
  | [] => .single .endOfFile
  | ret :: σ => expected java ret σ

theorem mem_expected {p : Place} {σ : List Place} {k : Kind} : k ∈ expected java p σ ↔
    k ∈ (java.look p).kinds ∨ (java.look p).passes = true ∧ k ∈ expectedBehind σ := by
  cases σ <;> rw [expected, expectedBehind] <;> split <;> simp_all

theorem mem_expected_of_within {p q : Place} {σ : List Place} {k : Kind}
    (h : (java.look q).Within (java.look p)) (hk : k ∈ expected java q σ) :
    k ∈ expected java p σ := by
  rw [mem_expected] at hk ⊢
  exact hk.imp (h.kinds k) fun hpass => ⟨h.passes hpass.1, hpass.2⟩

/-- **The next token of a run can come next.** -/
theorem Accepts.mem_expected {kinds : Array Kind} {p : Place} {σ : List Place} {i : Nat}
    (h : Accepts kinds p σ i) (hsited : Sited p σ) : kindAt kinds i ∈ expected java p σ := by
  induction h with
  | take hp hk =>
    refine JavaOutline.mem_expected.2 (.inl ?_)
    rw [look_take hsited.valid hp]
    exact hk
  | done hp hi =>
    refine JavaOutline.mem_expected.2 (.inr ⟨?_, ?_⟩)
    · rw [look_finish hsited.valid hp]
    · rw [expectedBehind, KindSet.mem_single, kindAt_of_size_le hi]
  | drift hd _ ih =>
    have hk := ih (hsited.drift hd)
    cases hd with
    | guard hp =>
      refine mem_expected_of_within ?_ hk
      rw [look_guard hsited.valid hp]
      exact Look.within_guarded _
    | fork hp hnext => exact mem_expected_of_within (look_fork hsited.valid hp hnext) hk
    | back hp =>
      refine JavaOutline.mem_expected.2 (.inr ⟨?_, hk⟩)
      rw [look_finish hsited.valid hp]
    | @call _ r l next hp =>
      rw [JavaOutline.mem_expected, expectedBehind, JavaOutline.mem_expected] at hk
      rw [JavaOutline.mem_expected, look_call hsited.valid hp]
      generalize java.look (.start r) = l at hk ⊢
      generalize java.look (_ : Place) = m at hk ⊢
      split
      · rename_i hpass
        rcases hk with hk | ⟨-, hk | ⟨hnext, hk⟩⟩
        · exact .inl (Look.mem_through.2 (.inl hk))
        · exact .inl (Look.mem_through.2 (.inr hk))
        · exact .inr ⟨hnext, hk⟩
      · rename_i hpass
        exact hk.imp id fun hstart => absurd hstart.1 hpass

/-! ## What can come next with unknown callers -/

/-- Counting less counts less. -/
theorem countP_lt_countP {α : Type} {P Q : α → Bool} {xs : List α} {x : α}
    (h : ∀ y ∈ xs, P y = true → Q y = true) (hx : x ∈ xs) (hP : P x = false) (hQ : Q x = true) :
    xs.countP P < xs.countP Q := by
  induction xs with
  | nil => cases hx
  | cons y xs ih =>
    rw [List.countP_cons, List.countP_cons]
    have hxs := fun z hz => h z (List.mem_cons_of_mem _ hz)
    have hle := List.countP_mono_left hxs
    rcases List.mem_cons.1 hx with rfl | hx
    · rw [hP, hQ]
      simp only [Bool.false_eq_true, if_false, if_true]
      omega
    · have hlt := ih hxs hx
      have hy := h y List.mem_cons_self
      cases hPy : P y with
      | false =>
        simp only [Bool.false_eq_true, if_false]
        omega
      | true =>
        rw [hy hPy]
        omega

theorem Rule.mem_all (r : Rule) : r ∈ Rule.all := by
  have hall : Rule.all[r.index]? = some r := by cases r <;> rfl
  exact List.mem_of_getElem? hall

/-- Whenever a rule that the list has lets a caller pass, the list has the caller. -/
def EndersClosed (rs : List Rule) : Prop :=
  ∀ r ∈ rs, ∀ ret ∈ java.returns r, (java.look ret.place).passes = true → ret.place.rule ∈ rs

/-- All rules are found that can end where the given rules end. -/
theorem enders_closed (n : Nat) (rs : List Rule)
    (hn : Rule.all.countP (fun r => !rs.contains r) ≤ n) :
    EndersClosed (enders java.look java.returns n rs) ∧
      ∀ r ∈ rs, r ∈ enders java.look java.returns n rs := by
  induction n generalizing rs with
  | zero =>
    refine ⟨fun r _ ret _ _ => ?_, fun r hr => hr⟩
    rw [Nat.le_zero, List.countP_eq_zero] at hn
    simpa [enders] using hn _ ret.place.rule.mem_all
  | succ n ih =>
    rw [enders]
    generalize hcallers : (rs.flatMap fun r =>
      ((java.returns r).filter fun ret => (java.look ret.place).passes).map (·.place.rule)) = callers
    have hmem {r : Rule} (hr : r ∈ rs) {ret : Return} (hret : ret ∈ java.returns r)
        (hpass : (java.look ret.place).passes = true) : ret.place.rule ∈ callers := by
      rw [← hcallers, List.mem_flatMap]
      exact ⟨r, hr, List.mem_map_of_mem (List.mem_filter.2 ⟨hret, hpass⟩)⟩
    split
    · rename_i hempty
      refine ⟨fun r hr ret hret hpass => ?_, fun r hr => hr⟩
      have hnone := List.filter_eq_nil_iff.1 (List.isEmpty_iff.1 hempty) ret.place.rule
        (List.mem_eraseDups.2 (hmem hr hret hpass))
      simpa using hnone
    · rename_i hnew
      obtain ⟨r, hr⟩ := List.exists_mem_of_ne_nil _ (fun h => hnew (List.isEmpty_iff.2 h))
      have hnot : rs.contains r = false := by simpa using (List.mem_filter.1 hr).2
      have hlt : Rule.all.countP (fun r => !(rs ++ callers.eraseDups.filter
          fun r => !rs.contains r).contains r) < Rule.all.countP (fun r => !rs.contains r) := by
        refine countP_lt_countP (fun y _ hy => ?_) r.mem_all ?_ (by rw [hnot]; rfl)
        · simp only [List.contains_append, Bool.not_or, Bool.and_eq_true] at hy
          exact hy.1
        · rw [List.contains_iff_mem.2 (List.mem_append_right rs hr), Bool.not_true]
      obtain ⟨hclosed, hsub⟩ := ih (rs ++ callers.eraseDups.filter fun r => !rs.contains r)
        (by omega)
      exact ⟨hclosed, fun r hr => hsub r (List.mem_append_left _ hr)⟩

/-- The rules that may end with the last token of a file. -/
def Rule.closes : Rule → Bool
  | .compilationUnit | .packageDeclaration | .importDeclaration | .typeDeclaration
  | .classDeclaration | .enumDeclaration | .interfaceDeclaration | .annotationTypeDeclaration
  | .recordDeclaration | .classBody | .interfaceBody | .annotationTypeBody | .recordBody => true
  | _ => false

/-- Does every rule close that is called at the end of a closing rule, and has such a rule no
decision at its end, unless it is that of the whole file? -/
def Rule.isClosed (r : Rule) : Bool :=
  let spans := r.body.spans
  !r.closes || r.body.layout.zipIdx.all fun (n, i) =>
    match n with
    | .call r' _ next => r'.closes || !(spans.getD next ⟨0, true⟩).ends
    | .fork nexts => nexts.length ≤ 1 || nexts.all (fun next => !(spans.getD next ⟨0, true⟩).ends) ||
      (r == .compilationUnit && (i == 13 || (java.direct ⟨r, i⟩).isNone))
    | _ => true

theorem Rule.isClosed_eq_true (r : Rule) : r.isClosed = true := by
  cases r <;> decide +kernel

theorem closes_of_call {p : Place} {r : Rule} {level next : Nat} (hp : p.Valid)
    (h : java.node p = .call r level next) (hcloses : p.rule.closes = true)
    (hends : (p.move next).span.ends = true) : r.closes = true := by
  have hclosed := p.rule.isClosed_eq_true
  simp only [Rule.isClosed, Bool.or_eq_true, Bool.not_eq_true', List.all_eq_true] at hclosed
  have hcall := (hclosed.resolve_left (by simp [hcloses])) _ hp.mem_zipIdx
  rw [h] at hcall
  simp only [Bool.or_eq_true, Bool.not_eq_true'] at hcall
  refine hcall.resolve_right fun hno => ?_
  rw [Place.span, Place.move, hno] at hends
  cases hends

/-- In a closing rule, no decision at its end is settled by one token but that of the loop at the end
of a file. -/
theorem offset_of_closes {p : Place} {nexts : List Nat} {next : Nat} {sets : List KindSet}
    (hp : p.Valid) (h : java.node p = .fork nexts) (hmany : 1 < nexts.length)
    (hnext : next ∈ nexts) (hcloses : p.rule.closes = true)
    (hends : (p.move next).span.ends = true) (hdirect : java.direct p = some sets) :
    p = ⟨.compilationUnit, 13⟩ := by
  have hclosed := p.rule.isClosed_eq_true
  simp only [Rule.isClosed, Bool.or_eq_true, Bool.not_eq_true', List.all_eq_true] at hclosed
  have hfork := (hclosed.resolve_left (by simp [hcloses])) _ hp.mem_zipIdx
  rw [h] at hfork
  simp only [Bool.or_eq_true, Bool.not_eq_true', decide_eq_true_eq, List.all_eq_true,
    Bool.and_eq_true, beq_iff_eq] at hfork
  rcases hfork with (hfew | hno) | ⟨hrule, hoffset⟩
  · omega
  · have hnot := hno next hnext
    rw [Place.span, Place.move, hnot] at hends
    cases hends
  · rcases hoffset with hoffset | hnone
    · cases p
      simp only at hrule hoffset
      rw [hrule, hoffset]
    · have hsome : java.direct ⟨p.rule, p.offset⟩ = some sets := hdirect
      rw [hsome] at hnone
      cases hnone

/-- The ways back from a rule are the places behind its calls. -/
theorem mem_returns_iff {r : Rule} {ret : Return} : ret ∈ java.returns r ↔
    ∃ (p : Place) (next : Nat), p.Valid ∧ java.node p = .call r ret.level next ∧
      ret.place = p.move next := by
  have hreturns : java.returns r = returnsOf (fun r => r.body.layout) r := by
    simp only [java, cached]
    exact tabulate_getD _ _ _
  rw [hreturns, returnsOf, List.mem_flatMap]
  constructor
  · rintro ⟨caller, -, hmem⟩
    obtain ⟨n, hn, hret⟩ := List.mem_filterMap.1 hmem
    obtain ⟨i, hi, rfl⟩ := List.mem_iff_getElem.1 hn
    have hnode : java.node ⟨caller, i⟩ = caller.body.layout[i] := by
      rw [node_mk, List.getD_eq_getElem?_getD, List.getElem?_eq_getElem hi, Option.getD_some]
    rw [← hnode] at hret
    split at hret
    · rename_i callee level next hcall
      obtain ⟨rfl, heq⟩ := Option.ite_none_right_eq_some.1 hret
      obtain rfl := Option.some.inj heq
      exact ⟨⟨caller, i⟩, next, hi, hcall, rfl⟩
    · cases hret
  · rintro ⟨p, next, hp, hcall, hplace⟩
    refine ⟨p.rule, p.rule.mem_all, List.mem_filterMap.2 ⟨_, hp.mem_layout, ?_⟩⟩
    rw [hcall]
    cases ret
    obtain rfl := hplace
    exact if_pos rfl

theorem mem_returns {p : Place} {r : Rule} {level next : Nat} (hp : p.Valid)
    (h : java.node p = .call r level next) : ⟨level, p.move next⟩ ∈ java.returns r :=
  mem_returns_iff.2 ⟨p, next, hp, h, rfl⟩

/-- The way back from a place is one of those from its rule. -/
theorem Sited.mem_returns {p ret : Place} {σ : List Place} (h : Sited p (ret :: σ)) :
    ∃ level, ⟨level, ret⟩ ∈ java.returns p.rule := by
  obtain ⟨-, hproper⟩ := h
  generalize p.rule = r at hproper
  cases hproper with
  | cons valid call rest => exact ⟨_, JavaOutline.mem_returns valid call⟩

/-- There is no way back from a whole file. -/
theorem returns_compilationUnit : java.returns .compilationUnit = [] := by
  refine List.eq_nil_iff_forall_not_mem.2 fun ret hret => ?_
  obtain ⟨p, next, hp, hcall, -⟩ := mem_returns_iff.1 hret
  exact ne_compilationUnit_of_call hp hcall rfl

/-- In a whole file what comes after a rule with known callers comes after it if they are unknown,
unless it is the end of the file after a closing rule. -/
theorem mem_behind {rs : List Rule} (hrs : EndersClosed rs) {r : Rule} {σ : List Place} {k : Kind}
    (hproper : Proper r σ) (hroot : (base ⟨r, 0⟩ σ).rule = .compilationUnit) (hr : r ∈ rs)
    (hk : k ∈ expectedBehind σ) :
    (∃ r' ∈ rs, ∃ ret ∈ java.returns r', k ∈ (java.look ret.place).kinds) ∨
      k = .endOfFile ∧ r.closes = true := by
  induction hproper with
  | nil r =>
    obtain rfl : r = .compilationUnit := hroot
    exact .inr ⟨(KindSet.mem_single ..).1 hk, rfl⟩
  | @cons r p level next σ valid call rest ih =>
    have hret := mem_returns valid call
    rcases mem_expected.1 hk with hk | ⟨hpass, hk⟩
    · exact .inl ⟨r, hr, _, hret, hk⟩
    · rw [base_cons, rule_base_move, ← rule_base_move p 0] at hroot
      rcases ih hroot (hrs r hr _ hret hpass) hk with hleft | ⟨hend, hcloses⟩
      · exact .inl hleft
      · exact .inr ⟨hend, closes_of_call valid call hcloses (ends_of_look (valid.call call).1 hpass)⟩

/-- What can come next behind a call of a rule can come after all rules together. -/
theorem mem_foldl_returns (look : Place → Look) (returns : Rule → List Return) {rs : List Rule}
    {r : Rule} (hr : r ∈ rs) {ret : Return} (hret : ret ∈ returns r) {k : Kind}
    (hk : k ∈ (look ret.place).kinds) (l : Look) :
    k ∈ (rs.foldl (fun l r => (returns r).foldl (fun l ret => l.or (look ret.place)) l) l).kinds := by
  have hmono (rs : List Rule) (l : Look) (hl : k ∈ l.kinds) : k ∈ (rs.foldl (fun l r =>
      (returns r).foldl (fun l ret => l.or (look ret.place)) l) l).kinds := by
    induction rs generalizing l with
    | nil => exact hl
    | cons r rs ih =>
      exact ih _ ((Look.within_foldl (fun ret : Return => look ret.place) _ l).1.kinds k hl)
  induction rs generalizing l with
  | nil => cases hr
  | cons r rs ih =>
    rcases List.mem_cons.1 hr with rfl | hr
    · refine hmono rs _ ?_
      exact ((Look.within_foldl (fun ret : Return => look ret.place) _ l).2 ret hret).kinds k hk
    · exact ih hr _

theorem mem_followers {r : Rule} {σ : List Place} {k : Kind} (hproper : Proper r σ)
    (hroot : (base ⟨r, 0⟩ σ).rule = .compilationUnit) (hk : k ∈ expectedBehind σ) :
    k ∈ (followers java.look java.returns r).kinds ∨ k = .endOfFile ∧ r.closes = true := by
  have hcount : Rule.all.countP (fun r' => !([r].contains r')) ≤ Rule.count :=
    Nat.le_trans List.countP_le_length (by simp [Rule.all])
  obtain ⟨hclosed, hsub⟩ := enders_closed Rule.count [r] hcount
  refine (mem_behind hclosed hproper hroot (hsub r List.mem_cons_self) hk).imp ?_ id
  rintro ⟨r', hr', ret, hret, hk⟩
  exact mem_foldl_returns java.look java.returns hr' hret hk .none

/-! ## Direct decisions -/

theorem KindSet.not_mem_of_disjoint {s t : KindSet} (h : s.disjoint t = true) {k : Kind}
    (hs : k ∈ s) : k ∉ t := by
  intro ht
  have hand : (s.bits &&& t.bits).testBit k.index = true := by
    rw [Nat.testBit_and]
    exact Bool.and_eq_true_iff.2 ⟨hs, ht⟩
  rw [disjoint, beq_iff_eq] at h
  rw [h, Nat.zero_testBit] at hand
  cases hand

/-- Of sets that have no member in common, the one with the kind is the first one. -/
theorem findIdx?_of_pairwiseDisjoint {sets : List KindSet} (h : pairwiseDisjoint sets = true)
    {j : Nat} {set : KindSet} (hj : sets[j]? = some set) {k : Kind} (hk : k ∈ set) :
    sets.findIdx? (·.contains k) = some j := by
  induction sets generalizing j with
  | nil => cases hj
  | cons s ss ih =>
    rw [pairwiseDisjoint, Bool.and_eq_true, List.all_eq_true] at h
    rw [List.findIdx?_cons]
    cases j with
    | zero =>
      obtain rfl := Option.some.inj hj
      rw [if_pos ((KindSet.contains_eq ..).2 hk)]
    | succ j =>
      have hmem : set ∈ ss := List.mem_of_getElem? (i := j) hj
      have hnot : ¬ s.contains k = true := fun hs => KindSet.not_mem_of_disjoint (h.1 set hmem) hs hk
      rw [if_neg hnot, ih h.2 hj]
      rfl

/-- The kinds that speak for the way on to `next`: those that can come next there, and where the rule
can end, those that can come after it. -/
def kindsFor (p : Place) (next : Nat) : KindSet :=
  let l := java.look (p.move next)
  (if l.passes then l.or (followers java.look java.returns p.rule) else l).kinds

theorem mem_kindsFor {p : Place} {next : Nat} {k : Kind} : k ∈ kindsFor p next ↔
    k ∈ (java.look (p.move next)).kinds ∨ (java.look (p.move next)).passes = true ∧
      k ∈ (followers java.look java.returns p.rule).kinds := by
  unfold kindsFor
  generalize java.look (p.move next) = l
  dsimp only
  split
  · rename_i hpass
    simp [Look.or, hpass]
  · rename_i hpass
    simp [hpass]

/-- A direct decision has for each way on the set of the kinds that speak for it. -/
theorem direct_eq {p : Place} {nexts : List Nat} {sets : List KindSet} (hp : java.node p = .fork nexts)
    (hdirect : java.direct p = some sets) :
    sets = nexts.map (kindsFor p) ∧ pairwiseDisjoint sets = true := by
  have hsets : directSets java.node java.look (followers java.look java.returns) p = some sets := by
    rw [← hdirect]
    simp only [java, cached]
    rw [table_getD]
    have hfollow (r : Rule) := tabulate_getD (followers java.look java.returns) r .none
    simp only [java, cached] at hfollow
    simp only [hfollow]
    exact (if_pos (Place.valid_of_fork hp)).symm
  unfold directSets at hsets
  rw [hp] at hsets
  simp only at hsets
  split at hsets
  · cases hsets
  · split at hsets
    · rename_i hdisjoint
      cases hsets
      refine ⟨?_, hdisjoint⟩
      rw [List.map_map]
      rfl
    · cases hsets

/-- **One token settles a direct decision** in a whole file: if a run goes on from one of the
alternatives, the next token belongs to its set and to no other, unless it is the end of the file. -/
theorem findIdx?_of_direct {kinds : Array Kind} {p : Place} {σ : List Place} {i j next : Nat}
    {nexts : List Nat} {sets : List KindSet} (hdirect : java.direct p = some sets)
    (hp : java.node p = .fork nexts) (hmany : 1 < nexts.length) (hj : nexts[j]? = some next)
    (ha : Accepts kinds (p.move next) σ i) (hsited : Sited p σ)
    (hroot : (base p σ).rule = .compilationUnit) :
    sets.findIdx? (·.contains (kindAt kinds i)) = some j ∨
      p = ⟨.compilationUnit, 13⟩ ∧ kindAt kinds i = .endOfFile ∧
        (java.look (p.move next)).passes = true := by
  have hnext := List.mem_of_getElem? hj
  have hvalid := (hsited.valid.fork hp hnext).valid
  have hk := ha.mem_expected ⟨hvalid, hsited.proper⟩
  obtain ⟨rfl, hdisjoint⟩ := direct_eq hp hdirect
  have hset : (nexts.map (kindsFor p))[j]? = some (kindsFor p next) := by
    rw [List.getElem?_map, hj]
    rfl
  rcases mem_expected.1 hk with hk | ⟨hpass, hk⟩
  · exact .inl (findIdx?_of_pairwiseDisjoint hdisjoint hset (mem_kindsFor.2 (.inl hk)))
  · rw [← rule_base_move p 0] at hroot
    rcases mem_followers hsited.proper hroot hk with hk | ⟨hend, hcloses⟩
    · exact .inl (findIdx?_of_pairwiseDisjoint hdisjoint hset (mem_kindsFor.2 (.inr ⟨hpass, hk⟩)))
    · refine .inr ⟨?_, hend, hpass⟩
      exact offset_of_closes hsited.valid hp hmany hnext hcloses (ends_of_look hvalid hpass) hdirect

end JavaOutline
