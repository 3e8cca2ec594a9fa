import JavaOutline.Proofs.Parser.Clean
import JavaOutline.Proofs.Parser.Stop
import JavaOutline.Proofs.Prediction.Decisions

/-!
# Parsing along a run

`Setting.Live` says that a run goes on from the place and position of the parser to the end of the
file, and that nothing has been complained about. Taking tokens, resynchronising and deciding keep
it (`Live.accept`, `Live.resync`, `Live.decide`).
-/

namespace JavaOutline

open Network

/-! ## Runs of the parser -/

namespace Setting

/-- The parser of Java, on tokens none of which is the end of the file. -/
structure Java (S : Setting) : Prop where
  net : S.net = Network.java
  body : S.body = Rule.body
  closed : Closed S.kinds

/-- The parser is at a place from which a run goes on to the end of the parse, and has found nothing
wrong. -/
structure Live (S : Setting) (F : Frame) (p : Place) (s : Progress) : Prop where
  viable : Viable S.kinds F.level s.pos (some 0) p F.callers
  sited : Rooted .compilationUnit p F.callers
  nested : Nested p.rule F.level F.callers
  quiet : s.complaints = []
  calm : s.recovering = false

/-- A step has gone well, up to a place from which a run goes on. -/
structure Ends (S : Setting) (F : Frame) (p : Place) (a : Step) : Prop where
  fault : a.fault = none
  live : S.Live F p a.state

variable {S : Setting} {F : Frame} {p q : Place} {s s' : Progress} {a : Step}

theorem Ends.clean (h : S.Ends F p a) : a.Clean := ⟨h.fault, h.live.quiet⟩

theorem Ends.andThen (h : S.Ends F p a) {f : Progress → Step} (hf : S.Ends F q (f a.state)) :
    S.Ends F q (a.andThen f) := by
  rw [Step.andThen, h.fault]
  exact ⟨hf.fault, hf.live⟩

theorem Live.ends (h : S.Live F p s) : S.Ends F p (.ok [] s) := ⟨rfl, h⟩

namespace Live

/-- One step without a token in the same rule. -/
theorem move (h : S.Live F p s) {next : Nat} (hd : Drift p F.callers (p.move next) F.callers)
    (hviable : Viable S.kinds F.level s.pos (some 0) (p.move next) F.callers) :
    S.Live F (p.move next) s :=
  { h with viable := hviable, sited := h.sited.drift hd }

/-- A fork with one way on. -/
theorem jump (h : S.Live F p s) {next : Nat} (hp : Network.java.node p = .fork [next]) :
    S.Live F (p.move next) s := by
  obtain ⟨next', hnext, hviable⟩ := h.viable.exists_of_fork hp
  rw [List.mem_singleton.1 hnext] at hviable
  exact h.move (.fork hp List.mem_cons_self) hviable

theorem guard (h : S.Live F p s) {level next : Nat} (hp : Network.java.node p = .guard level next) :
    F.level ≤ level ∧ S.Live F (p.move next) s := by
  obtain ⟨hlevel, hviable⟩ := h.viable.of_guard hp
  exact ⟨hlevel rfl, h.move (.guard hp) hviable⟩

/-- Outside the operators every run may be taken. -/
theorem of_accepts (h : S.Live F p s) {next : Nat} (hvalid : (p.move next).Valid)
    (hout : Outside (p.move next)) (haccepts : Accepts S.kinds (p.move next) F.callers s'.pos)
    (hquiet : s'.complaints = []) (hcalm : s'.recovering = false) : S.Live F (p.move next) s' where
  viable := haccepts.viable (ρ := []) h.nested rfl ⟨hvalid, h.sited.proper⟩ rfl hout
  sited := ⟨⟨hvalid, h.sited.proper⟩, (rule_base_move ..).trans h.sited.base_rule⟩
  nested := h.nested
  quiet := hquiet
  calm := hcalm

/-- The next token is taken. -/
theorem accept (h : S.Live F p s) {ks : KindSet} {next : Nat} (hp : Network.java.node p = .take ks next)
    (after : Place) (assumed : List (Tree Nat)) :
    S.Ends F (p.move next) (S.accept F p ks after assumed s) := by
  obtain ⟨hk, haccepts⟩ := h.viable.of_take hp
  unfold Setting.accept
  rw [if_pos (show S.next s ∈ ks from hk)]
  have hvalid := h.sited.valid.take hp
  refine ⟨rfl, h.of_accepts hvalid ?_ ?_ ?_ ?_⟩
  · exact .behind h.sited.valid (by rw [hp]; rfl) (by rw [hp]; exact List.mem_cons_self) hvalid
  · rw [takeNext, Step.ok, Progress.advance_pos]
    exact haccepts
  · rw [takeNext, Step.ok, Progress.advance_complaints]
    exact h.quiet
  · simp [takeNext, Step.ok, Progress.settle]

/-- There is nothing to check before a decision. -/
theorem resync (h : S.Live F p s) (hS : S.Java) (inLoop : Bool) :
    S.resync F p inLoop s = .ok [] s := by
  have hk := h.viable.accepts.mem_expected h.sited.toSited
  unfold Setting.resync
  dsimp only
  rw [hS.net, if_pos]
  rcases mem_expected.1 hk with hk | ⟨hpass, -⟩
  · rw [Bool.or_eq_true]
    exact .inr ((KindSet.contains_eq ..).2 hk)
  · simp [hpass]

end Live

theorem Ends.jump (h : S.Ends F p a) {next : Nat} (hp : Network.java.node p = .fork [next]) :
    S.Ends F (p.move next) a :=
  ⟨h.fault, h.live.jump hp⟩

/-- There is nothing to check behind a step that has gone well. -/
theorem Ends.resync (h : S.Ends F p a) (hS : S.Java) (inLoop : Bool) :
    a.andThen (S.resync F p inLoop) = a := by
  rw [Step.andThen, h.fault, h.live.resync hS]
  simp [Step.ok, ← h.fault]

/-- At the end of the last loop of a file the way on is the way out. -/
theorem leave_declarations {nexts : List Nat} {j next : Nat}
    (hp : Network.java.node ⟨.compilationUnit, 13⟩ = .fork nexts) (hj : nexts[j]? = some next)
    (hpass : (Network.java.look (Place.move ⟨.compilationUnit, 13⟩ next)).passes = true) : j = 1 := by
  have hfork : Network.java.node ⟨.compilationUnit, 13⟩ = .fork [14, 17] := by
    rw [node_mk]
    decide +kernel
  rw [hfork] at hp
  obtain rfl := Node.fork.inj hp
  match j with
  | 0 =>
    -- A declaration is not passed without a token.
    obtain rfl := Option.some.inj hj
    have hvalid : (⟨.compilationUnit, 14⟩ : Place).Valid := by
      unfold Place.Valid
      decide +kernel
    have hends : (⟨.compilationUnit, 14⟩ : Place).span.ends = false := by decide +kernel
    rw [ends_of_look hvalid hpass] at hends
    cases hends
  | 1 => rfl
  | _ + 2 => cases hj

/-- By the next token alone the way on is found that leads to the end of the parse. At the end of the
file that is the way out of the last loop, where nothing else fits. -/
theorem Live.decide_direct (h : S.Live F p s) (hS : S.Java) {sets : List KindSet}
    (hdirect : Network.java.direct p = some sets) {nexts : List Nat}
    (hp : Network.java.node p = .fork nexts) (hmany : 1 < nexts.length) (otherwise : Option Nat)
    (hother : p = ⟨.compilationUnit, 13⟩ → otherwise = some 2) {j next : Nat}
    (hj : nexts[j]? = some next)
    (hviable : Viable S.kinds F.level s.pos (some 0) (p.move next) F.callers) :
    S.decide F p otherwise s = (.take (j + 1), s) := by
  unfold Setting.decide
  rw [hS.net, hdirect]
  rcases findIdx?_of_direct hdirect hp hmany hj hviable.accepts h.sited.toSited
      h.sited.base_rule with
    hidx | ⟨rfl, hend, hpass⟩
  · dsimp only
    rw [show S.next s = kindAt S.kinds s.pos from rfl, hidx]
  · obtain rfl := leave_declarations hp hj hpass
    rw [direct_declarations] at hdirect
    obtain rfl := Option.some.inj hdirect
    have hnone : [KindSet.ofList declarationStarts, ∅].findIdx? (·.contains .endOfFile) = none := by
      decide +kernel
    dsimp only
    rw [hother rfl, show S.next s = .endOfFile from hend, hnone]

/-- **A decision takes a way on that leads to the end of the parse.** -/
theorem Live.decide (h : S.Live F p s) (hS : S.Java) (hpos : s.pos ≤ S.kinds.size)
    {nexts : List Nat} (hp : Network.java.node p = .fork nexts) (hmany : 1 < nexts.length)
    (otherwise : Option Nat) (hother : p = ⟨.compilationUnit, 13⟩ → otherwise = some 2) :
    ∃ i next s', S.decide F p otherwise s = (.take (i + 1), s') ∧ nexts[i]? = some next ∧
      S.Live F (p.move next) s' := by
  obtain ⟨next, hnext, hviable⟩ := h.viable.exists_of_fork hp
  obtain ⟨j, hj⟩ := List.getElem?_of_mem hnext
  cases hdirect : Network.java.direct p with
  | some sets =>
    exact ⟨j, next, s, h.decide_direct hS hdirect hp hmany otherwise hother hj hviable, hj,
      h.move (.fork hp hnext) hviable⟩
  | none =>
    unfold Setting.decide
    rw [hS.net, hdirect]
    let C : Choice := ⟨S.kinds, s.pos, F.level, F.callers, p⟩
    have hmem : (next, j + 1) ∈ nexts.zipIdx 1 := by
      rw [List.mk_mem_zipIdx_iff_le_and_getElem?_sub]
      exact ⟨Nat.le_add_left 1 j, hj⟩
    obtain ⟨b, hverdict, nexts', next', hp', hmem', hviable'⟩ :=
      Choice.forecast_good (C := C) h.sited.toSited h.nested hpos h.sited.base_rule hS.closed
        ⟨nexts, next, hp, hmem, hviable⟩
    obtain rfl : nexts = nexts' := by
      cases hp.symm.trans hp'
      rfl
    rw [List.mk_mem_zipIdx_iff_le_and_getElem?_sub] at hmem'
    obtain ⟨hle, hget⟩ := hmem'
    refine ⟨b - 1, next', _, Prod.ext ?_ rfl, hget, ?_⟩
    · rw [Nat.sub_add_cancel hle]
      exact hverdict
    · exact
        { viable := hviable'
          sited := h.sited.drift (.fork hp (List.mem_of_getElem? hget))
          nested := h.nested
          quiet := h.quiet
          calm := h.calm }

end Setting

end JavaOutline
