import JavaOutline.Proofs.Parser.Conservation

/-!
# Parsing without complaints

What a parse does when it ends without a complaint is much simpler than what it can do: every token
is taken as it comes, nothing is skipped or assumed, and no rule is given up. `Step.Clean` says that
a step has gone well so far. Since complaints are never taken back, all parts of a clean step are
clean (`Step.Clean.andThen`), and the functions of error recovery have done nothing in them
(`Setting.accept_clean`, `Setting.resync_clean`, `Setting.giveUp_complains`).
-/

namespace JavaOutline

/-- A trail on which tokens of any kind may be taken. -/
abbrev AnyTrail (S : Setting) := Trail S (fun _ => true) (fun _ => true)

/-- No error has ended the step, and there are no complaints behind it. -/
structure Step.Clean (a : Step) : Prop where
  fault : a.fault = none
  complaints : a.state.complaints = []

namespace Step

variable {S : Setting} {a : Step} {f : Progress → Step}

@[simp] theorem ok_nil_andThen (s : Progress) (f : Progress → Step) :
    (Step.ok [] s).andThen f = f s := rfl

/-- Both parts of a clean step are clean, and its trees are theirs. -/
theorem Clean.andThen (h : (a.andThen f).Clean)
    (hf : AnyTrail S a.state (f a.state).trees (f a.state).state) :
    a.Clean ∧ (f a.state).Clean ∧
      a.andThen f = ⟨a.trees ++ (f a.state).trees, (f a.state).state, none⟩ := by
  obtain ⟨hfault, hcomplaints⟩ := h
  cases ha : a.fault with
  | some e =>
    rw [Step.andThen, ha] at hfault
    simp [ha] at hfault
  | none =>
    have heq : a.andThen f = ⟨a.trees ++ (f a.state).trees, (f a.state).state,
        (f a.state).fault⟩ := by rw [Step.andThen, ha]
    rw [heq] at hfault hcomplaints ⊢
    exact ⟨⟨ha, hf.complaints_eq_nil hcomplaints⟩, ⟨hfault, hcomplaints⟩,
      congrArg _ hfault⟩

end Step

namespace Setting

variable {S : Setting} {F : Frame} {p : Place} {s : Progress} {ks : KindSet}

/-- Dropping a token is an error. -/
theorem drop?_complains {s' : Progress} {a : Step} (hs : s.Honest)
    (h : S.drop? ks s = (s', some a)) : a.state.complaints ≠ [] := by
  simp only [drop?] at h
  split at h
  case isFalse => simp at h
  case isTrue =>
    simp only [Prod.mk.injEq, Option.some.injEq] at h
    obtain ⟨-, rfl⟩ := h
    have hlook : (s.lookAt S.kinds (s.pos + 1)).Honest := hs
    simpa [takeNext, Step.ok, Progress.settle] using hlook.complain_ne_nil _ _

/-- Giving up a rule is an error. -/
theorem giveUp_complains (hs : s.Honest) (f : Fault) : (S.giveUp F f s).state.complaints ≠ [] := by
  intro h
  have htrail : AnyTrail S (s.complain f.pos f.cause) (S.giveUp F f s).trees
      (S.giveUp F f s).state := giveUp_trail_complain f
  exact hs.complain_ne_nil _ _ (htrail.complaints_eq_nil h)

/-- Without a complaint the next token is of a wanted kind, and taken. -/
theorem accept_clean {after : Place} {assumed : List (Tree Nat)} (hs : s.Honest)
    (h : (S.accept F p ks after assumed s).Clean) :
    S.next s ∈ ks ∧ S.accept F p ks after assumed s = S.takeNext s.settle := by
  have hfault := h.fault
  have hcomplaints := h.complaints
  unfold accept at hfault hcomplaints ⊢
  split at hcomplaints
  · rename_i hk
    exact ⟨hk, if_pos hk⟩
  · rename_i hk
    rw [if_neg hk] at hfault
    split at hcomplaints
    · rename_i a hd
      -- Taking the token behind a dropped one keeps the complaint about that one.
      have hdropped : a.fault = none := (drop?_some (K := fun _ => true) (R := fun _ => true) hd).2.1
      simp only [Step.andThen, hdropped, takeNext, Step.ok, Progress.advance_complaints]
        at hcomplaints
      exact absurd hcomplaints (drop?_complains hs hd)
    · rename_i s' hd
      obtain rfl := drop?_none hd
      rw [hd] at hfault
      have hlook : (s.lookAt S.kinds (s.pos + 1)).Honest := hs
      simp only at hfault
      split at hcomplaints
      · exact absurd hcomplaints (hlook.complain_ne_nil _ _)
      · rename_i hafter
        rw [if_neg hafter] at hfault
        cases hfault

/-- Without a complaint there was nothing to check before a decision. -/
theorem resync_clean {inLoop : Bool} (hs : s.Honest) (h : (S.resync F p inLoop s).Clean) :
    S.resync F p inLoop s = .ok [] s := by
  have hfault := h.fault
  have hcomplaints := h.complaints
  simp only [resync] at hfault hcomplaints ⊢
  split at hcomplaints
  · rename_i hok
    rw [if_pos hok]
  · rename_i hok
    rw [if_neg hok] at hfault
    split at hcomplaints
    · have htrail := skipTo_trail (S := S) (K := fun _ => true) (R := fun _ => true)
        ((S.net.look p).kinds ∪ restartKinds S.net F.callers) (S.kinds.size - s.pos)
        (Progress.complain_recovering s.pos (.extraneous (S.net.look p).kinds) s)
      exact absurd (htrail.complaints_eq_nil hcomplaints) (hs.complain_ne_nil _ _)
    · rename_i hloop
      rw [if_neg hloop] at hfault
      split at hcomplaints
      · rename_i a hd
        exact absurd hcomplaints (drop?_complains hs hd)
      · rename_i hd
        rw [hd] at hfault
        cases hfault

/-- A clean step behind such a check begins where the check did. -/
theorem resync_andThen_clean {inLoop : Bool} {f : Progress → Step} (hs : s.Honest)
    (hf : ∀ t, AnyTrail S t (f t).trees (f t).state)
    (h : ((S.resync F p inLoop s).andThen f).Clean) :
    (S.resync F p inLoop s).andThen f = f s := by
  obtain ⟨hresync, -, -⟩ := h.andThen (hf _)
  rw [resync_clean hs hresync, Step.ok_nil_andThen]

/-- A clean step before such a check is not changed by it. -/
theorem andThen_resync_clean {inLoop : Bool} {a : Step} (ha : a.state.Honest)
    (h : (a.andThen (S.resync F p inLoop)).Clean) : a.andThen (S.resync F p inLoop) = a := by
  obtain ⟨hclean, hresync, heq⟩ := h.andThen (resync_trail inLoop)
  rw [heq, resync_clean ha hresync]
  simp [Step.ok, ← hclean.fault]

end Setting

end JavaOutline
