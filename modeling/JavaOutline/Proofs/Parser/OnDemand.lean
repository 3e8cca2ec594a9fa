import JavaOutline.Proofs.Outline.SameTokens
import JavaOutline.Proofs.Parser.Conservation
import Mathlib.Data.List.TakeWhile

/-!
# Lexing on demand

The lexer complains about text that is no token when the parser first looks at the token behind it,
so its messages stand between those of the parser, and some may be left out. What the parser has
looked at never shrinks, and it reaches at least to the next token (`Trail.watchful`). So the messages
of the lexer are those about the text in front of the last token that has been looked at
(`analyse_filter_isLexical`), in the order of the text, whatever the parser has looked at before.
-/

namespace JavaOutline

namespace TokenStream

variable (T : TokenStream)

/-! ## Messages in the order in which they arise -/

theorem filter_garbageMessages (garbage : List (List Char × Position × Nat)) :
    (garbageMessages garbage).filter Message.isLexical = garbageMessages garbage := by
  exact List.filter_eq_self.2 fun m hm => isLexical_of_mem_garbageMessages hm

/-- What has been taken from a list with a bound and is then taken with a larger one is what is taken
with the larger one at once. -/
theorem takeWhile_append_takeWhile {m n : Nat} (h : m ≤ n)
    (garbage : List (List Char × Position × Nat)) :
    (garbage.takeWhile fun g => g.2.2 ≤ m) ++
        ((garbage.dropWhile fun g => g.2.2 ≤ m).takeWhile fun g => g.2.2 ≤ n) =
      garbage.takeWhile fun g => g.2.2 ≤ n := by
  induction garbage with
  | nil => rfl
  | cons g garbage ih =>
    by_cases hg : g.2.2 ≤ m
    · simp [hg, Nat.le_trans hg h, ih]
    · simp [hg]

/-- The messages of the lexer among all messages are those about the text that has been passed in the
end, whenever the parser has complained in between. -/
theorem filter_merge {seen : Nat} {cs : List Complaint} (hcs : ∀ c ∈ cs, c.seen ≤ seen)
    (garbage : List (List Char × Position × Nat)) :
    (T.merge seen garbage cs).filter Message.isLexical =
      garbageMessages (garbage.takeWhile fun g => g.2.2 ≤ seen) := by
  induction cs generalizing garbage with
  | nil => exact filter_garbageMessages _
  | cons c cs ih =>
    obtain ⟨hc, hcs⟩ := List.forall_mem_cons.1 hcs
    have hquiet : ¬ (T.complaintMessage c).isLexical = true := by
      rw [isLexical_complaintMessage]
      exact Bool.false_ne_true
    calc (T.merge seen garbage (c :: cs)).filter Message.isLexical
        = garbageMessages (garbage.takeWhile fun g => g.2.2 ≤ c.seen) ++
            garbageMessages ((garbage.dropWhile fun g => g.2.2 ≤ c.seen).takeWhile
              fun g => g.2.2 ≤ seen) := by
          rw [merge_cons, List.filter_append, filter_garbageMessages,
            List.filter_cons_of_neg hquiet, ih hcs]
      _ = garbageMessages (garbage.takeWhile fun g => g.2.2 ≤ seen) := by
          rw [← takeWhile_append_takeWhile hc garbage]
          exact List.map_append.symm

/-- In front of a text that is no token there are only visible tokens of the stream. -/
theorem le_of_mem_garbage {ls : List Lexical.Lexeme} {p : Position} {n : Nat}
    {g : List Char × Position × Nat} (h : g ∈ (ofLexemes p n ls).garbage) :
    g.2.2 ≤ n + (ofLexemes p n ls).visible.size := by
  induction ls generalizing p n with
  | nil => cases h
  | cons l ls ih =>
    cases l with
    | token t =>
      have hrest := ih h
      simp only [ofLexemes, visible, List.size_toArray, List.filter_cons] at hrest ⊢
      cases hhidden : t.kind.isHidden with
      | true => simpa [hhidden] using hrest
      | false =>
        simp only [hhidden, Bool.false_eq_true, if_false, Bool.not_false, if_true,
          List.length_cons] at hrest ⊢
        omega
    | garbage text q =>
      rcases List.mem_cons.1 h with rfl | h
      · exact Nat.le_add_right _ _
      · exact ih h

end TokenStream

/-! ## What the parser has looked at -/

/-- The parser has looked at the next token, and at no less than when it complained. -/
structure Progress.Watchful (s : Progress) : Prop where
  next : s.pos ≤ s.seen
  complaints : ∀ c ∈ s.complaints, c.seen ≤ s.seen

namespace Progress

variable {s : Progress} {kinds : Array Kind}

theorem watchful_initial : initial.Watchful := ⟨Nat.le_refl 0, nofun⟩

theorem Watchful.lookAt (h : s.Watchful) (i : Nat) : (s.lookAt kinds i).Watchful where
  next := Nat.le_trans h.next (Nat.le_max_left _ _)
  complaints c hc := Nat.le_trans (h.complaints c hc) (Nat.le_max_left _ _)

theorem Watchful.complain (h : s.Watchful) (pos : Nat) (cause : Cause) :
    (s.complain pos cause).Watchful := by
  unfold Progress.complain
  split
  · exact h
  · exact ⟨h.next, List.forall_mem_cons.2 ⟨Nat.le_refl _, h.complaints⟩⟩

theorem Watchful.settle (h : s.Watchful) : s.settle.Watchful := ⟨h.next, h.complaints⟩

/-- Behind the next token the parser looks at once. -/
theorem Watchful.advance (h : s.Watchful) : (s.advance kinds).Watchful := by
  unfold Progress.advance
  split
  · rename_i hlt
    refine ⟨?_, fun c hc => Nat.le_trans (h.complaints c hc) (Nat.le_max_left _ _)⟩
    have hlooked : s.pos + 1 ≤ min (s.pos + 1) kinds.size := Nat.le_min.2 ⟨Nat.le_refl _, hlt⟩
    exact Nat.le_trans hlooked (Nat.le_max_right _ _)
  · exact h

end Progress

/-- On every stretch of a parse the parser goes on to look at the next token. -/
theorem Trail.watchful {S : Setting} {K : Kind → Bool} {R : Rule → Bool} {s s' : Progress}
    {ts : List (Tree Nat)} (h : Trail S K R s ts s') (hs : s.Watchful) : s'.Watchful := by
  induction h with
  | refl | assume => exact hs
  | trans _ _ ih ih' => exact ih' (ih hs)
  | look i => exact hs.lookAt i
  | cut | fail => exact ⟨hs.next, hs.complaints⟩
  | complain pos cause => exact hs.complain pos cause
  | accept => exact hs.settle.advance
  | skip => exact hs.advance
  | drop => exact hs.advance.settle
  | node _ _ _ ih | named _ _ ih => exact ih hs

/-- A parse has looked at the token at which it stops, and at no less than when it complained. -/
theorem TokenStream.parse_watchful (T : TokenStream) (r : Rule) (level : Nat) :
    (T.parse r level).next ≤ (T.parse r level).seen ∧
      ∀ c ∈ (T.parse r level).complaints, c.seen ≤ (T.parse r level).seen := by
  obtain ⟨t, htrail, hnext, hseen, hcomplaints⟩ := T.parse_trail r level
  have hend := htrail.watchful Progress.watchful_initial
  rw [hnext, hseen, hcomplaints]
  exact ⟨hend.next, fun c hc => hend.complaints c (List.mem_reverse.1 hc)⟩

/-! ## Messages about a source text -/

/-- The messages of the lexer are those about the text in front of the last token that has been looked
at. -/
theorem analyse_filter_isLexical (r : Rule) (level : Nat) (source : List Char) :
    let T := TokenStream.ofSource source
    (analyse r level source).messages.filter Message.isLexical =
      TokenStream.garbageMessages
        (T.garbage.takeWhile fun g => g.2.2 ≤ (T.parse r level).seen) := by
  intro T
  exact T.filter_merge (T.parse_watchful r level).2 T.garbage

/-- **Lexing on demand leaves out only the last messages of the lexer.** Whatever the parser looks at
and complains about, the messages of the lexer among its messages are, in order, the first ones of
those for the whole source text, and they are all of them if the parser stops at the end of the
file. -/
theorem lexical_messages_prefix (r : Rule) (level : Nat) (source : List Char) :
    (analyse r level source).messages.filter Message.isLexical <+:
        (TokenStream.ofSource source).messages ∧
      ((analyse r level source).next = .endOfFile →
        (analyse r level source).messages.filter Message.isLexical =
          (TokenStream.ofSource source).messages) := by
  have hlexical := analyse_filter_isLexical r level source
  set T := TokenStream.ofSource source
  rw [hlexical, T.messages_eq]
  refine ⟨(List.takeWhile_prefix _).map _, fun hend => ?_⟩
  have hnext : (T.parse r level).next = T.visible.size :=
    (analyse_next_eq_endOfFile r level source).1 hend
  have hall : ∀ g ∈ T.garbage, g.2.2 ≤ (T.parse r level).seen := by
    intro g hg
    calc g.2.2 ≤ 0 + T.visible.size := TokenStream.le_of_mem_garbage hg
      _ = (T.parse r level).next := by rw [hnext, Nat.zero_add]
      _ ≤ (T.parse r level).seen := (T.parse_watchful r level).1
  rw [List.takeWhile_eq_self_iff.2 (by simpa using hall)]

end JavaOutline
