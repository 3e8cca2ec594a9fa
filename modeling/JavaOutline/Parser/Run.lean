import JavaOutline.Parser.Recovery

/-!
# Parsing

The parser reads a right-hand side from left to right. At every decision it chooses one alternative,
by the next token if the decision is direct and by looking ahead if not, and never comes back to
it. A rule that applies operators begins with an atom; then, as long as another operator is allowed
and follows, what has been read becomes the first child of a new node.

All functions take a bound on the depth of their calls and note in the state if it was too small.
-/

namespace JavaOutline

namespace Setting

variable (S : Setting)

/-- The decision at a place. A direct decision that fits no alternative takes the way `otherwise`;
without one it fails. -/
def decide (F : Frame) (p : Place) (otherwise : Option Nat) (s : Progress) : Verdict × Progress :=
  match S.net.direct p with
  | some sets =>
    match sets.findIdx? (·.contains (S.next s)), otherwise with
    | some i, _ => (.take (i + 1), s)
    | none, some alt => (.take alt, s)
    | none, none => (.stuck s.pos, s)
  | none =>
    let f := forecast S.net S.kinds F.callers F.level p s.pos
    (f.verdict, { s.lookAt S.kinds f.seen with cutShort := s.cutShort || f.overrun })

/-- The alternative with this number, counted from 1, of those laid out from `base` on, with its
place. -/
def alternative? (r : Rule) : Nat → List Piece → Nat → Option (Place × Piece)
  | _, [], _ => none
  | _, _ :: _, 0 => none
  | base, p :: _, 1 => some (⟨r, base⟩, p)
  | base, p :: ps, i + 2 => alternative? r (base + p.size + p.tail) ps (i + 1)

/-- The error of a decision at `p` that no alternative fits. -/
def noAlternative (p : Place) (s : Progress) (pos : Nat) : Fault := ⟨p, pos, .noAlternative s.pos⟩

/-- The place behind the token or call at a place. -/
def behind (p : Place) : Place :=
  match S.net.node p with
  | .take _ next => p.move next
  | .call _ _ next => p.move next
  | _ => p

mutual

/-- Parses a piece that is laid out at a place. -/
def parsePiece : Nat → Frame → Place → Piece → Progress → Step
  | 0, _, _, _, s => .ok [] { s with cutShort := true }
  | n + 1, F, p, piece, s =>
    match piece with
    | .nothing => .ok [] s
    | .token k => S.accept F p (.single k) (S.behind p) [.missing k] s
    | .oneOf ks => S.accept F p (.ofList ks) (S.behind p) [] s
    | .guard level =>
      if F.level ≤ level then .ok [] s else .fail ⟨p, s.pos, .forbidden p.rule level⟩ s
    | .call r level =>
      let (t, s) := parseRule n (S.behind p :: F.callers) r level s
      .ok [t] s
    | .named role q =>
      let a := parsePiece n F p q s
      { a with trees := if a.fault.isNone then Tree.lastWithRole role a.trees else a.trees }
    | .andThen q q' =>
      (parsePiece n F p q s).andThen (parsePiece n F (p.move (p.offset + q.size)) q')
    | .choice alts => parseBlock n F p (p.offset + 2) alts none s
    | .optional alts => parseBlock n F p (p.offset + 2) alts (some (alts.length + 1)) s
    | .many alts => (S.resync F p false s).andThen (parseMany n F p p alts)
    | .many1 alts => (S.resync F p false s).andThen (parseMany1 n F p alts)

/-- Parses one of several alternatives laid out from `base` on, chosen at `p`. With a way
`otherwise` there may be nothing instead. -/
def parseBlock : Nat → Frame → Place → Nat → List Piece → Option Nat → Progress → Step
  | 0, _, _, _, _, _, s => .ok [] { s with cutShort := true }
  | n + 1, F, p, base, alts, otherwise, s =>
    (S.resync F p false s).andThen fun s =>
      match S.decide F p otherwise s with
      | (.stuck pos, s) => .fail (noAlternative p s pos) s
      | (.take i, s) =>
        match alternative? p.rule base alts i with
        | some (q, piece) => parsePiece n F q piece s
        | none => .ok [] s

/-- Parses the body of a loop: one of its alternatives. -/
def parseTurn : Nat → Frame → Place → Nat → List Piece → Progress → Step
  | 0, _, _, _, _, s => .ok [] { s with cutShort := true }
  | n + 1, F, p, base, alts, s =>
    match alts with
    | [piece] => parsePiece n F ⟨p.rule, base⟩ piece s
    | alts => parseBlock n F p base alts none s

/-- Parses any number of turns of a loop at `p`. The parser stands at `q`: in front of the loop, or
where a turn leads back. -/
def parseMany : Nat → Frame → Place → Place → List Piece → Progress → Step
  | 0, _, _, _, _, s => .ok [] { s with cutShort := true }
  | n + 1, F, p, q, alts, s =>
    match S.decide F p (some 2) s with
    | (.stuck pos, s) => .fail (noAlternative q s pos) s
    | (.take 1, s) =>
      let back := p.move (p.offset + 3)
      (((parseTurn n F (p.move (p.offset + 1)) (p.offset + 5) alts s).andThen
        (S.resync F back true))).andThen (parseMany n F p back alts)
    | (.take _, s) => .ok [] s

/-- Parses one or more turns of a loop at `p`. -/
def parseMany1 : Nat → Frame → Place → List Piece → Progress → Step
  | 0, _, _, _, s => .ok [] { s with cutShort := true }
  | n + 1, F, p, alts, s =>
    let back := p.move (p.offset + 2)
    ((parseTurn n F p (p.offset + 4) alts s).andThen (S.resync F back true)).andThen fun s =>
      match S.decide F back (some 2) s with
      | (.stuck pos, s) => .fail (noAlternative back s pos) s
      | (.take 1, s) => parseMany1 n F p alts s
      | (.take _, s) => .ok [] s

/-- Applies operators at the loop `p` to an operand whose children are `operand`. The result holds
the children of the whole. The parser stands at `stand`: in front of the loop, or where an operator
leads back. -/
def parseOperators : Nat → Frame → Place → Place → List Piece → List (Tree Nat) → Progress → Step
  | 0, _, _, _, _, operand, s => .ok operand { s with cutShort := true }
  | n + 1, F, p, stand, alts, operand, s =>
    match S.decide F p (some 2) s with
    | (.stuck pos, s) => ⟨operand, s, some (noAlternative stand s pos)⟩
    | (.take 1, s) =>
      let block := p.move (p.offset + 1)
      let a := if alts.length = 1 then Step.ok [] s else S.resync F block false s
      let operand := operand ++ a.trees
      match a.fault with
      | some f => ⟨operand, a.state, some f⟩
      | none =>
        match (if alts.length = 1 then (.take 1, a.state) else S.decide F block none a.state) with
        | (.stuck pos, s) => ⟨operand, s, some (noAlternative block s pos)⟩
        | (.take i, s) =>
          match alternative? p.rule (p.offset + 5) alts i with
          | none => .ok operand s
          | some (q, piece) =>
            let back := p.move (p.offset + 3)
            let b := (parsePiece n F q piece s).andThen (S.resync F back true)
            let whole := .node none p.rule operand :: b.trees
            match b.fault with
            | some f => ⟨whole, b.state, some f⟩
            | none => parseOperators n F p back alts whole b.state
    | (.take _, s) => .ok operand s

/-- Parses a rule with operators of this level or higher. -/
def parseRule : Nat → List Place → Rule → Nat → Progress → Tree Nat × Progress
  | 0, _, r, _, s => (.node none r [], { s with cutShort := true })
  | n + 1, callers, r, level, s =>
    let F : Frame := ⟨callers, level⟩
    let a := match S.body r with
      | .plain piece => parsePiece n F (.start r) piece s
      | .operators atoms suffixes =>
        let loop : Place := ⟨r, 1 + (Piece.choice atoms).size⟩
        let a := (parsePiece n F (.start r) (.choice atoms) s).andThen (S.resync F loop false)
        match a.fault with
        | some _ => a
        | none => parseOperators n F loop loop (suffixes.map Suffix.piece) a.trees a.state
    match a.fault with
    | none => (.node none r a.trees, a.state)
    | some f =>
      let b := S.giveUp F f a.state
      (.node none r (a.trees ++ b.trees), b.state)

end

end Setting

/-- The result of a parse. -/
structure Parse where
  /-- The tree, with the positions of the tokens at its leaves. -/
  tree : Tree Nat
  /-- The complaints, in the order in which they were made. -/
  complaints : List Complaint
  /-- The position of the next token. -/
  next : Nat
  /-- The last position that was looked at. -/
  seen : Nat
  /-- Was the work cut short by a bound on its length? -/
  cutShort : Bool

/-- How deep the calls of the parser may go for this many tokens. -/
def depthLimit (tokens : Nat) : Nat := 2000000 + 1000000 * tokens

namespace Setting

/-- Parses a rule from the first token on, with this bound on the depth of the calls: the tree, and
the state in which the parser ends. -/
def run (S : Setting) (depth : Nat) (r : Rule) (level : Nat) : Tree Nat × Progress :=
  S.parseRule depth [] r level .initial

/-- Parses a rule, with operators of this level or higher, from the first token on. -/
def parse (S : Setting) (r : Rule) (level : Nat) : Parse :=
  let result := S.run (depthLimit S.kinds.size) r level
  { tree := result.1
    complaints := result.2.complaints.reverse
    next := result.2.pos
    seen := result.2.seen
    cutShort := result.2.cutShort }

/-- The parser of Java on visible tokens of these kinds, with their indices in the stream. -/
def java (kinds : Array Kind) (index : Nat → Nat) : Setting := ⟨.java, Rule.body, kinds, index⟩

end Setting

end JavaOutline
