import JavaOutline.Parser.Progress

/-!
# Recovering from errors

The parser never gives up. Where the next token is wrong it first tries to repair the input by one
token: if the token after the next one would be right, the next one is dropped, and if the next one
would be right after the wanted one, the wanted one is assumed. If neither helps, the rule is given
up: tokens are skipped until one comes that may follow the rule or one of its callers.

Before every decision the parser checks that the next token can be right at all (`resync`), so that
an error is reported where it stands and not where a loop happens to end.
-/

namespace JavaOutline

/-- What the parser works with: the network, the right-hand sides, and the token stream. -/
structure Setting where
  net : Network
  body : Rule → Body
  /-- The kinds of the tokens that the parser can see. -/
  kinds : Array Kind
  /-- The index in the stream of the token at a position. -/
  index : Nat → Nat

/-- The call of a rule: where the rule and its callers will return to, innermost first, and the
least level of the operators allowed in it. -/
structure Frame where
  callers : List Place
  level : Nat

/-- An error that ends a rule: the place in the rule, the token, and the cause. -/
structure Fault where
  place : Place
  pos : Nat
  cause : Cause

/-- What has become of a piece: the trees it gave, the state after it, and the error that has
ended it. -/
structure Step where
  trees : List (Tree Nat)
  state : Progress
  fault : Option Fault

namespace Step

/-- A piece that is done. -/
def ok (trees : List (Tree Nat)) (state : Progress) : Step := ⟨trees, state, none⟩

/-- A piece that failed before it gave any trees. -/
def fail (fault : Fault) (state : Progress) : Step := ⟨[], state, some fault⟩

/-- Goes on with another piece, unless there was an error. -/
def andThen (a : Step) (f : Progress → Step) : Step :=
  match a.fault with
  | some _ => a
  | none =>
    let b := f a.state
    ⟨a.trees ++ b.trees, b.state, b.fault⟩

end Step

/-- The kinds that can come next at a place, given where the rule and its callers return to. -/
def expected (N : Network) : Place → List Place → KindSet
  | p, [] => if (N.look p).passes then (N.look p).kinds ∪ .single .endOfFile else (N.look p).kinds
  | p, ret :: rest =>
    if (N.look p).passes then (N.look p).kinds ∪ expected N ret rest else (N.look p).kinds

/-- The kinds that may follow a rule or one of its callers. -/
def restartKinds (N : Network) (callers : List Place) : KindSet :=
  callers.foldl (fun ks ret => ks ∪ (N.look ret).kinds) ∅

namespace Setting

variable (S : Setting)

/-- The kind of the next token. -/
def next (s : Progress) : Kind := kindAt S.kinds s.pos

/-- Takes the next token as it is. -/
def takeNext (s : Progress) : Step := .ok [s.leaf] (s.advance S.kinds)

/-- Skips tokens up to one of the given kinds or the end of the file. The first argument bounds
their number. -/
def skipTo (ks : KindSet) : Nat → Progress → Step
  | 0, s => .ok [] s
  | n + 1, s =>
    if S.next s = .endOfFile ∨ S.next s ∈ ks then .ok [] s
    else (S.takeNext s).andThen (skipTo ks n)

/-- Drops the next token if the one after it is of an expected kind. The token then is the next
one, and known to be right. -/
def drop? (ks : KindSet) (s : Progress) : Progress × Option Step :=
  let s := s.lookAt S.kinds (s.pos + 1)
  if kindAt S.kinds (s.pos + 1) ∈ ks then
    let dropped := S.takeNext (s.complain s.pos (.extraneous ks))
    (s, some { dropped with state := dropped.state.settle })
  else (s, none)

/-- Takes a token of one of the given kinds at a place, or repairs the input by one token.
`assumed` are the trees for a token that is assumed. -/
def accept (F : Frame) (p : Place) (ks : KindSet) (after : Place) (assumed : List (Tree Nat))
    (s : Progress) : Step :=
  if S.next s ∈ ks then S.takeNext s.settle
  else
    match S.drop? ks s with
    | (_, some dropped) => dropped.andThen S.takeNext
    | (s, none) =>
      if S.next s ∈ expected S.net after F.callers then
        .ok assumed (s.complain s.pos (.missing ks))
      else .fail ⟨p, s.pos, .mismatched ks⟩ s

/-- Checks before a decision that the next token can be right, unless there has been an error
already. If it cannot, one token is dropped if that helps; if not, a decision fails, and a loop
skips tokens until it can go on or the rule can be left. -/
def resync (F : Frame) (p : Place) (inLoop : Bool) (s : Progress) : Step :=
  let look := S.net.look p
  if s.recovering || look.passes || look.kinds.contains (S.next s) then .ok [] s
  else if inLoop then
    S.skipTo (look.kinds ∪ restartKinds S.net F.callers) (S.kinds.size - s.pos)
      (s.complain s.pos (.extraneous look.kinds))
  else
    match S.drop? look.kinds s with
    | (_, some dropped) => dropped
    | (s, none) => .fail ⟨p, s.pos, .mismatched look.kinds⟩ s

/-- Gives up a rule after an error: reports it, and skips tokens up to one that may follow. If the
parser has failed at this place before and the stream has not moved since, it skips at least one
token. -/
def giveUp (F : Frame) (f : Fault) (s : Progress) : Step :=
  let s := s.complain f.pos f.cause
  let stuck : Bool := s.lastError == some (S.index s.pos) && s.failed.contains f.place
  (if stuck then S.takeNext s else .ok [] s).andThen fun s =>
    let s := { s with lastError := some (S.index s.pos), failed := f.place :: s.failed }
    S.skipTo (restartKinds S.net F.callers) (S.kinds.size - s.pos) s

end Setting

end JavaOutline
