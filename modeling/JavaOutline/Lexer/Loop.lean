import JavaOutline.Lexer.Pattern

/-!
# Loops that end as soon as they can

The body of a comment or a text block is a loop: any number of turns, each of them a text of one of
several patterns, and then an end mark. Texts of the patterns may overlap with each other and with
the end mark, so the loop is read in all ways at once. The ways are kept in order of preference: at
the head of the loop the end mark comes before another turn, and an earlier pattern for a turn
before a later one. Once a way has come to the end of the end mark, the ways behind it are given up;
that is how the loop ends as soon as it can. Of several ways to the head of the loop only the first
is kept, since they go on alike.
-/

namespace JavaOutline

/-- Is it plain that no text but the empty one can follow? -/
def Pattern.isOver : Pattern → Bool
  | .never | .nothing => true
  | _ => false

/-- An opening, then turns of a loop, then an end mark. -/
structure Loop where
  opening : Pattern
  /-- What a turn may be, the preferred pattern first. -/
  turns : List Pattern
  stop : List Char

/-- Where a way through a loop has come to. -/
inductive Way where
  /-- In the opening, of which `rest` is to come. -/
  | opening (rest : Pattern)
  /-- At the head of the loop. -/
  | head
  /-- In a turn, of which `rest` is to come. -/
  | turn (rest : Pattern)
  /-- In the end mark, of which `rest` is to come. -/
  | stop (rest : List Char)

namespace Way

/-- Is the way in front of the loop? -/
def isOpening : Way → Bool
  | .opening _ => true
  | _ => false

/-- Is the way at the head of the loop? -/
def isHead : Way → Bool
  | .head => true
  | _ => false

/-- Has the way come to the end of the end mark? -/
def isEnd : Way → Bool
  | .stop [] => true
  | _ => false

end Way

namespace Loop

/-- The ways of which `rest` is to come before the head of the loop: one that goes on in it, and one
that is there. -/
def toHead (inside : Pattern → Way) (rest : Pattern) : List Way :=
  (if rest.isOver then [] else [inside rest]) ++ if rest.isNullable then [.head] else []

/-- The ways on which the character is the next one of the end mark, of which `rest` is to come. -/
def toStop (c : Char) : List Char → List Way
  | [] => []
  | d :: rest => if c = d then [.stop rest] else []

/-- The ways to which a way leads with a character, in order of preference. -/
def follow (L : Loop) (c : Char) : Way → List Way
  | .opening rest => toHead .opening (rest.after c)
  | .head => toStop c L.stop ++ L.turns.flatMap fun p => toHead .turn (p.after c)
  | .turn rest => toHead .turn (rest.after c)
  | .stop rest => toStop c rest

/-- Leaves out the ways to the head of the loop but for the first one. -/
def headOnce : List Way → List Way
  | [] => []
  | w :: ws => w :: if w.isHead then ws.filter (!·.isHead) else headOnce ws

/-- Gives up the ways through the loop behind one that has come to its end. -/
def upToEnd : List Way → List Way
  | [] => []
  | w :: ws => w :: if w.isEnd then ws.filter (·.isOpening) else upToEnd ws

/-- The ways after a character. -/
def advance (L : Loop) (c : Char) (ways : List Way) : List Way :=
  upToEnd (headOnce (ways.flatMap (L.follow c)))

end Loop

/-- What is left of a rule for tokens while a text is read. -/
inductive Reading where
  /-- A text of the pattern is to come. -/
  | plain (rest : Pattern)
  /-- The loop goes on in these ways. -/
  | loop (L : Loop) (ways : List Way)

namespace Reading

/-- What is left after a character. -/
def after (c : Char) : Reading → Reading
  | .plain rest => .plain (rest.after c)
  | .loop L ways => .loop L (L.advance c ways)

/-- May the text end here? -/
def isNullable : Reading → Bool
  | .plain rest => rest.isNullable
  | .loop _ ways => ways.any Way.isEnd

/-- Is it plain that no text can follow? -/
def isDead : Reading → Bool
  | .plain rest => rest.isDead
  | .loop _ ways => ways.isEmpty

end Reading

/-- A rule for tokens. -/
inductive TokenRule where
  /-- The texts of a pattern. -/
  | plain (p : Pattern)
  /-- The texts of a loop. -/
  | loop (L : Loop)

/-- What is left of a rule before the first character. -/
def TokenRule.start : TokenRule → Reading
  | .plain p => .plain p
  | .loop L => .loop L [.opening L.opening]

end JavaOutline
