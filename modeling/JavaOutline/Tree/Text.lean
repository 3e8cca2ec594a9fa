import JavaOutline.Token.Basic
import JavaOutline.Tree.Walk

/-!
# The text of a tree

Blanks and comments are not in the tree, so the text of a tree is the text of its tokens with
nothing between them. An assumed token has a text that says what is missing.

A walk through a tree can be written down as well, one line for each event (`Tree.lines`). A line
shows less than the event: of a leaf only its text and whether it comes from error recovery (`Mark`).
-/

namespace JavaOutline

/-- The text of an assumed token. -/
def Kind.missingText (k : Kind) : List Char :=
  ("<missing " ++ (if k = .endOfFile then k.name else k.display) ++ ">").toList

namespace Tree

mutual

/-- The text of a tree. -/
def text : Tree Token → List Char
  | .token _ t => t.text
  | .skipped t => t.text
  | .missing k => k.missingText
  | .node _ _ children => textAll children

/-- The text of several trees. -/
def textAll : List (Tree Token) → List Char
  | [] => []
  | t :: ts => t.text ++ textAll ts

end

end Tree

/-- The name of a rule behind a verb: it begins with a capital letter. -/
def Rule.title (r : Rule) : List Char :=
  match r.name.toList with
  | [] => []
  | c :: cs => c.toUpper :: cs

/-- What a line shows of an event. -/
inductive Mark where
  | enter (r : Rule)
  | leave (r : Rule)
  /-- A leaf with its text. Leaves that come from error recovery are faulty. -/
  | leaf (faulty : Bool) (text : List Char)
  deriving DecidableEq, Repr, Inhabited

/-- The line of an event. -/
def Mark.line : Mark → List Char
  | .enter r => "enter".toList ++ r.title
  | .leave r => "exit".toList ++ r.title
  | .leaf false text => "T ".toList ++ text
  | .leaf true text => "E ".toList ++ text

/-- What is shown of an event. -/
def Event.mark : Event Token → Mark
  | .enter r => .enter r
  | .leave r => .leave r
  | .token t => .leaf false t.text
  | .skipped t => .leaf true t.text
  | .missing k => .leaf true k.missingText

/-- The lines of a walk through a tree. -/
def Tree.lines (t : Tree Token) : List (List Char) := t.events.map fun e => e.mark.line

end JavaOutline
