/-!
# Searching and joining texts

A text is a list of characters.
-/

namespace JavaOutline

/-- Does `needle` occur in the text? -/
def occursIn (needle : List Char) : List Char → Bool
  | [] => needle.isEmpty
  | c :: cs => needle.isPrefixOf (c :: cs) || occursIn needle cs

/-- The texts with a comma and a blank between them. -/
def commaSeparated (texts : List (List Char)) : List Char := (", ".toList).intercalate texts

/-- A line of text, moved to the right by two blanks for each level; nothing to move at a level that
is not positive. -/
def indentedLine (level : Int) (text : List Char) : List Char :=
  List.replicate (2 * level).toNat ' ' ++ text ++ ['\n']

end JavaOutline
