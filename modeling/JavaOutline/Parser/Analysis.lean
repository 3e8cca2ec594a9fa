import JavaOutline.Lexer.Scan
import JavaOutline.Parser.Run
import JavaOutline.Tree.Text

/-!
# From a source text to a tree and messages

The lexer works on demand: text that is no token is reported when the parser first looks at the
token behind it, and not at all if the parser never looks that far. `messages` puts the complaints
of the lexer and of the parser in the order in which they are made.
-/

namespace JavaOutline

/-- A message about a source text. -/
structure Message where
  line : Nat
  column : Nat
  text : List Char
  deriving DecidableEq, Repr, Inhabited

/-- A text on one line: line feeds, tabs and carriage returns are written as escapes. -/
def oneLine (s : List Char) : List Char :=
  s.flatMap fun
    | '\n' => ['\\', 'n']
    | '\t' => ['\\', 't']
    | '\r' => ['\\', 'r']
    | c => [c]

/-- A text on one line between quotes. -/
def quoted (s : List Char) : List Char := '\'' :: oneLine s ++ ['\'']

/-- A list of names: one alone as it is, several between braces. -/
def KindSet.display (ks : KindSet) : String :=
  match ks.toList with
  | [k] => k.display
  | ks => "\x7b" ++ ", ".intercalate (ks.map Kind.display) ++ "\x7d"

/-- The tokens of a source text. -/
structure TokenStream where
  /-- All tokens but the last, with blanks and comments. -/
  tokens : List Token
  /-- Text that is no token, with its position and the number of visible tokens before it. -/
  garbage : List (List Char × Position × Nat)
  /-- The token that closes the stream. -/
  final : Token

namespace TokenStream

/-- The token stream of the lexemes from a position on, behind `n` visible tokens. -/
def ofLexemes : Position → Nat → List Lexical.Lexeme → TokenStream
  | p, _, [] => ⟨[], [], .endOfFile p⟩
  | _, n, .token t :: ls =>
    let rest := ofLexemes (t.position.advance t.text) (if t.kind.isHidden then n else n + 1) ls
    { rest with tokens := t :: rest.tokens }
  | _, n, .garbage text p :: ls =>
    let rest := ofLexemes (p.advance text) n ls
    { rest with garbage := (text, p, n) :: rest.garbage }

/-- The token stream of a source text. -/
def ofSource (s : List Char) : TokenStream := ofLexemes .start 0 (lex s)

/-- All tokens, the last one included. -/
def all (T : TokenStream) : List Token := T.tokens ++ [T.final]

/-- The tokens that the parser sees. -/
def visible (T : TokenStream) : Array Token := (T.tokens.filter fun t => !t.kind.isHidden).toArray

/-- The visible token at a position. -/
def get (T : TokenStream) (i : Nat) : Token := T.visible.getD i T.final

/-- The kinds of the tokens that the parser sees. -/
def kinds (T : TokenStream) : Array Kind := T.visible.map (·.kind)

/-- The number of tokens in front of the visible one at a position, hidden ones included. Behind
these tokens every token is visible. -/
def indexIn : List Token → Nat → Nat
  | [], i => i
  | t :: ts, i =>
    if t.kind.isHidden then indexIn ts i + 1
    else match i with
      | 0 => 0
      | i + 1 => indexIn ts i + 1

/-- The index in the stream of the visible token at a position. -/
def index (T : TokenStream) (i : Nat) : Nat := indexIn T.tokens i

/-- Parses a rule, with operators of this level or higher, from the first token on. -/
def parse (T : TokenStream) (r : Rule) (level : Nat) : Parse :=
  (Setting.java T.kinds T.index).parse r level

/-- The text from one visible token to another, with the blanks and comments between them. The end
of the file has no text. -/
def textBetween (T : TokenStream) (i j : Nat) : List Char :=
  let first := (T.get i).position.offset
  let last := (T.get j).position.offset
  (T.tokens.filter fun t => first ≤ t.position.offset && t.position.offset ≤ last).flatMap (·.text)

/-- The message about text that is no token. -/
def garbageMessage (text : List Char) (p : Position) : Message :=
  ⟨p.line, p.column, "token recognition error at: ".toList ++ quoted text⟩

/-- The messages about all text that is no token. -/
def messages (T : TokenStream) : List Message :=
  T.garbage.map fun (text, p, _) => garbageMessage text p

/-- The message of a complaint of the parser. -/
def complaintMessage (T : TokenStream) (c : Complaint) : Message :=
  let t := T.get c.pos
  let text := match c.cause with
    | .mismatched ks =>
      "mismatched input ".toList ++ quoted t.text ++ (" expecting " ++ ks.display).toList
    | .extraneous ks =>
      "extraneous input ".toList ++ quoted t.text ++ (" expecting " ++ ks.display).toList
    | .missing ks => ("missing " ++ ks.display ++ " at ").toList ++ quoted t.text
    | .noAlternative start =>
      let first := T.get start
      let input := if first.kind = .endOfFile then first.text else T.textBetween start c.pos
      "no viable alternative at input ".toList ++ quoted input
    | .forbidden r level =>
      ("rule " ++ r.name ++ " failed predicate: \x7bself.precpred(self._ctx, " ++ toString level ++
        ")\x7d?").toList
  ⟨t.position.line, t.position.column, text⟩

/-- Puts the complaints of the lexer before those of the parser that were made later. `seen` is how
far the parser has looked in the end. -/
def merge (T : TokenStream) (seen : Nat) :
    List (List Char × Position × Nat) → List Complaint → List Message
  | garbage, [] =>
    (garbage.takeWhile fun (_, _, n) => n ≤ seen).map fun (text, p, _) => garbageMessage text p
  | garbage, c :: cs =>
    ((garbage.takeWhile fun (_, _, n) => n ≤ c.seen).map fun (text, p, _) =>
        garbageMessage text p) ++
      T.complaintMessage c :: merge T seen (garbage.dropWhile fun (_, _, n) => n ≤ c.seen) cs

end TokenStream

/-- What a source text has been found to be. -/
structure Analysis where
  /-- The syntax tree. -/
  tree : Tree Token
  /-- The messages, in the order in which they arose. -/
  messages : List Message
  /-- The kind of the first token that is not in the tree. -/
  next : Kind
  /-- Was the work cut short by a bound on its length? -/
  cutShort : Bool

/-- Parses a rule, with operators of this level or higher, from the start of a source text. -/
def analyse (r : Rule) (level : Nat) (source : List Char) : Analysis :=
  let T := TokenStream.ofSource source
  let visible := T.visible
  let p := T.parse r level
  { tree := p.tree.map fun i => visible.getD i T.final
    messages := T.merge p.seen T.garbage p.complaints
    next := (visible.getD p.next T.final).kind
    cutShort := p.cutShort }

end JavaOutline
