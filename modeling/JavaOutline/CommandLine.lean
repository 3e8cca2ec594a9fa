import JavaOutline.Text.Quoted

/-!
# The command line

The program takes one directory and the options `--help` and `--methods-only`. A long option may be
shortened as long as it stays clear which one is meant, and `--` ends the options. Everything else
that looks like an option is one that is not known, unless it is a negative number or has a blank in
it.
-/

namespace JavaOutline

namespace CommandLine

/-- An option. -/
inductive Flag where
  | help
  | methodsOnly
  deriving DecidableEq, Repr, Inhabited

/-- All spellings of an option, as messages show them. -/
def Flag.display : Flag → String
  | .help => "-h/--help"
  | .methodsOnly => "--methods-only"

/-- The options by their spellings. -/
def spellings : List (List Char × Flag) :=
  [("-h".toList, .help), ("--help".toList, .help), ("--methods-only".toList, .methodsOnly)]

/-- An argument, as it is understood. -/
inductive Argument where
  /-- The mark that ends the options. -/
  | separator
  /-- No option. -/
  | plain (s : List Char)
  /-- An option. -/
  | flag (f : Flag)
  /-- An option with a value, although no option takes one. -/
  | valued (f : Flag) (value : List Char)
  /-- An option that is not known. -/
  | unknown (s : List Char)
  /-- A shortened option that could be any of several. -/
  | ambiguous (s : List Char) (candidates : List (List Char))
  deriving DecidableEq, Repr, Inhabited

/-- Is the text a negative number? -/
def isNegativeNumber : List Char → Bool
  | '-' :: s =>
    let whole := s.takeWhile Char.isDigit
    match s.dropWhile Char.isDigit with
    | [] => !whole.isEmpty
    | '.' :: fraction => !fraction.isEmpty && fraction.all Char.isDigit
    | _ => false
  | _ => false

/-- What is behind `-h` in the same argument: more short options. The result is what stands there
as a value, if something does. -/
def clusterValue? : List Char → Option (List Char)
  | '-' :: s => some ('-' :: s)
  | 'h' :: '=' :: s => some s
  | 'h' :: s => clusterValue? s
  | _ => none

/-- A long option, perhaps shortened, with the value behind `=`. -/
def shortened (s name : List Char) (value : Option (List Char)) : Option Argument :=
  match spellings.filter fun o => name.isPrefixOf o.1 with
  | [] => none
  | [(_, f)] => some (match value with
    | none => .flag f
    | some v => .valued f v)
  | several => some (.ambiguous s (several.map (·.1)))

/-- The text before the first `=`, and the text behind it. -/
def splitValue (s : List Char) : List Char × Option (List Char) :=
  match s.dropWhile (· ≠ '=') with
  | [] => (s, none)
  | _ :: value => (s.takeWhile (· ≠ '='), some value)

/-- The option of an argument that is not spelled out in full. -/
def looseOption? (s : List Char) : Option Argument :=
  match splitValue s, s with
  | (name, value), '-' :: '-' :: _ => shortened s name value
  | _, '-' :: 'h' :: rest => some (match clusterValue? rest with
    | some v => .valued .help v
    | none => .flag .help)
  | _, _ => none

/-- How an argument before the mark `--` is understood. -/
def classify (s : List Char) : Argument :=
  match s with
  | '-' :: _ :: _ =>
    match spellings.lookup s with
    | some f => .flag f
    | none =>
      match splitValue s with
      | (name, some value) =>
        match spellings.lookup name with
        | some f => .valued f value
        | none => loose s
      | _ => loose s
  | s => .plain s
where
  /-- An argument that is not spelled out in full. -/
  loose (s : List Char) : Argument :=
    match looseOption? s with
    | some a => a
    | none => if isNegativeNumber s || s.contains ' ' then .plain s else .unknown s

/-- How all arguments are understood. -/
def classifyAll : List (List Char) → List Argument
  | [] => []
  | s :: rest =>
    if s = ['-', '-'] then .separator :: rest.map .plain else classify s :: classifyAll rest

/-- What the program is asked to do. -/
inductive Command where
  | help
  | outline (directory : List Char) (methodsOnly : Bool)
  deriving DecidableEq, Repr, Inhabited

/-- Why the arguments make no sense. -/
inductive Misuse where
  | ambiguous (s : List Char) (candidates : List (List Char))
  | unwantedValue (f : Flag) (value : List Char)
  | noDirectory
  | unrecognized (extras : List (List Char))
  deriving DecidableEq, Repr, Inhabited

/-- A misuse in words. -/
def Misuse.message : Misuse → List Char
  | .ambiguous s candidates =>
    "ambiguous option: ".toList ++ s ++ " could match ".toList ++
      ", ".toList.intercalate candidates
  | .unwantedValue f value =>
    ("argument " ++ f.display ++ ": ignored explicit argument ").toList ++ Quoted.encode value
  | .noDirectory => "the following arguments are required: directory".toList
  | .unrecognized extras => "unrecognized arguments: ".toList ++ " ".toList.intercalate extras

/-- What has been gathered from the arguments. -/
structure Gathered where
  directory : Option (List Char)
  methodsOnly : Bool
  extras : List (List Char)
  deriving DecidableEq, Repr, Inhabited

/-- The end of the arguments: a directory is needed, and nothing may be left over. -/
def Gathered.finish (g : Gathered) : Except Misuse Command :=
  match g.directory, g.extras with
  | none, _ => .error .noDirectory
  | some d, [] => .ok (.outline d g.methodsOnly)
  | some _, extras => .error (.unrecognized extras)

/-- Adds arguments that have no use. -/
def Gathered.leaveOver (g : Gathered) (extras : List (List Char)) : Gathered :=
  { g with extras := g.extras ++ extras }

/-- Goes through the arguments. The first one that is no option is the directory. The mark `--`
counts for nothing next to it, and is left over otherwise. -/
def gather : Gathered → List Argument → Except Misuse Command
  | g, [] => g.finish
  | g, .plain s :: .separator :: rest =>
    match g.directory with
    | none => gather { g with directory := some s } rest
    | some _ => gather (g.leaveOver [s, ['-', '-']]) rest
  | g, .separator :: .plain s :: rest =>
    match g.directory with
    | none => gather { g with directory := some s } rest
    | some _ => gather (g.leaveOver [['-', '-'], s]) rest
  | g, .plain s :: rest =>
    match g.directory with
    | none => gather { g with directory := some s } rest
    | some _ => gather (g.leaveOver [s]) rest
  | g, .separator :: rest => gather (g.leaveOver [['-', '-']]) rest
  | g, .unknown s :: rest => gather (g.leaveOver [s]) rest
  | g, .flag .methodsOnly :: rest => gather { g with methodsOnly := true } rest
  | _, .flag .help :: _ => .ok .help
  | _, .valued f value :: _ => .error (.unwantedValue f value)
  | _, .ambiguous s candidates :: _ => .error (.ambiguous s candidates)

/-- What the arguments ask for. A shortened option that is not clear is refused before anything
else. -/
def parse (args : List (List Char)) : Except Misuse Command :=
  let arguments := classifyAll args
  match arguments.find? fun
      | .ambiguous _ _ => true
      | _ => false with
  | some (.ambiguous s candidates) => .error (.ambiguous s candidates)
  | _ => gather ⟨none, false, []⟩ arguments

/-- The name under which the program is called. -/
def program : String := "java_summary_antlr.py"

/-- The line that shows how the program is used. -/
def usage : String := "usage: " ++ program ++ " [-h] [--methods-only] directory\n"

/-- What `--help` shows. -/
def help : String :=
  usage ++ "\nProcess some java files.\n\npositional arguments:\n" ++
  "  directory       A directory to scan\n\noptions:\n" ++
  "  -h, --help      show this help message and exit\n" ++
  "  --methods-only  Omit fields from the output\n"

/-- What is shown about a misuse. -/
def complaint (m : Misuse) : List Char :=
  (usage ++ program ++ ": error: ").toList ++ m.message ++ ['\n']

end CommandLine

end JavaOutline
