import JavaOutline.CommandLine
import JavaOutline.Outline.Directory

/-!
# The program

From the arguments and the directory they name to what is written and the exit status. The directory
is given as a function, so that nothing here touches the file system.
-/

namespace JavaOutline

/-- How a run of the program ends. -/
inductive Outcome where
  /-- The help text was asked for. -/
  | helped
  /-- The arguments make no sense. -/
  | refused (misuse : CommandLine.Misuse)
  /-- The outlines are written. -/
  | outlined (text : List Char)
  /-- A file has no outline. -/
  | failed (failure : Failure)
  deriving DecidableEq, Repr, Inhabited

/-- What is written to the standard output. -/
def Outcome.output : Outcome → List Char
  | .helped => CommandLine.help.toList
  | .outlined text => text
  | .refused _ | .failed _ => []

/-- What is written to the standard error output. -/
def Outcome.complaint : Outcome → List Char
  | .refused misuse => CommandLine.complaint misuse
  | .failed failure => failure.message ++ ['\n']
  | .helped | .outlined _ => []

/-- The exit status. -/
def Outcome.status : Outcome → Nat
  | .helped | .outlined _ => 0
  | .failed _ => 1
  | .refused _ => 2

/-- The directory that the arguments name, if they make sense. -/
def directory? (args : List (List Char)) : Option (List Char) :=
  match CommandLine.parse args with
  | .ok (.outline directory _) => some directory
  | _ => none

/-- A run of the program: `entries` is what the directory that the arguments name holds. A path that
is no directory holds nothing. -/
def run (args : List (List Char)) (entries : List Entry) : Outcome :=
  match CommandLine.parse args with
  | .error misuse => .refused misuse
  | .ok .help => .helped
  | .ok (.outline directory methodsOnly) =>
    match outlineDirectory methodsOnly directory entries with
    | .ok text => .outlined text
    | .error failure => .failed failure

end JavaOutline
