import JavaOutline.Outline.Basic
import JavaOutline.Parser.Analysis
import JavaOutline.Text.Quoted
import JavaOutline.Text.Utf8

/-!
# Outlines of files

A file is read as UTF-8, parsed as a compilation unit, and outlined. Syntax errors do not stop this:
the outline is made of the tree that error recovery leaves.
-/

namespace JavaOutline

/-- Why a file has no outline. -/
inductive FileFault where
  /-- There is no file of this name. -/
  | absent (name : List Char)
  /-- The file is not text. -/
  | notText (fault : Utf8.Fault)
  /-- Error recovery has left out a child that the outline needs. -/
  | missingChild (question : Question)
  deriving DecidableEq, Repr, Inhabited

/-- The reason why a file has no outline, in words. -/
def FileFault.reason : FileFault → List Char
  | .absent name => "[Errno 2] No such file or directory: ".toList ++ Quoted.encode name
  | .notText fault => fault.message.toList
  | .missingChild question => question.message.toList

/-- The message that a file has no outline. -/
def FileFault.message (name : List Char) (f : FileFault) : List Char :=
  "Error processing ".toList ++ name ++ ": ".toList ++ f.reason

/-- The outline of a source text, and the missing child that has ended it early, if one has. -/
def outlineSource (methodsOnly : Bool) (packages : List (List Char)) (source : List Char) :
    Outline × Option Question :=
  (Outline.empty packages).run methodsOnly (analyse .compilationUnit 0 source).tree.visits

/-- What has become of a file: its outline or the reason why there is none, and the packages that
have been announced since the first file. -/
structure FileOutline where
  result : Except FileFault (List Char)
  packages : List (List Char)

/-- The outline of a file with the given contents; `none` if there is no such file. -/
def outlineFile (methodsOnly : Bool) (packages : List (List Char)) (name : List Char)
    (contents : Option (List UInt8)) : FileOutline :=
  match contents with
  | none => ⟨.error (.absent name), packages⟩
  | some bytes =>
    match Utf8.decode bytes with
    | .error fault => ⟨.error (.notText fault), packages⟩
    | .ok source =>
      match outlineSource methodsOnly packages source with
      | (o, none) => ⟨.ok o.text, o.packages⟩
      | (o, some question) => ⟨.error (.missingChild question), o.packages⟩

/-- A file to be outlined. -/
structure SourceFile where
  name : List Char
  /-- The contents, if there is such a file. -/
  contents : Option (List UInt8)
  methodsOnly : Bool

/-- The outlines of several files, one after the other. Packages that one file announces are known
to the next. -/
def outlineFiles : List (List Char) → List SourceFile → List FileOutline
  | _, [] => []
  | packages, f :: fs =>
    let r := outlineFile f.methodsOnly packages f.name f.contents
    r :: outlineFiles r.packages fs

end JavaOutline
