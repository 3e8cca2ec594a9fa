import JavaOutline.Outline.File

/-!
# Outlines of directories

A directory is searched for source files: first its own files, then those of the directories in it,
one after the other. The outlines are written in that order, each followed by the end of a line. If
a file has no outline then nothing is written at all, and the first such file is reported.
-/

namespace JavaOutline

/-- Something in a directory. A file may turn out to have no contents when it is opened. -/
inductive Entry where
  | file (name : List Char) (contents : Option (List UInt8))
  | directory (name : List Char) (entries : List Entry)
  deriving Inhabited

/-- A path with one more step. -/
def joinPath (path name : List Char) : List Char :=
  if path.isEmpty || path.getLast? == some '/' then path ++ name else path ++ '/' :: name

/-- Is this the name of a source file? -/
def isSourceName (name : List Char) : Bool := ".java".toList.isSuffixOf name

/-- A file by its path, with its contents, if it has any. -/
structure FoundFile where
  path : List Char
  contents : Option (List UInt8)
  deriving DecidableEq, Repr, Inhabited

/-- The source files in a directory itself. -/
def sourcesHere (path : List Char) : List Entry → List FoundFile
  | [] => []
  | .file name contents :: es =>
    if isSourceName name then ⟨joinPath path name, contents⟩ :: sourcesHere path es
    else sourcesHere path es
  | .directory _ _ :: es => sourcesHere path es

mutual

/-- The source files of one entry of a directory, if that is a directory too. -/
def Entry.sources (path : List Char) : Entry → List FoundFile
  | .file _ _ => []
  | .directory name entries =>
    sourcesHere (joinPath path name) entries ++ sourcesBelow (joinPath path name) entries

/-- The source files in the directories of a directory. -/
def sourcesBelow (path : List Char) : List Entry → List FoundFile
  | [] => []
  | e :: es => e.sources path ++ sourcesBelow path es

end

/-- The source files of a directory: its own, then those of the directories in it. -/
def sources (path : List Char) (entries : List Entry) : List FoundFile :=
  sourcesHere path entries ++ sourcesBelow path entries

/-- A file that has no outline, and why. -/
structure Failure where
  path : List Char
  fault : FileFault
  deriving DecidableEq, Repr, Inhabited

/-- The message about a file that has no outline. -/
def Failure.message (f : Failure) : List Char := f.fault.message f.path

/-- The texts of all outlines, or the first file that has none. -/
def allOutlines : List (FoundFile × FileOutline) → Except Failure (List (List Char))
  | [] => .ok []
  | (f, o) :: rest =>
    match o.result with
    | .error fault => .error ⟨f.path, fault⟩
    | .ok text => (allOutlines rest).map (text :: ·)

/-- What is written for a directory, or the first file that has no outline. -/
def outlineDirectory (methodsOnly : Bool) (path : List Char) (entries : List Entry) :
    Except Failure (List Char) :=
  let files := sources path entries
  let outlines := outlineFiles [] (files.map fun f => ⟨f.path, f.contents, methodsOnly⟩)
  (allOutlines (files.zip outlines)).map fun texts => texts.flatMap (· ++ ['\n'])

end JavaOutline
