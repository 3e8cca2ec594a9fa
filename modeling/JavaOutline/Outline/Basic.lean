import JavaOutline.Text.Search
import JavaOutline.Tree.Query
import JavaOutline.Tree.Walk

/-!
# Outlines of syntax trees

An outline lists the packages, classes, fields and methods of a source file. It is made on a walk
through the syntax tree: entering a package, class, field, method or constructor adds to the
outline, and leaving a class writes out the members that have been found so far.

* A package is announced only the first time it is met, also across files.
* A class whose superclass is named like an exception or an error is ignored: it is not written, and
  neither are its fields, methods and constructors. The ignored classes are remembered by their
  level.
* A class that is not ignored moves everything up to its end one level to the right.
* Members are collected over the whole file, and each class that ends writes all of them.
* Whether a member is public or static is taken from its own text; the modifiers are not part of it.

After error recovery a child may be missing that the outline needs. Then the walk stops there.
-/

namespace JavaOutline

/-- An outline in the making. -/
structure Outline where
  /-- How far to the right the next line is. -/
  level : Int
  /-- The levels at which classes are ignored, in increasing order. -/
  ignored : List Int
  staticFields : List (List Char)
  fields : List (List Char)
  staticMethods : List (List Char)
  methods : List (List Char)
  /-- The packages that have been announced, in order. -/
  packages : List (List Char)
  /-- What has been written. -/
  text : List Char
  deriving DecidableEq, Repr, Inhabited

/-- What a missing child was to be asked for. -/
inductive Question where
  | text
  | declarators
  | parameters
  deriving DecidableEq, Repr, Inhabited

/-- The complaint about a missing child, in words. -/
def Question.message (q : Question) : String :=
  let name := match q with
    | .text => "getText"
    | .declarators => "variableDeclarator"
    | .parameters => "formalParameterList"
  "'NoneType' object has no attribute '" ++ name ++ "'"

/-- The text of the first child that belongs to a rule. -/
def childText (r : Rule) (children : List (Tree Token)) : Except Question (List Char) :=
  match Tree.child? r children with
  | some t => .ok t.text
  | none => .error .text

/-- The parameters of a method or constructor with the given children, each with its type and
name. A parameter that stands for any number of arguments is left out. -/
def parameters (children : List (Tree Token)) : Except Question (List (List Char)) :=
  match Tree.child? .formalParameters children with
  | none => .error .parameters
  | some ps =>
    match Tree.child? .formalParameterList ps.children with
    | none => .ok []
    | some list =>
      (Tree.select (.rule .formalParameter) list.children).mapM fun p => do
        let type ← childText .typeType p.children
        let name ← childText .variableDeclaratorId p.children
        return type ++ ' ' :: name

/-- A method or constructor as it is listed. -/
def signature (head : List Char) (parameters : List (List Char)) : List Char :=
  head ++ '(' :: commaSeparated parameters ++ [')']

namespace Outline

/-- An outline with nothing in it, after the given packages have been announced. -/
def empty (packages : List (List Char)) : Outline := ⟨0, [], [], [], [], [], packages, []⟩

/-- Are classes at the present level ignored? -/
def ignores (o : Outline) : Bool := o.ignored.contains o.level

/-- The numbers of a list in increasing order with one more. -/
def insertLevel (n : Int) : List Int → List Int
  | [] => [n]
  | m :: ms => if n < m then n :: m :: ms else if n = m then m :: ms else m :: insertLevel n ms

/-- Ignores classes at the present level, or does so no longer. -/
def setIgnored (o : Outline) (ignore : Bool) : Outline :=
  { o with
    ignored := if ignore then insertLevel o.level o.ignored else o.ignored.filter (· ≠ o.level) }

/-- Writes a text. -/
def write (o : Outline) (s : List Char) : Outline := { o with text := o.text ++ s }

/-- Announces a package. -/
def enterPackage (o : Outline) (children : List (Tree Token)) : Except Question Outline := do
  let name ← childText .qualifiedName children
  if o.packages.contains name then return o
  else
    return { o.write ("# Package ".toList ++ name ++ ['\n']) with
      packages := o.packages ++ [name] }

/-- Is a class with this superclass ignored? -/
def isErrorName (s : List Char) : Bool :=
  occursIn "Exception".toList s || occursIn "Error".toList s

/-- Writes the first line of a class. -/
def writeClass (o : Outline) (name extended implemented : List Char) : Outline :=
  let heading := "Class ".toList ++ name ++ extended ++ implemented ++ [':']
  { o.write (indentedLine o.level heading) with level := o.level + 1 }

/-- Begins a class. -/
def enterClass (o : Outline) (children : List (Tree Token)) : Except Question Outline := do
  let o := o.setIgnored false
  let name ← childText .identifier children
  let implemented :=
    if (Tree.select (.token .kwImplements) children).isEmpty then []
    else " implements ".toList ++
      commaSeparated ((Tree.select (.rule .typeList) children).map Tree.text)
  if (Tree.select (.token .kwExtends) children).isEmpty then
    return o.writeClass name [] implemented
  else
    let extended ← childText .typeType children
    if isErrorName extended then return o.setIgnored true
    else return o.writeClass name (" extends ".toList ++ extended) implemented

/-- A section of the members of a class; nothing if there are none. -/
def sectionText (level : Int) (title : String) (members : List (List Char)) : List Char :=
  if members.isEmpty then []
  else indentedLine level title.toList ++
    members.flatMap fun m => indentedLine level (' ' :: ' ' :: m)

/-- Ends a class. -/
def leaveClass (methodsOnly : Bool) (o : Outline) : Outline :=
  let fieldSection (title : String) (members : List (List Char)) : List Char :=
    if methodsOnly then [] else sectionText o.level title members
  let o' := if o.ignores then o else
    o.write (fieldSection "Static fields:" o.staticFields ++
      sectionText o.level "Static methods:" o.staticMethods ++
      fieldSection "Fields:" o.fields ++
      sectionText o.level "Methods:" o.methods)
  { o' with level := o.level - 1 }

/-- The names of fields that are left out. -/
def hiddenFields : List (List Char) := ["logger".toList]

/-- The names of methods that are left out. -/
def hiddenMethods : List (List Char) := ["toString".toList, "equals".toList, "hashCode".toList]

/-- Adds the field of a declarator. -/
def addField (type : List Char) (isStatic : Bool) (o : Outline) (declarator : Tree Token) :
    Except Question Outline := do
  let name ← childText .variableDeclaratorId declarator.children
  let entry := type ++ ' ' :: name
  if hiddenFields.contains name then return o
  else if isStatic then return { o with staticFields := o.staticFields ++ [entry] }
  else return { o with fields := o.fields ++ [entry] }

/-- Adds the fields of a declaration. -/
def enterField (o : Outline) (children : List (Tree Token)) : Except Question Outline := do
  if o.ignores then return o
  let type ← childText .typeType children
  let isStatic := occursIn "static".toList (Tree.textAll children)
  match Tree.child? .variableDeclarators children with
  | none => throw .declarators
  | some list =>
    (Tree.select (.rule .variableDeclarator) list.children).foldlM (addField type isStatic) o

/-- Adds a method, if its text says that it is public. -/
def enterMethod (o : Outline) (children : List (Tree Token)) : Except Question Outline := do
  if o.ignores then return o
  let name ← childText .identifier children
  if hiddenMethods.contains name then return o
  let result ← childText .typeTypeOrVoid children
  let entry := signature (result ++ ' ' :: name) (← parameters children)
  let text := Tree.textAll children
  if !occursIn "public".toList text then return o
  else if occursIn "static".toList text then
    return { o with staticMethods := o.staticMethods ++ [entry] }
  else return { o with methods := o.methods ++ [entry] }

/-- Adds a constructor. -/
def enterConstructor (o : Outline) (children : List (Tree Token)) : Except Question Outline := do
  if o.ignores then return o
  let name ← childText .identifier children
  let entry := signature name (← parameters children)
  return { o with methods := o.methods ++ [entry] }

/-- What a visit does to the outline. -/
def step (methodsOnly : Bool) (o : Outline) : Visit Token → Except Question Outline
  | .enter .packageDeclaration children => o.enterPackage children
  | .enter .classDeclaration children => o.enterClass children
  | .enter .fieldDeclaration children => o.enterField children
  | .enter .methodDeclaration children => o.enterMethod children
  | .enter .constructorDeclaration children => o.enterConstructor children
  | .leave .classDeclaration => .ok (o.leaveClass methodsOnly)
  | _ => .ok o

/-- The outline after a walk, and the missing child that has ended it early, if one has. -/
def run (methodsOnly : Bool) : Outline → List (Visit Token) → Outline × Option Question
  | o, [] => (o, none)
  | o, v :: vs =>
    match o.step methodsOnly v with
    | .ok o' => run methodsOnly o' vs
    | .error q => (o, some q)

end Outline

/-- One step of a walk that the outline takes part in. -/
structure TraceStep where
  event : Event Token
  before : Outline
  after : Outline

namespace TraceStep

/-- What the step has written. -/
def written (s : TraceStep) : List Char := s.after.text.drop s.before.text.length

end TraceStep

/-- Does the outline take part in the event? -/
def Event.concernsOutline {α : Type} : Event α → Bool
  | .enter .packageDeclaration | .enter .classDeclaration | .enter .fieldDeclaration
  | .enter .methodDeclaration | .enter .constructorDeclaration | .leave .classDeclaration => true
  | _ => false

/-- The steps of a walk that the outline takes part in, up to a missing child. -/
def Outline.trace (methodsOnly : Bool) : Outline → List (Visit Token) → List TraceStep
  | _, [] => []
  | o, v :: vs =>
    match o.step methodsOnly v with
    | .ok o' =>
      if v.event.concernsOutline then ⟨v.event, o, o'⟩ :: o'.trace methodsOnly vs
      else o'.trace methodsOnly vs
    | .error _ => []

end JavaOutline
