import Componentry.Text.Location

/-!
Components: their two kinds, the parts of their source, the options they are compiled with and the
faults that stop a compilation.
-/
namespace Componentry

inductive Kind
  | ephemeral
  | persistent
  deriving DecidableEq, Repr

namespace Kind

def keyword : Kind → Text
  | .ephemeral => "ephemeral".toList
  | .persistent => "persistent".toList

def ofKeyword? (word : Text) : Option Kind :=
  [ephemeral, persistent].find? (·.keyword = word)

def baseClass : Kind → Text
  | .ephemeral => "Component".toList
  | .persistent => "PersistentComponent".toList

end Kind

structure Header where
  kind : Kind
  name : Text
  parameters : Text
  bodyStart : Nat
  deriving DecidableEq, Repr

structure Body where
  prelude : Text
  argument : Text
  renderOffset : Nat
  deriving DecidableEq, Repr

inductive Fault
  | invalidHeader
  | unterminatedBody
  | missingRender
  | malformedRender
  deriving DecidableEq, Repr

namespace Fault

def code : Fault → Text
  | .invalidHeader => "DRB001".toList
  | .unterminatedBody => "DRB002".toList
  | .missingRender => "DRB003".toList
  | .malformedRender => "DRB004".toList

def message : Fault → Text
  | .invalidHeader => "Invalid component syntax".toList
  | .unterminatedBody => "Unterminated component body".toList
  | .missingRender => "Missing render()".toList
  | .malformedRender => "Malformed render()".toList

def hint : Fault → Text
  | .invalidHeader =>
    "Declare the component as `export ephemeral Name(...) \x7b` ".toList ++
      "or `export persistent Name(...) \x7b`.".toList
  | .unterminatedBody =>
    "Close the component body with a `\x7d` that balances the header's `\x7b`.".toList
  | .missingRender =>
    "Call `render( ... );` once at the top level of the component body.".toList
  | .malformedRender =>
    "`render( ... );` must be the last statement of the body, ".toList ++
      "and every `@if (...) \x7b ... \x7d` must be closed.".toList

end Fault

structure Problem where
  fault : Fault
  offset : Nat
  context : Option Text
  deriving DecidableEq, Repr

structure CompileError where
  fault : Fault
  file : Text
  location : Location
  context : Option Text
  deriving DecidableEq, Repr

def Problem.inFile (p : Problem) (file source : Text) : CompileError :=
  ⟨p.fault, file, .ofOffset source p.offset, p.context⟩

def CompileError.message (e : CompileError) : Text :=
  e.fault.message ++ " in ".toList ++ e.file ++
    match e.context with
    | none => []
    | some context => " (".toList ++ context ++ [')']

structure Options where
  runtimeModule : Text := "@dribble/runtime-client".toList
  renderHelper : Text := "renderHtml".toList
  sourceMap : Option Text := none
  deriving DecidableEq, Repr

structure Module where
  code : Text
  map : Option Text
  deriving DecidableEq, Repr

end Componentry
