import Componentry.Component.Header
import Componentry.Static.Eval
import Componentry.Text.Matches
import Componentry.Text.Word

/-!
The names that a component declares, and the values of those that are constant. Declarations are
looked for in the text alone: also one in a comment is found. The depth at which parameters are cut
is at most the length of their text, so 32 bits hold it if that has fewer than `2 ^ 31` characters.
-/
namespace Componentry.Editor

def taken (t rest : Text) : Nat :=
  t.length - rest.length

def declared? (keyword t : Text) : Option (Text × Text) := do
  let t ← t.stripStart? keyword
  let t ← t.skipBlanks?
  match Identifier.split t with
  | ([], _) => none
  | (name, rest) => some (name, rest)

def bindingKeywords : List Text :=
  ["const", "let", "var", "function"].map String.toList

def binding? (previous : Option Char) (t : Text) : Option (Text × Nat) :=
  if startsWord previous then
    (bindingKeywords.findSome? (declared? · t)).map fun (name, rest) => (name, taken t rest)
  else none

def endsInitialiser (c : Char) : Bool :=
  c = ';' || c = '\n'

-- The initialiser after an equals sign, up to the end of the statement or line, and what follows.
-- Where there are only blanks, it is the last of them that does not end the line.
def initialiser? (t : Text) : Option (Text × Text) :=
  match t.trimStart.takeWhile (!endsInitialiser ·) with
  | [] =>
    match (t.takeWhile isBlank).reverse.dropWhile endsInitialiser with
    | [] => none
    | c :: before => some ([c], t.drop (before.length + 1))
  | found => some (found, t.trimStart.dropWhile (!endsInitialiser ·))

def constant? (previous : Option Char) (t : Text) : Option ((Text × Text) × Nat) :=
  if startsWord previous then do
    let (name, rest) ← declared? "const".toList t
    let rest ← rest.trimStart.stripStart? ['=']
    let (initialiser, rest) ← initialiser? rest
    return ((name, initialiser), taken t rest)
  else none

def constants (source : Text) : Scope :=
  (source.occurrences constant?).foldl
    (fun scope (name, initialiser) =>
      match Static.eval scope initialiser with
      | some value => scope.insert name value
      | none => scope)
    []

-- A list of parameters cut at the commas outside brackets. A closer too many counts against the
-- openers after it.
def splitParameters (depth : Int) : Text → List Text
  | [] => [[]]
  | c :: t =>
    if c = ',' && depth = 0 then [] :: splitParameters depth t
    else
      let depth :=
        if c = '(' || c = '[' || c = '{' || c = '<' then depth + 1
        else if c = ')' || c = ']' || c = '}' || c = '>' then depth - 1
        else depth
      match splitParameters depth t with
      | [] => [[c]]
      | parameter :: parameters => (c :: parameter) :: parameters

def dropEllipses : Text → Text
  | '.' :: '.' :: '.' :: t => dropEllipses t
  | t => t

def parameterName? (parameter : Text) : Option Text :=
  match (Identifier.split (dropEllipses parameter.trimStart)).1 with
  | [] => none
  | name => some name

def parametersAndBody (source : Text) : List Text × Text :=
  match Header.extract source with
  | .ok header =>
    ((splitParameters 0 header.parameters).filterMap parameterName?,
      source.dropBytes header.bodyStart)
  | .error _ => ([], source)

def names (source : Text) : List Text :=
  let (parameters, body) := parametersAndBody source
  ("params".toList :: parameters ++ body.occurrences binding?).eraseDups

end Componentry.Editor
