import Componentry.Code.Span
import Componentry.Component.Basic
import Componentry.Text.Word

/-!
The declaration of a component: the first `export`, kind, name, parameters in parentheses and
opening brace that stands in code.
-/
namespace Componentry.Header

open Code

def kind? (t : Text) : Option (Kind × Text) :=
  [Kind.ephemeral, .persistent].findSome? fun kind =>
    (t.stripStart? kind.keyword).map fun rest => (kind, rest)

def declaration? (t : Text) : Option (Kind × Text × Text) := do
  let t ← t.stripStart? "export".toList
  let t ← t.skipBlanks?
  let (kind, t) ← kind? t
  let t ← t.skipBlanks?
  let (name, t) := Identifier.split t
  match name, t.trimStart with
  | _ :: _, '(' :: rest => some (kind, name, '(' :: rest)
  | _, _ => none

-- The header that a declaration at the start of `t` makes, where `t` ends the source and comes
-- after the character `previous`.
def here? (source : Text) (previous : Option Char) (t : Text) : Option Header := do
  let (kind, name, paren) ← declaration? t
  if startsWord previous && isCodeAt source (source.offset t) then
    let (parameters, rest) ← group? paren
    match rest.skipSpace with
    | '{' :: inside => some ⟨kind, name, parameters, source.offset inside⟩
    | _ => none
  else none

def find? (source : Text) : Option Header :=
  go none source
where
  go (previous : Option Char) : Text → Option Header
    | [] => none
    | c :: t => (here? source previous (c :: t)).or (go (some c) t)

def extract (source : Text) : Except Problem Header :=
  match find? source with
  | some header => .ok header
  | none => .error ⟨.invalidHeader, 0, none⟩

end Componentry.Header
