import Componentry.Editor.Declarations
import Componentry.Editor.Snapshot

/-!
What an editor says about the word at a place in a component.
-/
namespace Componentry.Editor

structure Hover where
  start : Nat
  length : Nat
  text : Text
  deriving DecidableEq, Repr

structure WordAt where
  before : Text
  word : Text
  after : Text
  deriving DecidableEq, Repr

namespace WordAt

-- The word around the place between two texts. An `@` just after the place belongs to the word that
-- follows it.
def between (before after : Text) : WordAt :=
  match after with
  | '@' :: after => around (before ++ ['@']) after
  | _ => around before after
where
  around (before after : Text) : WordAt :=
    let backward := before.reverse
    { before := (backward.dropWhile Identifier.isPart).reverse
      word := (backward.takeWhile Identifier.isPart).reverse ++ after.takeWhile Identifier.isPart
      after := after.dropWhile Identifier.isPart }

def isDirective (w : WordAt) : Bool :=
  w.before.getLast? = some '@'

end WordAt

def codeSpan (t : Text) : Text :=
  "`".toList ++ t ++ "`".toList

def constantCondition? (source directive : Text) : Option Text := do
  let paren ← Markup.condition? directive
  let (inside, _) ← Code.group? paren
  let condition := inside.trim
  let note : Text :=
    if ← Static.condition (constants source) condition then
      " is always true; the block always renders.".toList
    else
      " is always false; the block never renders.".toList
  return "Condition ".toList ++ codeSpan condition ++ note

def aboutIf (source directive : Text) : Text :=
  "@if (condition) \x7b markup \x7d\nRenders the block when the condition is truthy.".toList ++
    match constantCondition? source directive with
    | some note => '\n' :: note
    | none => []

def aboutElse : Text :=
  ("@else \x7b markup \x7d\nRenders the block when the preceding @if condition is falsy.").toList

def aboutName (source name : Text) : Text :=
  let origin : Text :=
    if (names source).contains name then "in scope".toList
    else "not declared in this component".toList
  '@' :: name ++ "\nInterpolates the value of ".toList ++ codeSpan name ++ " (".toList ++ origin ++
    ").".toList ++
    match (constants source).get? name with
    | some value => "\nStatic value: ".toList ++ codeSpan value
    | none => []

def aboutKind (kind : Kind) : Text :=
  let summary : Text :=
    match kind with
    | .ephemeral => "Component without persisted state.".toList
    | .persistent => "Component whose state is kept across renders.".toList
  kind.keyword ++ '\n' :: summary ++ " Compiles to a class extending ".toList ++
    codeSpan kind.baseClass ++ ['.']

def aboutRender : Text :=
  ("render(markup)\nThe component's markup template. Must be the last statement of the " ++
    "body.").toList

def about? (source : Text) (w : WordAt) : Option Text :=
  if w.isDirective then
    if w.word = "if".toList then some (aboutIf source ('@' :: w.word ++ w.after))
    else if w.word = "else".toList then some aboutElse
    else some (aboutName source w.word)
  else
    match Kind.ofKeyword? w.word with
    | some kind => some (aboutKind kind)
    | none => if w.word = "render".toList then some aboutRender else none

def hover? (path source : Text) (offset : Nat) : Option Hover :=
  if isComponent path then
    let (before, after) := source.cut offset
    let w := WordAt.between before after
    if w.word.head?.any Identifier.isStart then
      let sign := if w.isDirective then 1 else 0
      (about? source w).map (⟨w.before.size - sign, w.word.size + sign, ·⟩)
    else none
  else none

end Componentry.Editor
