import Componentry.Markup.Basic
import Componentry.Markup.Event
import Componentry.Text.Lines

/-!
Markup from its text. The events of the text are put together from the last to the first, so that
whatever follows an event is complete when the event is added in front of it.
-/
namespace Componentry.Markup

-- The parts of one open block that are known so far, and what stands after its `@else`.
structure Pending where
  parts : Markup
  alternate : Markup
  deriving DecidableEq, Repr

-- Adds an event in front of what follows it: the innermost block, then those around it.
def addEvent : Event → List Pending → List Pending
  | .text content, block :: outer =>
    { block with parts := block.parts.prependText content } :: outer
  | .name identifier, block :: outer =>
    { block with parts := .name identifier block.parts } :: outer
  | .closes, blocks => ⟨.empty, .empty⟩ :: blocks
  | .orElse, block :: outer => ⟨.empty, block.parts⟩ :: outer
  | .orElseIf condition, block :: outer =>
    ⟨.empty, .conditional condition block.parts block.alternate .empty⟩ :: outer
  | .opens condition, block :: next :: outer =>
    { next with parts := .conditional condition block.parts block.alternate next.parts } :: outer
  | _, blocks => blocks

def ofEvents (events : List Event) : Markup :=
  match events.foldr addEvent [⟨.empty, .empty⟩] with
  | [] => .empty
  | block :: _ => block.parts

structure Error where
  cause : Cause
  offset : Nat
  deriving DecidableEq, Repr

def Cause.message : Cause → Text
  | .unterminatedBlock => "unterminated @if block".toList
  | .unterminatedCondition => "unterminated @if condition".toList
  | .emptyCondition => "empty @if condition".toList
  | .blockExpected => "expected `\x7b` after @if condition".toList
  | .alternateExpected => "expected `\x7b` after @else".toList

def Error.message (e : Error) : Text :=
  e.cause.message ++ " at offset ".toList ++ Text.ofNat e.offset

def parse (t : Text) : Except Error Markup :=
  match events [] t with
  | .ok events => .ok (ofEvents events)
  | .error failure => .error ⟨failure.cause, t.offset failure.rest⟩

end Componentry.Markup
