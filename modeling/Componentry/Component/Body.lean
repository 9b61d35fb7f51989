import Componentry.Component.Basic
import Componentry.Markup.Directive

/-!
The body of a component. It is read as code up to the first `render(` outside all brackets. From
there on it is markup, and it ends at a brace with nothing but the end of that call before it.
-/
namespace Componentry.Body

open Code

inductive Stop
  | render (call inside : Text)
  | closed (brace : Text)
  | unterminated
  deriving DecidableEq, Repr

def renderCall? (t : Text) : Option Text := do
  let rest ← t.stripStart? "render".toList
  if Identifier.continues rest then none
  else
    match rest.skipSpace with
    | '(' :: inside => some inside
    | _ => none

-- Whether an identifier after this character is part of a longer one or names a member.
def joinsWord (previous : Option Char) : Bool :=
  previous.any fun c => Identifier.isPart c || c = '.' || c = '$'

-- Reads statements, given the character before them and the contexts opened so far. Outside all
-- brackets there is no context, or a `/` that opens no comment.
def scan (previous : Option Char) (within : List Context) : Text → Stop
  | [] => .unterminated
  | c :: t =>
    if within = [] || within = [.slash] then
      if c = '}' then .closed (c :: t)
      else
        match renderCall? (c :: t) with
        | some inside =>
          if joinsWord previous then scan (some c) (Context.after within c) t
          else .render (c :: t) inside
        | none => scan (some c) (Context.after within c) t
    else scan (some c) (Context.after within c) t

-- For a text that ends with a parenthesis, blanks, at most one semicolon and blanks: the text
-- before that parenthesis.
def argument? (t : Text) : Option Text :=
  let backward := t.reverse.dropWhile isBlank
  let backward := (if backward.head? = some ';' then backward.tail else backward).dropWhile isBlank
  match backward with
  | ')' :: before => some before.reverse
  | _ => none

def lastBrace? (accept : Text → Bool) : Text → Option Text
  | [] => none
  | c :: t =>
    (lastBrace? accept t).or (if c = '}' && accept (c :: t) then some (c :: t) else none)

-- From an offset inside a character the body is read from the next one on.
def split (source : Text) (start : Nat) : Except Problem Body :=
  let statements := source.dropBytes start
  match scan (source.before statements).getLast? [] statements with
  | .unterminated => .error ⟨.unterminatedBody, start - 1, none⟩
  | .closed brace =>
    if source.offset brace ≤ start then .error ⟨.unterminatedBody, start - 1, none⟩
    else .error ⟨.missingRender, start, none⟩
  | .render call inside =>
    let argument (brace : Text) := argument? (inside.before brace)
    let accept (brace : Text) := (argument brace).isSome
    match ((Markup.close? accept 0 inside).or (lastBrace? accept inside)).bind argument with
    | some text =>
      .ok ⟨(statements.before call).trim, text.trim, source.offset call⟩
    | none =>
      if inside.contains '}' then
        .error ⟨.malformedRender, source.offset call,
          some "render() must be the last statement of the component body".toList⟩
      else .error ⟨.unterminatedBody, start - 1, none⟩

end Componentry.Body
