import Componentry.Json.Token

/-!
JSON values from their tokens. The arrays and objects part way through are held in a list, the
innermost first.
-/
namespace Componentry.Json

-- An array or object part way through, its parts backward.
inductive Frame
  | array (items : List Json)
  | object (entries : List (Text × Json)) (key : Text)

inductive Expect
  | value
  | itemOrEnd
  | keyOrEnd
  | key (entries : List (Text × Json))
  | colon (entries : List (Text × Json)) (key : Text)
  | after (value : Json)

def ofTokens? (frames : List Frame) (expect : Expect) : List Token → Option Json
  | [] =>
    match expect, frames with
    | .after value, [] => some value
    | _, _ => none
  | .scalar value :: tokens =>
    match expect, value with
    | .value, _ => ofTokens? frames (.after value) tokens
    | .itemOrEnd, _ => ofTokens? (.array [] :: frames) (.after value) tokens
    | .keyOrEnd, .string key => ofTokens? frames (.colon [] key) tokens
    | .key entries, .string key => ofTokens? frames (.colon entries key) tokens
    | _, _ => none
  | .mark c :: tokens =>
    match expect with
    | .value =>
      if c = '[' then ofTokens? frames .itemOrEnd tokens
      else if c = '{' then ofTokens? frames .keyOrEnd tokens
      else none
    | .itemOrEnd =>
      if c = '[' then ofTokens? (.array [] :: frames) .itemOrEnd tokens
      else if c = '{' then ofTokens? (.array [] :: frames) .keyOrEnd tokens
      else if c = ']' then ofTokens? frames (.after (.array [])) tokens
      else none
    | .keyOrEnd => if c = '}' then ofTokens? frames (.after (.object [])) tokens else none
    | .key _ => none
    | .colon entries key =>
      if c = ':' then ofTokens? (.object entries key :: frames) .value tokens else none
    | .after value =>
      match frames with
      | [] => none
      | .array items :: outer =>
        if c = ',' then ofTokens? (.array (value :: items) :: outer) .value tokens
        else if c = ']' then ofTokens? outer (.after (.array (value :: items).reverse)) tokens
        else none
      | .object entries key :: outer =>
        if c = ',' then ofTokens? outer (.key ((key, value) :: entries)) tokens
        else if c = '}' then
          ofTokens? outer (.after (.object ((key, value) :: entries).reverse)) tokens
        else none

def parse? (t : Text) : Option Json := do
  ofTokens? [] .value (← Token.all? t.length t)

end Componentry.Json
