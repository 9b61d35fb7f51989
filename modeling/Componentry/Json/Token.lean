import Componentry.Json.Basic

/-!
The tokens of JSON texts. A string has no control characters and only known escapes; a number has
no needless zeros in front and digits on both sides of its point.
-/
namespace Componentry.Json

inductive Token
  | mark (c : Char)
  | scalar (value : Json)

namespace Token

def isMark (c : Char) : Bool :=
  c = '[' || c = ']' || c = '{' || c = '}' || c = ',' || c = ':'

def isBetween (c : Char) : Bool :=
  c = ' ' || c = '\t' || c = '\n' || c = '\r'

def string? : Text → Option (Text × Text)
  | [] => none
  | '"' :: t => some ([], t)
  | '\\' :: 'u' :: a :: b :: c :: d :: t =>
    if (hexUnit? a b c d).isSome then
      (string? t).map fun (s, rest) => ('\\' :: 'u' :: a :: b :: c :: d :: s, rest)
    else none
  | '\\' :: c :: t =>
    if (escaped? c).isSome then (string? t).map fun (s, rest) => ('\\' :: c :: s, rest) else none
  | ['\\'] => none
  | c :: t => if c.toNat < 0x20 then none else (string? t).map fun (s, rest) => (c :: s, rest)

def afterDigits? (t : Text) : Option Text :=
  if t.head?.any Char.isDigit then some (t.dropWhile Char.isDigit) else none

def afterWhole? : Text → Option Text
  | '0' :: t => some t
  | t => afterDigits? t

def afterFraction? : Text → Option Text
  | '.' :: t => afterDigits? t
  | t => some t

def afterExponent? : Text → Option Text
  | [] => some []
  | c :: t =>
    if c = 'e' || c = 'E' then
      match t with
      | '+' :: t => afterDigits? t
      | '-' :: t => afterDigits? t
      | t => afterDigits? t
    else some (c :: t)

def afterNumber? (t : Text) : Option Text := do
  let t ← afterWhole? (if t.head? = some '-' then t.tail else t)
  let t ← afterFraction? t
  afterExponent? t

def first? (t : Text) : Option (Token × Text) :=
  match t with
  | [] => none
  | c :: rest =>
    if isMark c then some (.mark c, rest)
    else if c = '"' then (string? rest).map fun (s, rest) => (.scalar (.string s), rest)
    else if c = 'n' then word "null".toList .null
    else if c = 't' then word "true".toList (.bool true)
    else if c = 'f' then word "false".toList (.bool false)
    else (afterNumber? t).map fun rest => (.scalar (.number (t.before rest)), rest)
where
  word (spelling : Text) (value : Json) : Option (Token × Text) :=
    (t.stripStart? spelling).map fun rest => (.scalar value, rest)

-- The tokens of a text. Each takes up at least one character, so that there are no more of them
-- than `bound` says.
def all? (bound : Nat) (t : Text) : Option (List Token) :=
  match bound, t.dropWhile isBetween with
  | _, [] => some []
  | 0, _ => none
  | bound + 1, t => do
    let (token, rest) ← first? t
    return token :: (← all? bound rest)

end Token
end Componentry.Json
