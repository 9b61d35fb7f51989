import Componentry.Text.Quoted

/-!
JSON values as they are written: numbers and strings keep their spelling, and objects all their
entries in order. What a string denotes is read off its spelling, because a spelling with half of a
surrogate pair denotes no text.
-/
namespace Componentry

inductive Json
  | null
  | bool (value : Bool)
  | number (spelling : Text)
  -- The spelling is what stands between the quotes.
  | string (spelling : Text)
  | array (items : List Json)
  | object (entries : List (Text × Json))
  deriving Repr

namespace Json

def hexValue? (c : Char) : Option Nat :=
  if c.isDigit then some (c.toNat - '0'.toNat)
  else if 'a' ≤ c && c ≤ 'f' then some (c.toNat - 'a'.toNat + 10)
  else if 'A' ≤ c && c ≤ 'F' then some (c.toNat - 'A'.toNat + 10)
  else none

def hexUnit? (a b c d : Char) : Option Nat := do
  return 4096 * (← hexValue? a) + 256 * (← hexValue? b) + 16 * (← hexValue? c) + (← hexValue? d)

def isHighSurrogate (n : Nat) : Bool :=
  0xD800 ≤ n && n < 0xDC00

def isLowSurrogate (n : Nat) : Bool :=
  0xDC00 ≤ n && n < 0xE000

def escaped? (c : Char) : Option Char :=
  if c = '"' || c = '\\' || c = '/' then some c
  else if c = 'b' then some '\x08'
  else if c = 'f' then some '\x0c'
  else if c = 'n' then some '\n'
  else if c = 'r' then some '\r'
  else if c = 't' then some '\t'
  else none

def denoted? : Text → Option Text
  | [] => some []
  | '\\' :: 'u' :: a :: b :: c :: d :: t => do
    let n ← hexUnit? a b c d
    if isHighSurrogate n then
      match t with
      | '\\' :: 'u' :: e :: f :: g :: h :: t =>
        let m ← hexUnit? e f g h
        if isLowSurrogate m then
          return Char.ofNat (0x10000 + 0x400 * (n - 0xD800) + (m - 0xDC00)) :: (← denoted? t)
        else none
      | _ => none
    else if isLowSurrogate n then none
    else return Char.ofNat n :: (← denoted? t)
  | '\\' :: c :: t => do return (← escaped? c) :: (← denoted? t)
  | ['\\'] => none
  | c :: t => do return c :: (← denoted? t)

def ofText (t : Text) : Json :=
  .string (t.flatMap Text.quotedChar)

def text? : Json → Option Text
  | .string spelling => denoted? spelling
  | _ => none

def ofNat (n : Nat) : Json :=
  .number (Text.ofNat n)

-- The natural number that a value denotes, if it is written with digits only and below 2 ^ 64.
def nat? : Json → Option Nat
  | .number spelling =>
    if spelling.all Char.isDigit then
      let n := spelling.foldl (fun n c => 10 * n + (c.toNat - '0'.toNat)) 0
      if n < Nat.pow 2 64 then some n else none
    else none
  | _ => none

mutual

def write : Json → Text
  | .null => ['n', 'u', 'l', 'l']
  | .bool true => ['t', 'r', 'u', 'e']
  | .bool false => ['f', 'a', 'l', 's', 'e']
  | .number spelling => spelling
  | .string spelling => '"' :: spelling ++ ['"']
  | .array items => '[' :: Text.joinWith [','] (writeItems items) ++ [']']
  | .object entries => '{' :: Text.joinWith [','] (writeEntries entries) ++ ['}']

def writeItems : List Json → List Text
  | [] => []
  | item :: items => write item :: writeItems items

def writeEntries : List (Text × Json) → List Text
  | [] => []
  | (key, value) :: entries => ('"' :: key ++ ['"', ':'] ++ write value) :: writeEntries entries

end

end Json
end Componentry
