import Componentry.Decimal.Shortest
import Componentry.Text.Basic

/-!
Floating-point numbers as text. A number is read from decimal notation, or from a word for infinity
or for "not a number"; it is written with the fewest digits that read back, without an exponent.
-/
namespace Componentry.Decimal

def sign : Text → Bool × Text
  | '-' :: t => (true, t)
  | '+' :: t => (false, t)
  | t => (false, t)

def digitsValue (digits : Text) : Nat :=
  digits.foldl (fun n c => 10 * n + (c.toNat - '0'.toNat)) 0

def exponent? : Text → Option Int
  | [] => some 0
  | c :: t =>
    let (negative, digits) := sign t
    if (c = 'e' || c = 'E') && digits ≠ [] && digits.all Char.isDigit then
      some (if negative then -(digitsValue digits : Int) else digitsValue digits)
    else none

def scientific? (t : Text) : Option Scientific := do
  let whole := t.takeWhile Char.isDigit
  let (fraction, rest) :=
    match t.dropWhile Char.isDigit with
    | '.' :: t => (t.takeWhile Char.isDigit, t.dropWhile Char.isDigit)
    | t => ([], t)
  if whole = [] && fraction = [] then none
  else
    let exponent ← exponent? rest
    return ⟨digitsValue (whole ++ fraction), exponent - fraction.length⟩

-- The number nearest to a decimal. Beyond the range of 64 bits only the magnitude counts.
def Scientific.toFloat (d : Scientific) : Float :=
  if d.significand = 0 then 0
  else
    let magnitude := (Nat.toDigits 10 d.significand).length + d.exponent
    if 310 < magnitude then 1 / 0
    else if magnitude < -330 then 0
    else Float.ofScientific d.significand (d.exponent < 0) d.exponent.natAbs

def word? (t : Text) : Option Float :=
  let word := t.map Char.toLower
  if word = "inf".toList || word = "infinity".toList then some (1 / 0)
  else if word = "nan".toList then some (0 / 0)
  else none

def read? (t : Text) : Option Float :=
  let (negative, t) := sign t
  ((word? t).or ((scientific? t).map Scientific.toFloat)).map fun x => if negative then -x else x

def binaryOf (x : Float) : Binary :=
  let bits := x.toBits.toNat
  let fraction := bits % Nat.pow 2 52
  match bits / Nat.pow 2 52 % Nat.pow 2 11 with
  | 0 => ⟨fraction, -1074, false⟩
  | e => ⟨Nat.pow 2 52 + fraction, (e : Int) - 1075, fraction = 0 && 1 < e⟩

-- The text of a number: the fewest digits, by place. Zero has no sign.
def write (x : Float) : Text :=
  if x.isNaN then "NaN".toList
  else if x == 0 then ['0']
  else
    let magnitude := if x.isInf then "inf".toList else (binaryOf x).shortest.positional
    if x < 0 then '-' :: magnitude else magnitude

end Componentry.Decimal
