/-!
Shortest decimals. A positive floating-point number `m · 2 ^ q` is what every decimal in an interval
around it reads back as. Of the decimals in that interval `shortest` takes one with the fewest
digits, and of those the nearest.
-/
namespace Componentry.Decimal

structure Binary where
  significand : Nat
  exponent : Int
  -- Whether the next smaller number is only half as far away as the next larger one.
  isNarrow : Bool
  deriving DecidableEq, Repr

structure Scientific where
  significand : Nat
  exponent : Int
  deriving DecidableEq, Repr

-- The number as a fraction, in quarters of the distance to the next larger number: `quarters x` is
-- `x` quarters.
def Binary.quarters (b : Binary) (x : Nat) : Nat × Nat :=
  (x * Nat.pow 2 (b.exponent - 2).toNat, Nat.pow 2 (2 - b.exponent).toNat)

def Binary.compareWith (b : Binary) (d : Scientific) (x : Nat) : Ordering :=
  let (num, den) := b.quarters x
  compare (d.significand * Nat.pow 10 d.exponent.toNat * den) (num * Nat.pow 10 (-d.exponent).toNat)

-- Whether a decimal reads back as the number. The ends of the interval do if the significand is
-- even.
def Binary.reads (b : Binary) (d : Scientific) : Bool :=
  let low := b.compareWith d (4 * b.significand - if b.isNarrow then 1 else 2)
  let high := b.compareWith d (4 * b.significand + 2)
  if b.significand % 2 = 0 then low.isGE && high.isLE else low.isGT && high.isLT

-- The number of digits before the decimal point; it is negative where zeros follow the point. Four
-- hundred places are enough for every number that is written in 64 bits.
def Binary.magnitude (b : Binary) : Int :=
  let (num, den) := b.quarters (4 * b.significand)
  (Nat.toDigits 10 (num * Nat.pow 10 400 / den)).length - 400

-- The decimal with a number of digits that reads back as the number, if there is one; of two the
-- nearer, and the larger where both are as near.
def Binary.withDigits? (b : Binary) (digits : Nat) : Option Scientific :=
  let p := b.magnitude - digits
  let (num, den) := b.quarters (4 * b.significand)
  let c := num * Nat.pow 10 (-p).toNat / (den * Nat.pow 10 p.toNat)
  let below : Scientific := ⟨c, p⟩
  let above : Scientific := ⟨c + 1, p⟩
  match b.reads below, b.reads above with
  | true, true =>
    if (b.compareWith ⟨2 * c + 1, p⟩ (8 * b.significand)).isGT then some below else some above
  | true, false => some below
  | false, true => some above
  | false, false => none

def Binary.shortest (b : Binary) : Scientific :=
  ((List.range 17).findSome? fun k => b.withDigits? (k + 1)).getD ⟨0, 0⟩

def Scientific.reduce : Nat → Scientific → Scientific
  | 0, d => d
  | n + 1, d =>
    if d.significand % 10 = 0 then reduce n ⟨d.significand / 10, d.exponent + 1⟩ else d

def Scientific.positional (d : Scientific) : List Char :=
  let d := d.reduce 17
  let digits := Nat.toDigits 10 d.significand
  let point := digits.length + d.exponent
  if 0 ≤ d.exponent then digits ++ List.replicate d.exponent.toNat '0'
  else if 0 < point then digits.take point.toNat ++ '.' :: digits.drop point.toNat
  else '0' :: '.' :: List.replicate (-point).toNat '0' ++ digits

end Componentry.Decimal
