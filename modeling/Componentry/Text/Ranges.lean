import Componentry.Text.Basic

/-!
Sets of characters given by ranges of code points.
-/
namespace Componentry

def inRanges (ranges : List (Nat × Nat)) (n : Nat) : Bool :=
  ranges.any fun (first, last) => first ≤ n && n ≤ last

end Componentry
