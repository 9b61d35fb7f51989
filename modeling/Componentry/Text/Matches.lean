import Componentry.Text.Basic

/-!
Occurrences of a pattern in a text.
-/
namespace Componentry.Text

-- What a pattern finds, from left to right and without overlap. The pattern is tried on the text
-- from each character on, given the character before, and says how many characters it took.
def occurrences (pattern : Option Char → Text → Option (α × Nat)) (t : Text) : List α :=
  go 0 none t
where
  go (taken : Nat) (previous : Option Char) : Text → List α
    | [] => []
    | c :: t =>
      match taken with
      | taken + 1 => go taken (some c) t
      | 0 =>
        match pattern previous (c :: t) with
        | some (found, length) => found :: go (length - 1) (some c) t
        | none => go 0 (some c) t

end Componentry.Text
