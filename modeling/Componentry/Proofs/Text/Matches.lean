import Mathlib
import Componentry.Text.Matches

/-!
Where the occurrences of a pattern are found, and when they do not depend on what follows.
-/
namespace Componentry.Text

section Occurrences

variable {α : Type} {pattern : Option Char → Text → Option (α × Nat)} {x : α} {taken : Nat}

theorem exists_of_mem_go {before t : Text} (h : x ∈
      occurrences.go pattern taken before.getLast? t) :
    ∃ s u length, t = s ++ u ∧ pattern (before ++ s).getLast? u = some (x, length) := by
  induction t generalizing taken before
  case nil => cases h
  case cons c t ih =>
    have hlast : some c = (before ++ [c]).getLast? := List.getLast?_concat.symm
    have hlater {taken : Nat} (h : x ∈ occurrences.go pattern taken (some c) t) :
        ∃ s u length, c :: t = s ++ u ∧ pattern (before ++ s).getLast? u = some (x, length) := by
      obtain ⟨s, u, length, rfl, hp⟩ := ih (hlast ▸ h)
      exact ⟨c :: s, u, length, rfl, by simpa using hp⟩
    unfold occurrences.go at h
    split at h
    case h_1 => exact hlater h
    case h_2 =>
      split at h
      case h_2 => exact hlater h
      case h_1 length hp =>
        rcases List.mem_cons.mp h with rfl | h
        case inl => exact ⟨[], c :: t, length, rfl, by simpa using hp⟩
        case inr => exact hlater h

theorem exists_of_mem_occurrences {t : Text} (h : x ∈ t.occurrences pattern) :
    ∃ s u length, t = s ++ u ∧ pattern s.getLast? u = some (x, length) := by
  have hgo : x ∈ occurrences.go pattern 0 (List.getLast? []) t := h
  exact exists_of_mem_go hgo

-- A text in which nothing is found and on which no occurrence depends may follow.
theorem go_append_eq {t : Text} (hp : ∀ previous s, pattern previous (s ++ t) = pattern previous s)
    (hl : ∀ previous s x length, pattern previous s = some (x, length) → length ≤ s.length)
    (ht : ∀ previous, occurrences.go pattern 0 previous t = []) {previous : Option Char} {s : Text}
    (h : taken ≤ s.length) :
    occurrences.go pattern taken previous (s ++ t) = occurrences.go pattern taken previous s := by
  induction s generalizing taken previous
  case nil =>
    obtain rfl := Nat.le_zero.mp h
    exact ht previous
  case cons c s ih =>
    cases taken
    case succ taken => exact ih (Nat.le_of_succ_le_succ h)
    case zero =>
      rw [List.cons_append, occurrences.go, occurrences.go, ← List.cons_append, hp]
      cases hs : pattern previous (c :: s)
      case none => exact ih (Nat.zero_le _)
      case some found =>
        have hlength := hl previous (c :: s) found.1 found.2 hs
        exact congrArg (found.1 :: ·) (ih (Nat.sub_le_of_le_add hlength))

end Occurrences

end Componentry.Text
