import Mathlib
import Componentry.Text.Basic

/-!
Offsets in a text. An offset between two characters splits the text in two, and only there a part of
it can start. At any other offset the text is cut at the last such place before it.
-/
namespace Componentry.Text

variable {t u : Text} {i : Nat}

theorem size_pos_of_ne_nil (h : t ≠ []) : 0 < t.size := by
  cases t
  case nil => exact absurd rfl h
  case cons c t =>
    have := c.utf8Size_pos
    simp only [size_cons]
    omega

theorem suffix?_append (s u : Text) : (s ++ u).suffix? s.size = some u := by
  induction s
  case nil => cases u <;> rfl
  case cons c s ih =>
    have hpos := c.utf8Size_pos
    have ⟨n, hn⟩ : ∃ n, size (c :: s) = n + 1 := ⟨size (c :: s) - 1, by simp; omega⟩
    rw [hn, List.cons_append, suffix?, ← hn, size_cons, if_pos (Nat.le_add_right _ _),
      Nat.add_sub_cancel_left, ih]

theorem suffix?_eq_some_iff : t.suffix? i = some u ↔ ∃ s, t = s ++ u ∧ s.size = i := by
  constructor
  case mp =>
    intro h
    fun_induction suffix? t i
    case case1 => exact ⟨[], by simpa using h, rfl⟩
    case case2 => simp at h
    case case3 c t i hc ih =>
      have ⟨s, ht, hs⟩ := ih h
      exact ⟨c :: s, by rw [ht, List.cons_append], by rw [size_cons, hs]; omega⟩
    case case4 => simp at h
  case mpr =>
    rintro ⟨s, rfl, rfl⟩
    exact suffix?_append s u

section Cut

variable {offset : Nat}

theorem cut_append_size (s t : Text) : (s ++ t).cut s.size = (s, t) := by
  induction s
  case nil =>
    cases t
    case nil => rfl
    case cons c t =>
      have hpos := c.utf8Size_pos
      simp [cut, Nat.not_le.mpr hpos]
  case cons c s ih => simp [cut, ih]

theorem cut_of_size_le (h : t.size ≤ i) : t.cut i = (t, []) := by
  induction t generalizing i
  case nil => rfl
  case cons c t ih =>
    rw [size_cons] at h
    rw [cut, if_pos (by omega), ih (by omega)]

-- An offset past the end is as good as the end.
theorem cut_min (t : Text) (i : Nat) : t.cut (min i t.size) = t.cut i := by
  rcases Nat.le_total i t.size with h | h
  case inl => rw [Nat.min_eq_left h]
  case inr => rw [Nat.min_eq_right h, cut_of_size_le h, cut_of_size_le (Nat.le_refl _)]

-- The last place between two characters that is not past an offset.
structure IsBoundary (t : Text) (offset i : Nat) : Prop where
  le : i ≤ offset
  isSome : (t.suffix? i).isSome
  last : ∀ j ≤ offset, (t.suffix? j).isSome → j ≤ i

theorem size_cut_le (t : Text) (offset : Nat) : size (t.cut offset).1 ≤ offset := by
  induction t generalizing offset
  case nil => exact Nat.zero_le offset
  case cons c t ih =>
    rw [cut]
    split
    case isFalse => exact Nat.zero_le offset
    case isTrue hc =>
      have hrest := ih (offset - c.utf8Size)
      simp only [size_cons]
      omega

theorem size_le_size_cut (s u : Text) (h : s.size ≤ offset) :
    s.size ≤ size ((s ++ u).cut offset).1 := by
  induction s generalizing offset
  case nil => exact Nat.zero_le _
  case cons c s ih =>
    rw [size_cons] at h
    have hrest := @ih (offset - c.utf8Size) (by omega)
    rw [List.cons_append, cut, if_pos (by omega)]
    simp only [size_cons]
    omega

theorem isBoundary_cut (t : Text) (offset : Nat) : IsBoundary t offset (size (t.cut offset).1) where
  le := size_cut_le t offset
  isSome := by
    have hcut := suffix?_append (t.cut offset).1 (t.cut offset).2
    rw [cut_append] at hcut
    exact Option.isSome_of_eq_some hcut
  last j hj hs := by
    obtain ⟨u, hu⟩ := Option.isSome_iff_exists.mp hs
    obtain ⟨s, rfl, rfl⟩ := suffix?_eq_some_iff.mp hu
    exact size_le_size_cut s u hj

end Cut

end Componentry.Text
