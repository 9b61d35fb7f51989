import Mathlib
import Componentry.Text.Basic

/-!
The order of texts. Texts in the order of their characters are also in the order of the bytes of
their UTF-8 forms, as the numbers of two characters are compared digit by digit from the first byte
on.
-/
namespace Componentry.Text

variable {c d : Char} {s t : Text}

theorem ofNat_cons_lt_iff {m n : Nat} (hm : m < 256) (hn : n < 256) {l r : List UInt8} :
    UInt8.ofNat m :: l < UInt8.ofNat n :: r ↔ m < n ∨ m = n ∧ l < r := by
  rw [List.cons_lt_cons_iff, UInt8.lt_iff_toNat_lt, ← UInt8.toNat_inj, UInt8.toNat_ofNat',
    UInt8.toNat_ofNat', Nat.mod_eq_of_lt hm, Nat.mod_eq_of_lt hn]

-- The first byte at which two characters differ decides, whatever follows them.
theorem utf8EncodeChar_append_lt (h : c < d) (s t : List UInt8) :
    String.utf8EncodeChar c ++ s < String.utf8EncodeChar d ++ t := by
  have hval : c.val.toNat < d.val.toNat := h
  have hd : d.val.toNat < 0x110000 := by
    rcases d.valid with hd | hd <;> omega
  unfold String.utf8EncodeChar
  dsimp only
  generalize c.val.toNat = v at *
  generalize d.val.toNat = w at *
  split_ifs
  all_goals simp (disch := omega) only [List.cons_append, List.nil_append, ofNat_cons_lt_iff]
  any_goals omega
  -- Two characters of four bytes are left: the last digit that differs is found from the end.
  have hlow : v / 64 < w / 64 ∨ v / 64 = w / 64 ∧ v % 64 < w % 64 := by omega
  rcases hlow with hlt | ⟨heq, hlt⟩
  case inr => exact .inr ⟨by omega, .inr ⟨by omega, .inr ⟨by omega, .inl (by omega)⟩⟩⟩
  have hmiddle : v / 4096 < w / 4096 ∨ v / 4096 = w / 4096 ∧ v / 64 % 64 < w / 64 % 64 := by omega
  rcases hmiddle with hlt | ⟨heq, hlt⟩
  case inr => exact .inr ⟨by omega, .inr ⟨by omega, .inl (by omega)⟩⟩
  have hhigh : v / 262144 < w / 262144 ∨ v / 262144 = w / 262144 ∧
      v / 4096 % 64 < w / 4096 % 64 := by
    omega
  rcases hhigh with hlt | ⟨heq, hlt⟩
  case inl => exact .inl (by omega)
  case inr => exact .inr ⟨by omega, .inl (by omega)⟩

theorem bytes_lt_bytes (h : s < t) : s.bytes < t.bytes := by
  induction s generalizing t
  case nil =>
    cases t
    case nil => exact absurd h (lt_irrefl _)
    case cons d t =>
      obtain ⟨b, l, hb⟩ := List.exists_cons_of_ne_nil (String.utf8EncodeChar_ne_nil (c := d))
      simp [bytes, hb]
  case cons c s ih =>
    cases t
    case nil => cases h
    case cons d t =>
      rw [List.cons_lt_cons_iff] at h
      rw [bytes, bytes, List.flatMap_cons, List.flatMap_cons]
      rcases h with hlt | ⟨rfl, hlt⟩
      case inl => exact utf8EncodeChar_append_lt hlt _ _
      case inr => exact List.append_left_lt (ih hlt)

theorem bytes_lt_bytes_iff : s.bytes < t.bytes ↔ s < t := by
  refine ⟨fun h => ?_, bytes_lt_bytes⟩
  rcases lt_trichotomy s t with hlt | rfl | hgt
  case inl => exact hlt
  case inr.inl => exact absurd h (List.lt_irrefl _)
  case inr.inr => exact absurd h (List.lt_asymm (bytes_lt_bytes hgt))

end Componentry.Text
