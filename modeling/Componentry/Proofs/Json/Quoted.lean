import Mathlib
import Componentry.Json.Token

/-!
Quoted texts read back: the spelling between the quotes ends where it should and denotes the text.
-/
namespace Componentry.Json

open Text (quotedChar hexDigit)

theorem hexValue?_hexDigit {n : Nat} (h : n < 16) : hexValue? (hexDigit n) = some n := by
  have : ∀ n < 16, hexValue? (hexDigit n) = some n := by decide
  exact this n h

theorem hexUnit?_hexDigit {n : Nat} (h : n < 0x20) :
    hexUnit? '0' '0' (hexDigit (n / 16)) (hexDigit (n % 16)) = some n := by
  have hz : hexValue? '0' = some 0 := by decide
  simp only [hexUnit?, hz, hexValue?_hexDigit (show n / 16 < 16 by omega),
    hexValue?_hexDigit (show n % 16 < 16 by omega)]
  simp [Nat.div_add_mod]

theorem quotedChar_cases (c : Char) :
    (quotedChar c = [c] ∧ c ≠ '"' ∧ c ≠ '\\' ∧ ¬c.toNat < 0x20) ∨
    (∃ d, quotedChar c = ['\\', d] ∧ d ≠ 'u' ∧ escaped? d = some c) ∨
    (quotedChar c = ['\\', 'u', '0', '0', hexDigit (c.toNat / 16), hexDigit (c.toNat % 16)] ∧
      c.toNat < 0x20) := by
  unfold quotedChar
  split
  case isTrue h => exact .inr (.inl ⟨'"', rfl, by decide, by simp [escaped?, h]⟩)
  split
  case isTrue h => exact .inr (.inl ⟨'\\', rfl, by decide, by simp [escaped?, h]⟩)
  split
  case isTrue h => exact .inr (.inl ⟨'n', rfl, by decide, h ▸ rfl⟩)
  split
  case isTrue h => exact .inr (.inl ⟨'r', rfl, by decide, h ▸ rfl⟩)
  split
  case isTrue h => exact .inr (.inl ⟨'t', rfl, by decide, h ▸ rfl⟩)
  split
  case isTrue h => exact .inr (.inl ⟨'b', rfl, by decide, h ▸ rfl⟩)
  split
  case isTrue h => exact .inr (.inl ⟨'f', rfl, by decide, h ▸ rfl⟩)
  split
  case isTrue h => exact .inr (.inr ⟨rfl, h⟩)
  case isFalse h => exact .inl ⟨rfl, ‹_›, ‹_›, h⟩

theorem string?_quotedChar (c : Char) (t : Text) :
    Token.string? (quotedChar c ++ t) =
      (Token.string? t).map fun (s, rest) => (quotedChar c ++ s, rest) := by
  rcases quotedChar_cases c with ⟨he, hq, hb, hc⟩ | ⟨d, he, hd, hc⟩ | ⟨he, hc⟩ <;> rw [he]
  case inl => simp [Token.string?, hb, hc]
  case inr.inl => simp [Token.string?, hd, hc]
  case inr.inr => simp [Token.string?, hexUnit?_hexDigit hc]

theorem denoted?_quotedChar (c : Char) (t : Text) :
    denoted? (quotedChar c ++ t) = (denoted? t).map (c :: ·) := by
  rcases quotedChar_cases c with ⟨he, hq, hb, hc⟩ | ⟨d, he, hd, hc⟩ | ⟨he, hc⟩ <;> rw [he]
  case inl => simp [denoted?, hb, Option.map_eq_bind]
  case inr.inl => simp [denoted?, hd, hc, Option.map_eq_bind]
  case inr.inr =>
    have hhigh : isHighSurrogate c.toNat = false := by simp [isHighSurrogate]; omega
    have hlow : isLowSurrogate c.toNat = false := by simp [isLowSurrogate]; omega
    simp [denoted?, hexUnit?_hexDigit hc, hhigh, hlow, Option.map_eq_bind]

theorem string?_quoted (t rest : Text) :
    Token.string? (t.flatMap quotedChar ++ '"' :: rest) = some (t.flatMap quotedChar, rest) := by
  induction t
  case nil => simp [Token.string?]
  case cons c t ih => simp [string?_quotedChar, ih]

theorem denoted?_quoted (t : Text) : denoted? (t.flatMap quotedChar) = some t := by
  induction t
  case nil => simp [denoted?]
  case cons c t ih => simp [denoted?_quotedChar, ih]

end Componentry.Json
