import Componentry.Proofs.Json.Quoted
import Componentry.Proofs.Static.Firmness

/-!
Quoted texts as expressions. No place of the expression is between the quotes, so that none of the
characters there is an operator or a bracket. Main statement: the value of a quoted text is the text
itself if and only if its control characters are among those whose escapes an expression knows.
-/
namespace Componentry.Static

open Text (quotedChar hexDigit)

-- A control character whose escape an expression does not know, and leaves as it is spelled.
def isUnknownControl (c : Char) : Bool :=
  c.toNat < 0x20 && c ≠ '\n' && c ≠ '\r' && c ≠ '\t'

section Spelling

variable {c : Char} {t : Text}

theorem unescape_cons (h : c ≠ '\\') (t : Text) : unescape (c :: t) = c :: unescape t := by
  rw [unescape]
  rintro d u he
  simp_all

theorem hexDigit_ne_backslash {n : Nat} (h : n < 16) : hexDigit n ≠ '\\' := by
  have hall : ∀ n < 16, hexDigit n ≠ '\\' := by decide
  exact hall n h

theorem unescape_quotedChar (c : Char) (t : Text) :
    unescape (quotedChar c ++ t) = (if isUnknownControl c then quotedChar c else [c]) ++
      unescape t := by
  by_cases hs : c ∈ ['"', '\\', '\n', '\r', '\t', '\x08', '\x0c']
  case pos =>
    simp only [List.mem_cons, List.not_mem_nil, or_false] at hs
    rcases hs with rfl | rfl | rfl | rfl | rfl | rfl | rfl <;> rfl
  case neg =>
    simp only [List.mem_cons, List.not_mem_nil, or_false, not_or] at hs
    by_cases hc : c.toNat < 0x20
    case pos =>
      -- The number of the character has no backslash in it, so nothing after the first one is
      -- changed.
      have hhigh := hexDigit_ne_backslash (show c.toNat / 16 < 16 by omega)
      have hlow := hexDigit_ne_backslash (show c.toNat % 16 < 16 by omega)
      simp [quotedChar, isUnknownControl, hs, hc, unescape, unescape_cons hhigh, unescape_cons hlow]
    case neg => simp [quotedChar, isUnknownControl, hs, hc, unescape_cons hs.right.left]

theorem unescape_quoted (t : Text) : unescape (t.flatMap quotedChar) =
    t.flatMap fun c => if isUnknownControl c then quotedChar c else [c] := by
  induction t
  case nil => rfl
  case cons c t ih => rw [List.flatMap_cons, unescape_quotedChar, ih, List.flatMap_cons]

theorem head?_quotedChar (h : isUnknownControl c) :
    (quotedChar c).head? = some '\\' ∧ c ≠ '\\' := by
  have hc : c.toNat < 0x20 := by
    simp only [isUnknownControl, Bool.and_eq_true, decide_eq_true_eq] at h
    exact h.left.left.left
  refine ⟨?_, ?_⟩
  · rcases Json.quotedChar_cases c with ⟨_, _, _, hn⟩ | ⟨_, he, _, _⟩ | ⟨he, _⟩
    case inl => exact absurd hc hn
    all_goals rw [he]; rfl
  · rintro rfl
    exact absurd hc (by decide)

theorem unescape_quoted_eq_iff :
    unescape (t.flatMap quotedChar) = t ↔ ∀ c ∈ t, isUnknownControl c = false := by
  rw [unescape_quoted]
  induction t
  case nil => simp
  case cons c t ih =>
    rw [List.flatMap_cons, List.forall_mem_cons, ← ih]
    cases hc : isUnknownControl c
    case false => simp
    case true =>
      obtain ⟨hhead, hne⟩ := head?_quotedChar hc
      obtain ⟨s, hs⟩ := List.head?_eq_some_iff.mp hhead
      simp [hs, hne.symm]

theorem isContent_quotedChar (h : IsContent '"' t) (c : Char) :
    IsContent '"' (quotedChar c ++ t) := by
  rcases Json.quotedChar_cases c with ⟨he, hq, hb, _⟩ | ⟨d, he, _, _⟩ | ⟨he, hc⟩ <;> rw [he]
  case inl => exact .plain hq hb h
  case inr.inl => exact .escaped h
  case inr.inr =>
    have hdigit {n : Nat} (hn : n < 16) : hexDigit n ≠ '"' := by
      have hall : ∀ n < 16, hexDigit n ≠ '"' := by decide
      exact hall n hn
    have hhigh : c.toNat / 16 < 16 := by omega
    have hlow : c.toNat % 16 < 16 := by omega
    exact .escaped (.plain (by decide) (by decide) (.plain (by decide) (by decide)
      (.plain (hdigit hhigh) (hexDigit_ne_backslash hhigh)
        (.plain (hdigit hlow) (hexDigit_ne_backslash hlow) h))))

theorem isContent_quoted (t : Text) : IsContent '"' (t.flatMap quotedChar) := by
  induction t
  case nil => exact .nil
  case cons c t ih => exact isContent_quotedChar ih c

end Spelling

theorem places_quoted (t : Text) : places t.quoted = [] := by
  have hplaces := Balanced.places_string (isContent_quoted t) (q := '"') rfl []
  simpa [Text.quoted, places, places.go] using hplaces

theorem trim_quoted (t : Text) : t.quoted.trim = t.quoted := by
  have hblank : isBlank '"' = false := rfl
  have hlast : t.quoted.getLast? = some '"' := by rw [Text.quoted, List.getLast?_concat]
  exact Text.trim_eq_self (by simp [Text.quoted, hblank]) (by simp [hlast, hblank])

theorem string?_quoted (t : Text) : string? t.quoted = some (unescape (t.flatMap quotedChar)) := by
  rw [string?, trim_quoted]
  simp [Text.quoted, isQuote]

theorem eval_quoted_eq_unescape (scope : Scope) (t : Text) :
    eval scope t.quoted = some (unescape (t.flatMap quotedChar)) := by
  have hoperand : IsOperand (fun _ => True) t.quoted :=
    .literal (q := '"') rfl (isContent_quoted t) trivial
  have hparen : parenthesized? t.quoted.trim = none := by
    rw [trim_quoted]
    exact parenthesized?_eq_none (by decide)
  have hleaf : leaf scope t.quoted = string? t.quoted :=
    leaf_eq_string? (c := '"') List.mem_cons_self rfl (by decide) rfl
  rw [hoperand.eval_eq_leaf hparen, trim_quoted, hleaf, string?_quoted]

-- What is between the quotes is data: it has no place at the top level, and unescaping gives the
-- text back just if no control character is in it but line feeds, carriage returns and tabs.
theorem eval_quoted_eq_iff (scope : Scope) (t : Text) :
    places t.quoted = [] ∧ (eval scope t.quoted = some t ↔
      ∀ c ∈ t, c.toNat < 0x20 → c = '\n' ∨ c = '\r' ∨ c = '\t') := by
  refine ⟨places_quoted t, ?_⟩
  rw [eval_quoted_eq_unescape, Option.some_inj, unescape_quoted_eq_iff]
  refine forall₂_congr fun c _ => ?_
  simp only [isUnknownControl, Bool.and_eq_false_iff, decide_eq_false_iff_not]
  tauto

-- Quotes, backslashes, operators and brackets of the text are all escaped or ignored.
example : eval [] (Text.quoted "a\\\" ? ')' : !b || 1 + \n;".toList) =
    some "a\\\" ? ')' : !b || 1 + \n;".toList := by
  decide +kernel

end Componentry.Static
