import Componentry.Proofs.Code.Locality
import Componentry.Proofs.Json.Quoted

/-!
Neutral code: pieces of code that leave everything closed which they open, and close nothing else.
-/
namespace Componentry.Code

open Context

def Neutral (t : Text) : Prop :=
  ∀ outer, Reads (.group :: outer) t (.group :: outer)

def isOrdinary (c : Char) : Bool :=
  c ≠ '/' && c ≠ '"' && c ≠ '\'' && c ≠ '`' && !isOpener c && !isCloser c

theorem isOrdinary_of {p : Char → Bool} {c : Char} (h : p c)
    (hp : ['/', '"', '\'', '`', '(', '[', '{', ')', ']', '}'].all (!p ·)) : isOrdinary c := by
  have hne : ∀ d ∈ ['/', '"', '\'', '`', '(', '[', '{', ')', ']', '}'], c ≠ d := by
    rintro d hd rfl
    have := List.all_eq_true.mp hp c hd
    simp [h] at this
  simpa [isOrdinary, isOpener, isCloser, and_assoc] using hne

theorem isOrdinary_of_isBlank {c : Char} (h : isBlank c) : isOrdinary c :=
  isOrdinary_of h (by decide)

theorem isOrdinary_of_isPart {c : Char} (h : Identifier.isPart c) : isOrdinary c :=
  isOrdinary_of h (by decide)

theorem afterCode_of_isOrdinary {c : Char} (h : isOrdinary c) (within : List Context) :
    afterCode within c = within := by
  simp_all [isOrdinary, afterCode]

namespace Neutral

variable {t u : Text}

theorem nil : Neutral [] :=
  fun _ => .nil

theorem append (ht : Neutral t) (hu : Neutral u) : Neutral (t ++ u) :=
  fun outer => (ht outer).append (hu outer)

theorem of_isOrdinary (h : ∀ c ∈ t, isOrdinary c) : Neutral t := by
  intro outer
  induction t
  case nil => exact .nil
  case cons c t ih =>
    have ⟨hc, ht⟩ := List.forall_mem_cons.mp h
    apply Reads.cons
    rw [after, afterCode_of_isOrdinary hc]
    · exact ih ht
    all_goals simp

theorem of_all (h : t.all isOrdinary) : Neutral t :=
  of_isOrdinary (List.all_eq_true.mp h)

theorem group {o c : Char} (ho : isOpener o) (hc : isCloser c) (h : Neutral t) :
    Neutral (o :: t ++ [c]) := by
  intro outer
  have hopen : after (.group :: outer) o = .group :: .group :: outer := by
    simp only [isOpener, Bool.or_eq_true, decide_eq_true_eq] at ho
    rcases ho with (rfl | rfl) | rfl <;> rfl
  have hclose : after (.group :: .group :: outer) c = .group :: outer := by
    simp only [isCloser, Bool.or_eq_true, decide_eq_true_eq] at hc
    rcases hc with (rfl | rfl) | rfl <;> rfl
  apply Reads.cons
  rw [hopen]
  apply (h _).append
  apply Reads.cons
  rw [hclose]
  exact .nil

theorem joinWith {separator : Text} (hs : Neutral separator) {ts : List Text}
    (h : ∀ t ∈ ts, Neutral t) : Neutral (Text.joinWith separator ts) := by
  fun_induction Text.joinWith separator ts
  case case1 => exact nil
  case case2 t => exact h t (by simp)
  case case3 t u more ih =>
    obtain ⟨ht, hmore⟩ := List.forall_mem_cons.mp h
    exact (ht.append hs).append (ih hmore)

end Neutral

-- A delimited text need not be neutral by itself, because its last character may be a `/`.
theorem Delimited.neutral {t : Text} (h : Delimited t) : Neutral ('(' :: t ++ [')']) := by
  intro outer
  apply Reads.cons
  exact h.reads (.group :: outer)

theorem Neutral.delimited {t : Text} (h : Neutral t) : Delimited t := by
  have hclose : Reads [.group] [')'] [] := .cons .nil
  apply delimited_iff_leave.mpr
  simpa using ((h []).append hclose).leave_eq []

section Quoted

variable (outer : List Context)

theorem reads_escaped (c : Char) :
    Reads (.quoted '"' :: outer) ['\\', c] (.quoted '"' :: outer) :=
  .cons (.cons .nil)

theorem reads_unescaped {c : Char} (hq : c ≠ '"') (hb : c ≠ '\\') (hn : c ≠ '\n') :
    Reads (.quoted '"' :: outer) [c] (.quoted '"' :: outer) := by
  apply Reads.cons
  simp only [after, hb, hq, hn, if_false, Bool.or_self, decide_false, Bool.false_eq_true]
  exact .nil

theorem reads_hexDigit {n : Nat} (h : n < 16) :
    Reads (.quoted '"' :: outer) [Text.hexDigit n] (.quoted '"' :: outer) := by
  have hd : ∀ n < 16, Text.hexDigit n ≠ '"' ∧ Text.hexDigit n ≠ '\\' ∧ Text.hexDigit n ≠ '\n' := by
    decide
  have ⟨hq, hb, hn⟩ := hd n h
  exact reads_unescaped outer hq hb hn

theorem reads_quotedChar (c : Char) :
    Reads (.quoted '"' :: outer) (Text.quotedChar c) (.quoted '"' :: outer) := by
  rcases Json.quotedChar_cases c with ⟨he, hq, hb, hc⟩ | ⟨d, he, _, _⟩ | ⟨he, hc⟩ <;> rw [he]
  case inl =>
    have hn : c ≠ '\n' := fun hn => hc (hn ▸ by decide)
    exact reads_unescaped outer hq hb hn
  case inr.inl => exact reads_escaped outer d
  case inr.inr =>
    have hhigh := reads_hexDigit outer (n := c.toNat / 16) (by omega)
    have hlow := reads_hexDigit outer (n := c.toNat % 16) (by omega)
    exact (reads_escaped outer 'u').append (.cons (.cons (hhigh.append hlow)))

end Quoted

theorem neutral_quoted (t : Text) : Neutral t.quoted := by
  intro outer
  have hinside : Reads (.quoted '"' :: .group :: outer) (t.flatMap Text.quotedChar)
      (.quoted '"' :: .group :: outer) := by
    induction t
    case nil => exact .nil
    case cons c t ih => exact (reads_quotedChar _ c).append ih
  apply Reads.cons
  apply hinside.append
  apply Reads.cons
  exact .nil

end Componentry.Code
