import Mathlib
import Componentry.Decimal.Number

/-!
The characters of a number: letters, digits, a point and signs. A sign stands before the number or
before its exponent, so what follows a plus sign is a number again.
-/
namespace Componentry.Decimal

section Characters

variable {c : Char} {t : Text}

theorem sign_snd (t : Text) : t = (sign t).2 ∨ t = '-' :: (sign t).2 ∨ t = '+' :: (sign t).2 := by
  unfold sign
  split <;> simp

theorem mem_sign (hm : c ∈ t) (hs : c ≠ '-') (hp : c ≠ '+') : c ∈ (sign t).2 := by
  rcases sign_snd t with h | h | h
  case inl => exact h ▸ hm
  case inr.inl =>
    rw [h] at hm
    exact (List.mem_cons.mp hm).resolve_left hs
  case inr.inr =>
    rw [h] at hm
    exact (List.mem_cons.mp hm).resolve_left hp

theorem word?_eq_none (hm : c ∈ t) (hc : c.isAlphanum = false) : word? t = none := by
  have hupper : ¬c.isUpper := fun h => by simp [Char.isAlphanum, Char.isAlpha, h] at hc
  have hmem : c ∈ t.map Char.toLower :=
    List.mem_map.mpr ⟨c, hm, Char.toLower_eq_of_not_isUpper hupper⟩
  have hne {word : Text} (hw : word.all Char.isAlphanum) : t.map Char.toLower ≠ word := by
    rintro rfl
    simpa [hc] using List.all_eq_true.mp hw c hmem
  have hinf : t.map Char.toLower ≠ "inf".toList := hne (by decide)
  have hinfinity : t.map Char.toLower ≠ "infinity".toList := hne (by decide)
  have hnan : t.map Char.toLower ≠ "nan".toList := hne (by decide)
  simp only [word?, hinf, hinfinity, hnan, decide_false, Bool.or_self, Bool.false_eq_true, if_false]

theorem scientific?_isSome (h : (scientific? t).isSome) :
    ∃ mantissa rest, t = mantissa ++ rest ∧ mantissa ≠ [] ∧ (∀ c ∈ mantissa, c.isDigit ∨ c = '.') ∧
      (exponent? rest).isSome := by
  have hwhole := List.takeWhile_append_dropWhile (p := Char.isDigit) (l := t)
  have hdigit {u : Text} : ∀ c ∈ u.takeWhile Char.isDigit, c.isDigit :=
    fun _ hc => List.mem_takeWhile_imp hc
  have hexponent {rest : Text} {f : Int → Scientific}
      (h : ((exponent? rest).bind fun e => some (f e)).isSome) : (exponent? rest).isSome := by
    cases he : exponent? rest <;> simp [he] at h ⊢
  simp only [scientific?] at h
  split at h
  case h_1 u hu =>
    have hfraction := List.takeWhile_append_dropWhile (p := Char.isDigit) (l := u)
    split at h
    case isTrue => simp at h
    case isFalse =>
      refine ⟨t.takeWhile Char.isDigit ++ '.' :: u.takeWhile Char.isDigit, u.dropWhile Char.isDigit,
        ?_, by simp, ?_, hexponent h⟩
      · rw [List.append_assoc, List.cons_append, hfraction, ← hu, hwhole]
      · intro c hc
        rcases List.mem_append.mp hc with hc | hc
        case inl => exact .inl (hdigit c hc)
        case inr => exact (List.mem_cons.mp hc).symm.imp_left (hdigit c)
  case h_2 =>
    split at h
    case isTrue => simp at h
    case isFalse hn =>
      refine ⟨t.takeWhile Char.isDigit, t.dropWhile Char.isDigit, hwhole.symm, by simpa using hn,
        fun c hc => .inl (hdigit c hc), hexponent h⟩

theorem exponent?_isSome (h : (exponent? t).isSome) :
    t = [] ∨ ∃ c u, t = c :: u ∧ (c = 'e' ∨ c = 'E') ∧ (sign u).2 ≠ [] ∧
    ∀ d ∈ (sign u).2, d.isDigit := by
  cases t
  case nil => exact .inl rfl
  case cons c u =>
    simp only [exponent?] at h
    split at h
    case isFalse => simp at h
    case isTrue hs =>
      simp only [Bool.and_eq_true, Bool.or_eq_true, decide_eq_true_eq, List.all_eq_true] at hs
      exact .inr ⟨c, u, rfl, hs.left.left, by simpa using hs.left.right, hs.right⟩

theorem read?_isSome :
    (read? t).isSome ↔ (word? (sign t).2).isSome ∨ (scientific? (sign t).2).isSome := by
  simp [read?, Option.isSome_or]

theorem scientific?_eq_none (hm : c ∈ t) (hc : c.isAlphanum = false) (hn : c ∉ ['+', '-', '.']) :
    scientific? t = none := by
  rw [← Option.not_isSome_iff_eq_none]
  intro h
  have hdigit : ¬c.isDigit := fun h => by simp [Char.isAlphanum, h] at hc
  simp only [List.mem_cons, List.not_mem_nil, or_false, not_or] at hn
  obtain ⟨mantissa, rest, rfl, _, hmantissa, he⟩ := scientific?_isSome h
  have hrest : c ∈ rest := by
    refine (List.mem_append.mp hm).resolve_left fun hm => ?_
    exact (hmantissa c hm).elim hdigit hn.right.right
  rcases exponent?_isSome he with rfl | ⟨d, u, rfl, hd, _, hall⟩
  case inl => cases hrest
  case inr =>
    rcases List.mem_cons.mp hrest with rfl | hu
    case inl => rcases hd with rfl | rfl <;> simp [Char.isAlphanum] at hc
    case inr => exact hdigit (hall c (mem_sign hu hn.right.left hn.left))

theorem read?_eq_none (hm : c ∈ t) (hc : c.isAlphanum = false) (hn : c ∉ ['+', '-', '.']) :
    read? t = none := by
  have hs : c ∈ (sign t).2 := mem_sign hm (by rintro rfl; simp at hn) (by rintro rfl; simp at hn)
  simp [read?, word?_eq_none hs hc, scientific?_eq_none hs hc hn]

end Characters

section Plus

variable {s t : Text}

theorem scientific?_of_isDigit (hn : t ≠ []) (h : ∀ c ∈ t, c.isDigit) : (scientific? t).isSome := by
  have htake : t.takeWhile Char.isDigit = t := List.takeWhile_eq_self_iff.mpr h
  have hdrop : t.dropWhile Char.isDigit = [] := List.dropWhile_eq_nil_iff.mpr h
  simp [scientific?, htake, hdrop, hn, exponent?]

theorem read?_of_unsigned (h : (word? t).isSome ∨ (scientific? t).isSome) : (read? t).isSome := by
  have hsign {c : Char} {u : Text} (hc : c.isAlphanum = false) (hp : c ≠ '.') (ht : t = c :: u) :
      False := by
    rcases h with h | h
    case inl => simp [word?_eq_none (t := t) (by simp [ht]) hc] at h
    case inr =>
      obtain ⟨mantissa, rest, he, hm, hall, _⟩ := scientific?_isSome h
      obtain ⟨d, v, rfl⟩ := List.exists_cons_of_ne_nil hm
      obtain ⟨rfl, _⟩ := List.cons.inj (ht.symm.trans he)
      rcases hall c List.mem_cons_self with hd | hd
      case inl => simp [Char.isAlphanum, hd] at hc
      case inr => exact hp hd
  rw [read?_isSome]
  rcases sign_snd t with ht | ht | ht
  case inl => rwa [← ht]
  case inr.inl => exact (hsign (by decide) (by decide) ht).elim
  case inr.inr => exact (hsign (by decide) (by decide) ht).elim

theorem scientific?_after_plus (h : (scientific? (s ++ '+' :: t)).isSome) : (read? t).isSome := by
  obtain ⟨mantissa, rest, he, _, hm, hx⟩ := scientific?_isSome h
  have hplus : '+' ∉ mantissa := fun h => by simpa using hm _ h
  -- The plus sign is that of the exponent.
  obtain ⟨x, rfl, hrest⟩ : ∃ x, s = mantissa ++ x ∧ rest = x ++ '+' :: t := by
    rcases List.append_eq_append_iff.mp he with ⟨x, rfl, hx⟩ | ⟨x, rfl, hx⟩
    case inl =>
      cases x
      case nil => exact ⟨[], by simp, hx.symm⟩
      case cons c x =>
        obtain ⟨rfl, _⟩ := List.cons.inj hx
        simp at hplus
    case inr => exact ⟨x, rfl, hx⟩
  rcases exponent?_isSome hx with rfl | ⟨c, u, rfl, hc, hne, hall⟩
  case inl => simp at hrest
  case inr =>
    have hdigit : '+' ∉ (sign u).2 := fun h => by simpa using hall _ h
    cases x
    case nil =>
      obtain ⟨rfl, _⟩ := List.cons.inj hrest
      simp at hc
    case cons d x =>
      rw [List.cons_append, List.cons.injEq] at hrest
      obtain ⟨rfl, rfl⟩ := hrest
      have hdigits : t = (sign (x ++ '+' :: t)).2 := by
        cases x
        case nil => rfl
        case cons d x =>
          have hmem : '+' ∈ x ++ '+' :: t := by simp
          rcases sign_snd (d :: x ++ '+' :: t) with hs | hs | hs
          case inl => exact absurd (hs ▸ by simp) hdigit
          case inr.inl =>
            rw [← (List.cons.inj hs).right] at hdigit
            exact absurd hmem hdigit
          case inr.inr =>
            rw [← (List.cons.inj hs).right] at hdigit
            exact absurd hmem hdigit
      rw [← hdigits] at hne hall
      exact read?_of_unsigned (.inr (scientific?_of_isDigit hne hall))

theorem read?_after_plus (h : (read? (s ++ '+' :: t)).isSome) : (read? t).isSome := by
  rw [read?_isSome] at h
  have hlater {u : Text} (hu : (sign (s ++ '+' :: t)).2 = u ++ '+' :: t) : (read? t).isSome := by
    rw [hu, word?_eq_none (c := '+') (by simp) (by decide)] at h
    exact scientific?_after_plus (by simpa using h)
  rcases sign_snd (s ++ '+' :: t) with hs | hs | hs
  case inl => exact hlater hs.symm
  case inr.inl =>
    cases s
    case nil => simp at hs
    case cons => exact hlater (List.cons.inj hs).right.symm
  case inr.inr =>
    cases s
    case nil => exact read?_of_unsigned h
    case cons => exact hlater (List.cons.inj hs).right.symm

end Plus
end Componentry.Decimal
