import Componentry.Proofs.Code.Locality

/-!
Places in code outside all literals, and how many brackets are open there. The contexts at such a
place say nothing more than that number.
-/
namespace Componentry.Code

open Context

-- The brackets that are open after a character. A closer with nothing to close is passed over.
def depthAfter (depth : Nat) (c : Char) : Nat :=
  if isOpener c then depth + 1 else if isCloser c then depth - 1 else depth

-- A place outside all literals, by the text before it and after it and the brackets that are open
-- there. Literals are passed over as a whole.
inductive Outside : Nat → Text → Text → Text → Nat → Prop
  | here {depth t} : Outside depth t [] t depth
  | literal {depth d t literal after before rest} (hl : literal? t = some (literal, after))
    (h : Outside depth after before rest d) : Outside depth t (literal ++ before) rest d
  | code {depth d c t before rest} (hl : literal? (c :: t) = none)
    (h : Outside (depthAfter depth c) t before rest d) : Outside depth (c :: t) (c :: before) rest d

inductive Opens : Text → Context → Prop
  | line : Opens ['/', '/'] .line
  | block : Opens ['/', '*'] .block
  | quoted {quote} (h : quote = '"' ∨ quote = '\'') : Opens [quote] (.quoted quote)
  | template : Opens ['`'] .template

section Literal

variable {t literal rest : Text}

theorem exists_opens (h : literal? t = some (literal, rest)) : ∃ opening ctx u, Opens opening ctx ∧
    t = opening ++ u ∧ ((∃ inside, leave [ctx] u = some (inside, rest) ∧
      literal = opening ++ inside) ∨
      (leave [ctx] u = none ∧ literal = opening ++ u ∧ rest = [])) := by
  have hthrough {ctx : Context} {opening u : Text}
      (h : literal?.through ctx opening u = (literal, rest)) :
      (∃ inside, leave [ctx] u = some (inside, rest) ∧ literal = opening ++ inside) ∨
        (leave [ctx] u = none ∧ literal = opening ++ u ∧ rest = []) := by
    unfold literal?.through at h
    split at h
    case h_1 inside _ hl =>
      cases h
      exact .inl ⟨inside, hl, rfl⟩
    case h_2 hl =>
      cases h
      exact .inr ⟨hl, rfl, rfl⟩
  unfold literal? at h
  split at h
  case h_1 u => exact ⟨_, _, u, .line, rfl, hthrough (Option.some.inj h)⟩
  case h_2 u => exact ⟨_, _, u, .block, rfl, hthrough (Option.some.inj h)⟩
  case h_3 c u _ _ =>
    split at h
    case isTrue hq =>
      exact ⟨_, _, u, .quoted (by simpa using hq), rfl, hthrough (Option.some.inj h)⟩
    case isFalse =>
      split at h
      case isTrue hq =>
        subst hq
        exact ⟨_, _, u, .template, rfl, hthrough (Option.some.inj h)⟩
      case isFalse => simp at h
  case h_4 => simp at h

theorem Opens.ne_nil {opening : Text} {ctx : Context} (h : Opens opening ctx) : opening ≠ [] := by
  cases h <;> simp

theorem literal?_append (h : literal? t = some (literal, rest)) : t = literal ++ rest := by
  obtain ⟨opening, ctx, u, _, rfl, ⟨inside, hl, rfl⟩ | ⟨_, rfl, rfl⟩⟩ := exists_opens h
  case inl => rw [leave_append hl, List.append_assoc]
  case inr => simp

theorem literal_ne_nil (h : literal? t = some (literal, rest)) : literal ≠ [] := by
  obtain ⟨opening, ctx, u, ho, rfl, ⟨inside, hl, rfl⟩ | ⟨_, rfl, rfl⟩⟩ := exists_opens h
  all_goals simp [ho.ne_nil]

theorem ne_of_literal?_eq_none {c : Char} (h : literal? (c :: t) = none) :
    (c ≠ '"' ∧ c ≠ '\'' ∧ c ≠ '`') ∧ (c = '/' → t.head? ≠ some '/' ∧ t.head? ≠ some '*') := by
  unfold literal? at h
  split at h
  case h_1 => simp at h
  case h_2 => simp at h
  case h_3 hline hblock he =>
    cases he
    refine ⟨?_, fun hc => ⟨fun ht => ?_, fun ht => ?_⟩⟩
    · split at h
      case isTrue => simp at h
      case isFalse hq =>
        split at h
        case isTrue => simp at h
        case isFalse ht => simpa [not_or, and_assoc, ht] using hq
    · obtain ⟨u, rfl⟩ := List.head?_eq_some_iff.mp ht
      exact hline u hc rfl
    · obtain ⟨u, rfl⟩ := List.head?_eq_some_iff.mp ht
      exact hblock u hc rfl
  case h_4 he => simp at he

end Literal

namespace Outside

variable {depth d : Nat} {t before rest : Text}

theorem eq_append (h : Outside depth t before rest d) : t = before ++ rest := by
  induction h
  case here => rfl
  case literal hl _ ih => rw [literal?_append hl, ih, List.append_assoc]
  case code ih => rw [ih, List.cons_append]

theorem nil_iff : Outside depth t [] rest d ↔ rest = t ∧ d = depth := by
  constructor
  case mp =>
    intro h
    generalize hb : ([] : Text) = before at h
    cases h
    case here => exact ⟨rfl, rfl⟩
    case literal hl _ => exact absurd (List.append_eq_nil_iff.mp hb.symm).left (literal_ne_nil hl)
    case code => simp at hb
  case mpr =>
    rintro ⟨rfl, rfl⟩
    exact .here

theorem literal_iff {literal after : Text} (hl : literal? t = some (literal, after)) :
    Outside depth t before rest d ↔ (before = [] ∧ rest = t ∧ d = depth) ∨
      ∃ later, before = literal ++ later ∧ Outside depth after later rest d := by
  constructor
  case mp =>
    intro h
    cases h
    case here => exact .inl ⟨rfl, rfl, rfl⟩
    case literal hl' h =>
      cases hl.symm.trans hl'
      exact .inr ⟨_, rfl, h⟩
    case code hl' _ => simp [hl'] at hl
  case mpr =>
    rintro (⟨rfl, rfl, rfl⟩ | ⟨later, rfl, h⟩)
    · exact .here
    · exact .literal hl h

theorem code_iff {c : Char} (hl : literal? (c :: t) = none) :
    Outside depth (c :: t) before rest d ↔ (before = [] ∧ rest = c :: t ∧ d = depth) ∨
      ∃ later, before = [c] ++ later ∧ Outside (depthAfter depth c) t later rest d := by
  constructor
  case mp =>
    intro h
    cases h
    case here => exact .inl ⟨rfl, rfl, rfl⟩
    case literal hl' _ => simp [hl] at hl'
    case code h => exact .inr ⟨_, rfl, h⟩
  case mpr =>
    rintro (⟨rfl, rfl, rfl⟩ | ⟨later, rfl, h⟩)
    · exact .here
    · exact .code hl h

end Outside

-- The contexts at a place outside all literals. A `/` before it has opened no comment.
def IsOutside (within : List Context) (depth : Nat) (t : Text) : Prop :=
  within = List.replicate depth .group ∨
    within = .slash :: List.replicate depth .group ∧ t.head? ≠ some '/' ∧ t.head? ≠ some '*'

namespace IsOutside

variable {within : List Context} {depth : Nat} {c : Char} {t : Text}

theorem after_replicate (depth : Nat) (c : Char) :
    after (List.replicate depth .group) c = afterCode (List.replicate depth .group) c := by
  cases depth <;> rfl

theorem after_eq (h : IsOutside within depth (c :: t)) :
    after within c = afterCode (List.replicate depth .group) c := by
  rcases h with rfl | ⟨rfl, hline, hblock⟩
  case inl => exact after_replicate depth c
  case inr =>
    have hline : c ≠ '/' := by simpa using hline
    have hblock : c ≠ '*' := by simpa using hblock
    rw [after, if_neg hline, if_neg hblock]

theorem step (h : IsOutside within depth (c :: t)) (hl : literal? (c :: t) = none) :
    IsOutside (after within c) (depthAfter depth c) t := by
  have ⟨⟨hdouble, hsingle, htemplate⟩, hslash⟩ := ne_of_literal?_eq_none hl
  rw [h.after_eq, afterCode, depthAfter]
  by_cases hc : c = '/'
  case pos =>
    subst hc
    exact .inr ⟨rfl, hslash rfl⟩
  case neg =>
    rw [if_neg hc, if_neg (by simp [hdouble, hsingle]), if_neg htemplate]
    by_cases ho : isOpener c
    case pos => rw [if_pos ho, if_pos ho]; exact .inl rfl
    case neg =>
      rw [if_neg ho, if_neg ho]
      by_cases hx : isCloser c
      case pos => rw [if_pos hx, if_pos hx, List.tail_replicate]; exact .inl rfl
      case neg => rw [if_neg hx, if_neg hx]; exact .inl rfl

end IsOutside
end Componentry.Code
