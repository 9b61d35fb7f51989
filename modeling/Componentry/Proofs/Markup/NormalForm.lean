import Componentry.Proofs.Markup.Grammar
import Componentry.Proofs.Markup.Printing

/-!
The normal form of markup. In what is read from a text no text is empty, stands next to another one
or holds a name or a directive, conditions are trimmed, and each block closes the braces that it
opens. Nothing else is known of it: all markup of this form is what some text spells.
-/
namespace Componentry.Markup

open Code

-- What makes the `@` in front of it more than text.
inductive Directive : Text → Prop
  -- The longest identifier, if it is a name that can be inserted.
  | name {identifier rest} (hn : Identifier.IsName identifier)
    (hc : Identifier.continues rest = false)
    (hr : isReserved identifier = false) : Directive (identifier ++ rest)
  | condition {space rest} (hs : ∀ c ∈ space, isSpace c) :
    Directive ("if".toList ++ (space ++ '(' :: rest))

def IsLiteral (t : Text) : Prop :=
  ∀ before after, t = before ++ '@' :: after → ¬Directive after

section Literal

variable {t : Text}

theorem Directive.isSign_eq_false (h : Directive t) : isSign t = false := by
  cases h
  case name hn hc hr => simp [isSign, hn.split_append hc, hn.left, hr]
  case condition space rest hs =>
    have hp := condition?_eq_some_iff.mpr ⟨space, rest, rfl, hs, rfl⟩
    have hp' : condition? ('@' :: ("if".toList ++ (space ++ '(' :: rest))) = some ('(' :: rest) :=
      hp
    simp only [isSign, hp', Option.isNone_some, Bool.and_false]

theorem isSign_iff : isSign t ↔ ¬Directive t := by
  constructor
  case mp =>
    intro h hd
    simp [hd.isSign_eq_false] at h
  case mpr =>
    intro h
    rw [isSign, Bool.and_eq_true, Option.isNone_iff_eq_none, Option.eq_none_iff_forall_ne_some]
    constructor
    · by_contra hn
      simp only [Bool.or_eq_true, decide_eq_true_eq, not_or, Bool.not_eq_true] at hn
      have hsplit : Identifier.split t = (_, (Identifier.split t).2) := rfl
      have hname := Directive.name (Identifier.isName_split hsplit hn.left)
        (not_continues_of_split hsplit hn.left) hn.right
      exact h (Identifier.split_append t ▸ hname)
    · intro paren hp
      obtain ⟨space, rest, ht, hs, _⟩ := condition?_eq_some_iff.mp hp
      cases ht
      exact h (.condition hs)

theorem isInert_iff : isInert t ↔ IsLiteral t := by
  induction t
  case nil => simp [isInert, IsLiteral]
  case cons c t ih =>
    have hcons : IsLiteral (c :: t) ↔ (c = '@' → ¬Directive t) ∧ IsLiteral t := by
      constructor
      case mp =>
        intro h
        exact ⟨fun hc => h [] t (by simp [hc]), fun before after ht =>
          h (c :: before) after (by simp [ht])⟩
      case mpr =>
        rintro ⟨hc, ht⟩ before after he
        cases before
        case nil =>
          cases he
          exact hc rfl
        case cons => exact ht _ after (List.cons.inj he).right
    rw [isInert, Bool.and_eq_true, hcons, ih, ← isSign_iff]
    by_cases hc : c = '@' <;> simp [hc]

end Literal

structure Balanced (t : Text) : Prop where
  le : ∀ p, p <+: t → p.count '}' ≤ p.count '{'
  eq : t.count '}' = t.count '{'

theorem braces_eq_some_iff {t : Text} {depth n : Nat} : braces depth t = some n ↔
    (∀ p, p <+: t → p.count '}' ≤ depth + p.count '{') ∧ t.count '}' + n = depth + t.count '{' := by
  induction t generalizing depth
  case nil => simp [braces, eq_comm]
  case cons c t ih =>
    have hcons (P : Text → Prop) : (∀ p, p <+: c :: t → P p) ↔
        P [] ∧ ∀ p, p <+: t → P (c :: p) := by
      simp only [List.prefix_cons_iff]
      grind
    rw [hcons, braces]
    by_cases hopen : c = '{'
    case pos =>
      rw [if_pos hopen, ih, hopen]
      simp [Nat.add_right_comm, Nat.add_assoc]
    rw [if_neg hopen]
    by_cases hclose : c = '}'
    case neg =>
      rw [if_neg hclose, ih]
      simp [hopen, hclose]
    case pos =>
      rw [if_pos hclose, hclose]
      cases depth
      case zero =>
        -- The brace by itself is one too many.
        refine iff_of_false (by simp) fun h => ?_
        simpa using h.left.right [] List.nil_prefix
      case succ depth =>
        rw [if_neg (Nat.succ_ne_zero depth), Nat.add_sub_cancel, ih]
        simp [Nat.add_right_comm]

theorem braces_eq_some_zero_iff {t : Text} : braces 0 t = some 0 ↔ Balanced t := by
  rw [braces_eq_some_iff]
  simp only [Nat.zero_add, Nat.add_zero]
  exact ⟨fun h => ⟨h.left, h.right⟩, fun h => ⟨h.le, h.eq⟩⟩

inductive IsNormal : Markup → Prop
  | empty : IsNormal .empty
  | text {content rest} (hn : content ≠ []) (hl : IsLiteral content)
    (hs : rest.startsWithText = false)
    (hr : IsNormal rest) : IsNormal (.text content rest)
  | name {identifier rest} (hn : Identifier.IsName identifier)
    (hres : isReserved identifier = false)
    (hc : Identifier.continues rest.leadingText = false) (hr : IsNormal rest) :
    IsNormal (.name identifier rest)
  | conditional {condition : Text} {body alternate rest} (hn : condition ≠ [])
    (ht : condition.trim = condition)
    (hbb : Balanced body.ownText) (hba : Balanced alternate.ownText) (hb : IsNormal body)
    (ha : IsNormal alternate) (hr : IsNormal rest) :
      IsNormal (.conditional condition body alternate rest)

theorem Yields.continues_eq {m : Markup} {t : Text} (h : Yields m t) :
    Identifier.continues t = Identifier.continues m.leadingText := by
  cases h
  case empty => rfl
  case text content rest t hn _ _ _ =>
    obtain ⟨c, s, rfl⟩ := List.exists_cons_of_ne_nil hn
    rfl
  case name => rfl
  case conditional hc _ _ =>
    cases hc
    case intro ho _ _ _ =>
      obtain ⟨u, rfl⟩ := ho.exists_cons
      rfl

theorem Opening.trim_eq {condition o : Text} (h : Opening condition o) :
    condition ≠ [] ∧ condition.trim = condition := by
  cases h
  case intro _ _ ht hn _ => exact ⟨hn, by rw [← ht, Text.trim_trim]⟩

mutual

theorem Yields.isNormal {m : Markup} {t : Text} : Yields m t → m.IsNormal
  | .empty => .empty
  | .text hn hi hs hr => .text hn (isInert_iff.mp hi) hs hr.isNormal
  | .name hn hres hc hr => .name hn hres (hr.continues_eq ▸ hc) hr.isNormal
  | .conditional hc _ hr => hc.isNormal hr.isNormal

theorem YieldsConditional.isNormal {condition t : Text} {body alternate rest : Markup}
    {isOpen : Bool}
    (hr : rest.IsNormal) : YieldsConditional condition body alternate t isOpen →
      (conditional condition body alternate rest).IsNormal
  | .intro ho hb hy he => by
    obtain ⟨hba, ha⟩ := he.isNormal
    exact .conditional ho.trim_eq.left ho.trim_eq.right (braces_eq_some_zero_iff.mp hb)
      hba hy.isNormal ha hr

theorem YieldsElse.isNormal {alternate : Markup} {t : Text} {isOpen : Bool} :
    YieldsElse alternate t isOpen → Balanced alternate.ownText ∧ alternate.IsNormal
  | .nothing => ⟨braces_eq_some_zero_iff.mp rfl, .empty⟩
  | .block _ hb hy => ⟨braces_eq_some_zero_iff.mp hb, hy.isNormal⟩
  | .conditional _ hc => ⟨braces_eq_some_zero_iff.mp rfl, hc.isNormal .empty⟩

end

-- A conditional can be written with what its condition was trimmed from, and with both of its
-- blocks.
theorem exists_yieldsConditional {condition t u : Text} {body alternate : Markup}
    (hc : IsCondition condition)
    (hbb : Balanced body.ownText) (hba : Balanced alternate.ownText) (hb : Yields body t)
    (ha : Yields alternate u) : ∃ s, YieldsConditional condition body alternate s false := by
  obtain ⟨raw, hd, ht, hn⟩ := hc
  have ho : Opening condition ("@if".toList ++ ([] ++ '(' :: (raw ++ ')' :: ([] ++ ['{'])))) :=
    .intro (by simp) hd.closer?_eq ht hn (by simp)
  have helse : Alternation ([] ++ ("@else".toList ++ [])) := .intro (by simp) (by simp)
  exact ⟨_, .intro ho (braces_eq_some_zero_iff.mpr hbb) hb
    (.block helse (braces_eq_some_zero_iff.mpr hba) ha)⟩

theorem IsNormal.exists_yields {m : Markup} (h : m.IsNormal)
    (hc : ∀ condition ∈ m.conditions, IsCondition condition) : ∃ t, Yields m t := by
  induction h
  case empty => exact ⟨_, .empty⟩
  case text hn hl hs _ ih =>
    obtain ⟨t, ht⟩ := ih hc
    exact ⟨_, .text hn (isInert_iff.mpr hl) hs ht⟩
  case name hn hres hcont _ ih =>
    obtain ⟨t, ht⟩ := ih hc
    exact ⟨_, .name hn hres (ht.continues_eq.trans hcont) ht⟩
  case conditional condition body alternate rest _ _ hbb hba _ _ _ ihb iha ihr =>
    simp only [conditions, List.cons_append, List.forall_mem_cons, List.forall_mem_append] at hc
    obtain ⟨hcondition, ⟨hcb, hca⟩, hcr⟩ := hc
    obtain ⟨t, ht⟩ := ihb hcb
    obtain ⟨u, hu⟩ := iha hca
    obtain ⟨v, hv⟩ := ihr hcr
    obtain ⟨s, hs⟩ := exists_yieldsConditional hcondition hbb hba ht hu
    exact ⟨_, .conditional hs (by simp) hv⟩

-- What can be read is the markup in normal form whose conditions can stand in parentheses.
theorem exists_parse_eq_ok_iff {m : Markup} : (∃ t, parse t = .ok m) ↔
    m.IsNormal ∧ ∀ condition ∈ m.conditions, IsCondition condition := by
  constructor
  case mp =>
    rintro ⟨t, h⟩
    exact ⟨(yields_of_parse h).isNormal, (isSpelled_of_parse h).conditions⟩
  case mpr =>
    rintro ⟨h, hc⟩
    obtain ⟨t, ht⟩ := h.exists_yields hc
    exact ⟨t, ht.parse_eq⟩

end Componentry.Markup
