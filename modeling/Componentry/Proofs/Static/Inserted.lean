import Componentry.Proofs.Markup.Grammar
import Componentry.Proofs.Static.Firmness

/-!
Names that markup can insert, as expressions. No bracket, operator, string or keyword takes up such
a name but `undefined`, while the words for infinity and for "not a number" are names too, in
letters of either case. Main statement: these words are the only names whose value as an expression
is not that in the scope.
-/
namespace Componentry

theorem Identifier.isDigit_eq_false {c : Char} (h : isStart c) : c.isDigit = false := by
  by_cases hu : c = '_'
  case pos =>
    subst hu
    rfl
  case neg =>
    have hval : c.val.toNat = c.toNat := rfl
    simp [isStart, Char.isAlpha, Char.isUpper, Char.isLower, hu, UInt32.le_iff_toNat_le, hval] at h
    simp [Char.isDigit, UInt32.le_iff_toNat_le, hval]
    omega

namespace Decimal

def words : List Text :=
  ["inf", "infinity", "nan"].map String.toList

theorem mem_words {t : Text} :
    t ∈ words ↔ (t = "inf".toList ∨ t = "infinity".toList) ∨ t = "nan".toList := by
  simp only [words, List.map_cons, List.map_nil, List.mem_cons, List.not_mem_nil,
    or_false, or_assoc]

theorem isSome_word?_iff {t : Text} : (word? t).isSome ↔ t.map Char.toLower ∈ words := by
  rw [mem_words]
  unfold word?
  dsimp only
  split
  case isTrue h =>
    simp only [Bool.or_eq_true, decide_eq_true_eq] at h
    exact iff_of_true rfl (.inl h)
  case isFalse h =>
    simp only [Bool.or_eq_true, decide_eq_true_eq] at h
    split
    case isTrue hn => exact iff_of_true rfl (.inr hn)
    case isFalse hn => exact iff_of_false (by simp) (not_or.mpr ⟨h, hn⟩)

-- A number starts with a sign, a digit or a point, unless it is a word.
theorem isSome_read?_iff {name : Text} (h : Identifier.IsName name) :
    (read? name).isSome ↔ name.map Char.toLower ∈ words := by
  obtain ⟨c, t, rfl, hc, _⟩ := h.exists_cons
  have hne {d : Char} (hd : Identifier.isStart d = false) : c ≠ d := by
    rintro rfl
    simp [hc] at hd
  have hsign : sign (c :: t) = (false, c :: t) := by
    unfold sign
    split
    case h_1 he => exact absurd (List.cons.inj he).left (hne rfl)
    case h_2 he => exact absurd (List.cons.inj he).left (hne rfl)
    case h_3 => rfl
  have hscientific : ¬(scientific? (c :: t)).isSome := by
    intro hs
    obtain ⟨mantissa, rest, he, hm, hdigits, _⟩ := scientific?_isSome hs
    obtain ⟨d, u, rfl⟩ := List.exists_cons_of_ne_nil hm
    obtain ⟨rfl, _⟩ := List.cons.inj he
    rcases hdigits c List.mem_cons_self with hd | hd
    case inl => simp [Identifier.isDigit_eq_false hc] at hd
    case inr => exact hne rfl hd
  rw [read?_isSome, hsign, ← isSome_word?_iff]
  exact or_iff_left hscientific

end Decimal

namespace Static

section Values

variable {scope : Scope} {name : Text}

theorem isName_of_identifier (h : Identifier.IsName name) : isName name := by
  obtain ⟨c, t, rfl, hc, ht⟩ := h.exists_cons
  simp only [Identifier.isStart, Identifier.isPart, Char.isAlphanum] at hc ht
  simp only [isName, isLetter, isNumeric, isDecimalDigit, Bool.and_eq_true, List.all_eq_true]
  constructor
  · grind
  · intro d hd
    have hpart := ht d hd
    grind

theorem eval_of_isName (h : isName name) : eval scope name = leaf scope name := by
  have htext : IsText 0 name := .of_isName h
  have hoperand : IsOperand (fun _ => True) name := .name h
  have hparen : parenthesized? name = none := by
    obtain ⟨hn, hw⟩ := isWord_of_isName h
    obtain ⟨c, t, rfl⟩ := List.exists_cons_of_ne_nil hn
    exact parenthesized?_eq_none (ne_of_isWord (hw c List.mem_cons_self) '(' (by decide))
  rw [hoperand.eval_eq_leaf (by rwa [htext.trim_eq]), htext.trim_eq]

theorem eval_of_number {x : Float} (h : isName name) (hx : Decimal.read? name = some x) :
    eval scope name = some (Decimal.write x) := by
  rw [eval_of_isName h, leaf, string?_eq_none h, hx]

end Values

open Markup

section Inserted

variable {name : Text}

theorem isName_of_parse (h : parse ('@' :: name) = .ok (.name name .empty)) :
    Identifier.IsName name ∧ isReserved name = false := by
  generalize '@' :: name = t at h
  cases yields_of_parse h with
  | name hn hres => exact ⟨hn, hres⟩

theorem not_mem_keywords_of_parse (h : parse ('@' :: name) = .ok (.name name .empty))
    (hu : name ≠ "undefined".toList) : name ∉ keywords := by
  intro hk
  have hall : keywords.all fun word => isReserved word || word = "undefined".toList := by
    decide +kernel
  have hword := List.all_eq_true.mp hall name hk
  rw [(isName_of_parse h).right, Bool.false_or, decide_eq_true_eq] at hword
  exact hu hword

-- A name has the value that it has in the scope, unless it is a word for a number. Such a word has
-- one value in all scopes.
theorem eval_inserted_eq_get?_iff (h : parse ('@' :: name) = .ok (.name name .empty))
    (hu : name ≠ "undefined".toList) :
    ((∀ scope, eval scope name = Scope.get? scope name) ↔ name.map Char.toLower ∉ Decimal.words) ∧
      (name.map Char.toLower ∈ Decimal.words → ∃ value, ∀ scope, eval scope name = some value) := by
  obtain ⟨hn, _⟩ := isName_of_parse h
  have hname := isName_of_identifier hn
  rw [← Decimal.isSome_read?_iff hn]
  cases hx : Decimal.read? name
  case none =>
    have hscope : ∀ scope, eval scope name = Scope.get? scope name := fun scope => by
      rw [eval_of_isName hname]
      exact leaf_name ⟨name, hname, not_mem_keywords_of_parse h hu, by rw [hx]; rfl⟩
    simpa using hscope
  case some x =>
    have hvalue : ∀ scope, eval scope name = some (Decimal.write x) :=
      fun _ => eval_of_number hname hx
    refine ⟨iff_of_false (fun hscope => ?_) (by simp), fun _ => ⟨_, hvalue⟩⟩
    have hnone := hscope []
    rw [hvalue] at hnone
    cases hnone

theorem eval_inserted_info : parse "@info_2".toList = .ok (.name "info_2".toList .empty) ∧
    ∀ scope, eval scope "info_2".toList = Scope.get? scope "info_2".toList := by
  have h : parse ('@' :: "info_2".toList) = .ok (.name "info_2".toList .empty) := by decide +kernel
  exact ⟨h, (eval_inserted_eq_get?_iff h (by decide)).left.mpr (by decide)⟩

theorem eval_inserted_inf : parse "@inf".toList = .ok (.name "inf".toList .empty) ∧
    Scope.get? [] "inf".toList = none ∧ eval [] "inf".toList ≠ none := by
  refine ⟨by decide +kernel, rfl, ?_⟩
  have hn : Identifier.IsName "inf".toList := by decide
  obtain ⟨x, hx⟩ := Option.isSome_iff_exists.mp ((Decimal.isSome_read?_iff hn).mpr (by decide))
  rw [eval_of_number (isName_of_identifier hn) hx]
  simp

end Inserted

end Static
end Componentry
