import Componentry.Proofs.Static.Levels

/-!
Where the text of an expression is cut. An operator between two operands of the right levels is the
last of its row outside brackets, and no looser one is there.
-/
namespace Componentry.Static

inductive Binary
  | or
  | and
  | identical
  | notIdentical
  | equal
  | notEqual
  | greater
  | less
  | atLeast
  | atMost
  deriving DecidableEq

namespace Binary

def operator : Binary → Operator
  | .or => .or
  | .and => .and
  | .identical => .comparison ['=', '=', '='] .equal
  | .notIdentical => .comparison ['!', '=', '='] .notEqual
  | .equal => .comparison ['=', '='] .equal
  | .notEqual => .comparison ['!', '='] .notEqual
  | .greater => .comparison ['>'] .greater
  | .less => .comparison ['<'] .less
  | .atLeast => .comparison ['>', '='] .atLeast
  | .atMost => .comparison ['<', '='] .atMost

def symbol (o : Binary) : Text :=
  o.operator.symbol

-- How tightly an operator binds: equality and order bind more tightly than the logical operators.
def level : Binary → Nat
  | .or => 1
  | .and => 2
  | .identical | .notIdentical | .equal | .notEqual => 3
  | .greater | .less | .atLeast | .atMost => 4

theorem level_lt (o : Binary) : o.level < 5 := by
  cases o <;> decide

def row : Nat → List Binary
  | 1 => [.or]
  | 2 => [.and]
  | 3 => [.identical, .notIdentical, .equal, .notEqual]
  | 4 => [.atLeast, .atMost, .greater, .less]
  | _ => []

theorem rows_eq : Operator.rows = [1, 2, 3, 4].map fun n => (row n).map operator :=
  rfl

theorem level_of_mem {o : Binary} {n : Nat} (h : o ∈ row n) : o.level = n := by
  unfold row at h
  split at h
  all_goals
    simp only [List.mem_cons, List.not_mem_nil, or_false] at h
  all_goals
    rcases h with rfl | rfl | rfl | rfl <;> rfl

end Binary

section Allowed

variable {o : Binary} {level : Nat} {t : Text} {p : Place}

theorem head?_ne_of_isAllowed (h : isAllowed 1 t) : t.head? ≠ some '?' ∧ t.head? ≠ some ':' := by
  constructor
  all_goals
    intro ht
    obtain ⟨u, rfl⟩ := List.head?_eq_some_iff.mp ht
    simp [isAllowed, marks] at h

theorem head?_ne_plus (h : isAllowed level t) : t.head? ≠ some '+' := by
  intro ht
  obtain ⟨u, rfl⟩ := List.head?_eq_some_iff.mp ht
  have h := isAllowed_mono h (Nat.zero_le level)
  simp [isAllowed, marks] at h

theorem stripStart?_eq_none (h : isAllowed (o.level + 1) t) : t.stripStart? o.symbol = none := by
  rw [Option.eq_none_iff_forall_ne_some]
  intro rest hr
  rw [Text.stripStart?_eq_some_iff.mp hr] at h
  cases o <;> simp [isAllowed, marks, Binary.level, Binary.symbol, Binary.operator,
    Operator.symbol] at h

theorem operandsAt?_eq_none (h : isAllowed (o.level + 1) p.after) :
    operandsAt? p o.operator = none := by
  have hn : p.after.stripStart? o.operator.symbol = none := stripStart?_eq_none h
  simp [operandsAt?, hn]

theorem Level.summands?_eq_none (h : Level level t) : summands? t = none := by
  have hn : (places t).filter (·.after.head? = some '+') = [] := by
    rw [List.filter_eq_nil_iff]
    intro p hp
    simpa using head?_ne_plus (h.isAllowed_of_mem hp)
  rw [summands?, hn]

theorem Level.ternary?_eq_none (h : Level 1 t) : ternary? t = none := by
  have hn : (places t).dropWhile (fun p => !ternary?.isQuestion p) = [] := by
    rw [List.dropWhile_eq_nil_iff]
    intro p hp
    simp [ternary?.isQuestion, (head?_ne_of_isAllowed (h.isAllowed_of_mem hp)).left]
  rw [ternary?, hn]

theorem Level.binary?_eq_none (h : Level level t) {n : Nat} (hn : n < level) :
    binary? ((Binary.row n).map Binary.operator) t = none := by
  rw [binary?, List.findSome?_eq_none_iff]
  intro p hp
  rw [List.findSome?_eq_none_iff]
  intro operator ho
  obtain ⟨o, hrow, rfl⟩ := List.mem_map.mp ho
  have ha := isAllowed_mono (h.isAllowed_of_mem (List.mem_reverse.mp hp)) hn
  rw [← Binary.level_of_mem hrow] at ha
  rw [operandsAt?_eq_none ha, Option.map_none]

theorem Level.loosest?_eq_none (h : Level 5 t) : loosest? t = none := by
  rw [loosest?, Binary.rows_eq, List.findSome?_eq_none_iff]
  intro row hr
  obtain ⟨n, hn, rfl⟩ := List.mem_map.mp hr
  refine h.binary?_eq_none ?_
  simp at hn
  omega

end Allowed

def Binary.spaced (o : Binary) : Text :=
  ' ' :: (o.symbol ++ [' '])

theorem Binary.level_spaced (o : Binary) : Level o.level o.spaced := by
  cases o
  all_goals
    unfold Binary.spaced
    repeat refine .cons rfl (fun _ => rfl) ?_
    exact .nil

theorem Binary.isEven_spaced (o : Binary) : IsEven o.spaced := by
  cases o <;> exact .of_not_mem (by decide) (by decide)

section Found

variable {o : Binary} {l r : Text}

theorem operandsAt?_symbol (hl : l.all isBlank = false) (hr : r.all isBlank = false) :
    operandsAt? ⟨' ' :: l.reverse, o.symbol ++ ' ' :: r⟩ o.operator =
      some (l ++ [' '], ' ' :: r) := by
  have hstrip : Text.stripStart? (o.symbol ++ ' ' :: r) o.operator.symbol = some (' ' :: r) :=
    Text.stripStart?_append _ _
  have hl : (' ' :: l.reverse).all isBlank = false := by simpa [isBlank] using hl
  have hr : (' ' :: r).all isBlank = false := by simpa [isBlank] using hr
  simp only [operandsAt?, hstrip, Option.bind_eq_bind, Option.bind_some, hl, hr]
  rw [if_neg (by simp), List.reverse_cons, List.reverse_reverse]

-- All others of its row are shorter or longer than an operator, or different.
theorem operandsAt?_other {b : Binary} {before : Text} (hb : b.level = o.level) (hne : b ≠ o) :
    operandsAt? ⟨' ' :: before, o.symbol ++ ' ' :: r⟩ b.operator = none := by
  cases o <;> cases b
  all_goals first
    | exact absurd rfl hne
    | exact absurd hb (by decide)
    | rfl

theorem findSome?_row (hl : l.all isBlank = false) (hr : r.all isBlank = false) :
    ((Binary.row o.level).map Binary.operator).findSome? (fun operator =>
      (operandsAt? ⟨' ' :: l.reverse, o.symbol ++ ' ' :: r⟩ operator).map fun operands =>
        (operator, operands)) = some (o.operator, l ++ [' '], ' ' :: r) := by
  have hrow : o ∈ Binary.row o.level := by cases o <;> decide
  have hfound := @operandsAt?_symbol o l r hl hr
  cases hsome : ((Binary.row o.level).map Binary.operator).findSome? (fun operator =>
    (operandsAt? ⟨' ' :: l.reverse, o.symbol ++ ' ' :: r⟩ operator).map fun operands =>
      (operator, operands))
  case none =>
    have hn := List.findSome?_eq_none_iff.mp hsome o.operator (List.mem_map_of_mem hrow)
    simp [hfound] at hn
  case some found =>
    obtain ⟨operator, ho, hs⟩ := List.exists_of_findSome?_eq_some hsome
    obtain ⟨b, hb, rfl⟩ := List.mem_map.mp ho
    by_cases he : b = o
    case neg => simp [operandsAt?_other (Binary.level_of_mem hb) he] at hs
    case pos =>
      rw [he, hfound] at hs
      exact hs.symm

theorem operandsAt?_joined {p : Place} {operator : Operator}
    (h : p.before.head?.any fun c => c = '=' || c = '!' || c = '<' || c = '>') :
    operandsAt? p operator = none := by
  cases hs : p.after.stripStart? operator.symbol
  case none => simp [operandsAt?, hs]
  case some => simp [operandsAt?, hs, h]

theorem isAllowed_space (level : Nat) (t : Text) : isAllowed level (' ' :: t) := by
  simp [isAllowed, marks, List.isPrefixOf]

theorem operandsAt?_later {before tail : Text} {c : Char} {p : Place} (hs : o.symbol = c :: tail)
    (hp : p ∈ places.go 0 none (c :: before) (tail ++ ' ' :: r)) (hr : Level (o.level + 1) r)
    {b : Binary}
    (hb : b.level = o.level) : operandsAt? p b.operator = none := by
  have hafter {before : Text} (hp : p ∈ places.go 0 none before (' ' :: r)) :
      operandsAt? p b.operator = none := by
    rw [Level.go_top rfl] at hp
    apply operandsAt?_eq_none
    rw [hb]
    rcases List.mem_cons.mp hp with rfl | hp
    case inl => exact isAllowed_space _ r
    case inr => exact hr.isAllowed_of_mem hp
  cases o
  all_goals
    obtain ⟨rfl, rfl⟩ := List.cons.inj hs
    simp only [List.cons_append, List.nil_append] at hp
  case greater => exact hafter hp
  case less => exact hafter hp
  case or | and =>
    rw [Level.go_top rfl] at hp
    rcases List.mem_cons.mp hp with rfl | hp
    case inl => exact operandsAt?_eq_none (by rw [hb]; rfl)
    case inr => exact hafter hp
  case equal | notEqual | atLeast | atMost =>
    rw [Level.go_top rfl] at hp
    rcases List.mem_cons.mp hp with rfl | hp
    case inl => exact operandsAt?_joined rfl
    case inr => exact hafter hp
  case identical | notIdentical =>
    rw [Level.go_top rfl, Level.go_top rfl] at hp
    rcases List.mem_cons.mp hp with rfl | hp
    case inl => exact operandsAt?_joined rfl
    case inr =>
      rcases List.mem_cons.mp hp with rfl | hp
      case inl => exact operandsAt?_joined rfl
      case inr => exact hafter hp

-- The last operator of the row is the one between the operands.
theorem binary?_spaced (hl : Level o.level l) (hr : Level (o.level + 1) r)
    (hbl : l.all isBlank = false)
    (hbr : r.all isBlank = false) :
    binary? ((Binary.row o.level).map Binary.operator) (l ++ (o.spaced ++ r)) =
      some (o.operator, l ++ [' '], ' ' :: r) := by
  have ⟨c, tail, hs⟩ : ∃ c tail, o.symbol = c :: tail := by cases o <;> exact ⟨_, _, rfl⟩
  have hbare : isBare c := by
    cases o
    all_goals
      obtain ⟨rfl, rfl⟩ := List.cons.inj hs
      rfl
  have ⟨ps, hps, _⟩ := hl.go_append [] (o.spaced ++ r)
  have hplaces : places (l ++ (o.spaced ++ r)) = (ps ++ [⟨l.reverse, o.spaced ++ r⟩]) ++
      ⟨' ' :: l.reverse, o.symbol ++ ' ' :: r⟩ ::
        places.go 0 none (c :: ' ' :: l.reverse) (tail ++ ' ' :: r) := by
    have hspaced : o.spaced ++ r = ' ' :: (o.symbol ++ ' ' :: r) := by simp [Binary.spaced]
    rw [places, hps, hspaced, Level.go_top rfl, hs, List.cons_append, Level.go_top hbare]
    simp
  have hlater : (places.go 0 none (c :: ' ' :: l.reverse) (tail ++ ' ' :: r)).reverse.findSome?
      (fun p =>
      ((Binary.row o.level).map Binary.operator).findSome? fun operator =>
        (operandsAt? p operator).map fun operands => (operator, operands)) = none := by
    rw [List.findSome?_eq_none_iff]
    intro p hp
    rw [List.findSome?_eq_none_iff]
    intro operator ho
    obtain ⟨b, hb, rfl⟩ := List.mem_map.mp ho
    rw [operandsAt?_later hs (List.mem_reverse.mp hp) hr (Binary.level_of_mem hb), Option.map_none]
  rw [binary?, hplaces, List.reverse_append, List.reverse_cons, List.append_assoc,
    List.findSome?_append, hlater, Option.none_or, List.singleton_append, List.findSome?_cons,
    findSome?_row hbl hbr]

theorem Binary.level_append (hl : Level o.level l) (hr : Level (o.level + 1) r) :
    Level o.level (l ++ (o.spaced ++ r)) :=
  hl.append (o.level_spaced.append (hr.mono (Nat.le_succ _)))

theorem loosest?_spaced (hl : Level o.level l) (hr : Level (o.level + 1) r)
    (hbl : l.all isBlank = false)
    (hbr : r.all isBlank = false) :
    loosest? (l ++ (o.spaced ++ r)) = some (o.operator, l ++ [' '], ' ' :: r) := by
  have hsplit : [1, 2, 3, 4] =
      List.range' 1 (o.level - 1) ++ o.level :: List.range' (o.level + 1) (4 - o.level) := by
    cases o <;> rfl
  have hlooser : (List.range' 1 (o.level - 1)).findSome? (fun n =>
      binary? ((Binary.row n).map Binary.operator) (l ++ (o.spaced ++ r))) = none := by
    rw [List.findSome?_eq_none_iff]
    intro n hn
    rw [List.mem_range'_1] at hn
    exact (Binary.level_append hl hr).binary?_eq_none (by omega)
  rw [loosest?, Binary.rows_eq, List.findSome?_map, hsplit, List.findSome?_append]
  simp only [Function.comp_def, hlooser, Option.none_or, List.findSome?_cons,
    binary?_spaced hl hr hbl hbr]

end Found

section Choice

variable {c y n : Text}

theorem take_between (y before : Text) :
    ((' ' :: (y.reverse ++ ' ' :: '?' :: before)).take
      ((' ' :: (y.reverse ++ ' ' :: '?' :: before)).length - before.length - 1)).reverse =
      ' ' :: (y ++ [' ']) := by
  have hwhole : ' ' :: (y.reverse ++ ' ' :: '?' :: before) =
      (' ' :: (y.reverse ++ [' '])) ++ '?' :: before := by simp
  have hlength : ((' ' :: (y.reverse ++ [' '])) ++ '?' :: before).length - before.length - 1 =
      (' ' :: (y.reverse ++ [' '])).length := by
    simp only [List.length_append, List.length_cons]
    omega
  rw [hwhole, hlength, List.take_left]
  simp

theorem ternary?_eq (hc : Level 1 c) (hy : Level 1 y) :
    ternary? (c ++ ' ' :: '?' :: ' ' :: (y ++ ' ' :: ':' :: ' ' :: n)) =
      some (c ++ [' '], ' ' :: (y ++ [' ']), ' ' :: n) := by
  have ⟨ps, hps, ha⟩ := hc.go_append [] (' ' :: '?' :: ' ' :: (y ++ ' ' :: ':' :: ' ' :: n))
  have ⟨qs, hqs, ha'⟩ :=
    hy.go_append (' ' :: '?' :: ' ' :: (c.reverse ++ [])) (' ' :: ':' :: ' ' :: n)
  rw [Level.go_top rfl, Level.go_top rfl, Level.go_top rfl, hqs, Level.go_top rfl, Level.go_top rfl,
    List.append_nil] at hps
  have hdrop : ∀ p ∈ ps, (!ternary?.isQuestion p) = true := fun p hp => by
    simp [ternary?.isQuestion, (head?_ne_of_isAllowed (ha p hp)).left]
  have hfind : qs.find? (·.after.head? = some ':') = none := by
    rw [List.find?_eq_none]
    intro p hp
    simpa using (head?_ne_of_isAllowed (ha' p hp)).right
  rw [ternary?, places, hps, List.dropWhile_append_of_pos hdrop, List.dropWhile_cons_of_pos rfl,
    List.dropWhile_cons_of_neg (by simp [ternary?.isQuestion])]
  simp only [List.find?_cons_of_neg, List.find?_append, hfind, Option.none_or, List.head?_cons,
    Option.some.injEq, Char.reduceEq, decide_false, Bool.false_eq_true, not_false_eq_true,
    List.find?_cons_of_pos, decide_true, Option.map_some, take_between, List.tail_cons]
  simp

end Choice
end Componentry.Static
