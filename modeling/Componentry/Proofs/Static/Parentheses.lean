import Componentry.Proofs.Code.Nesting
import Componentry.Proofs.Static.Firmness

/-!
Parentheses around a whole expression. They are taken off where the parentheses between them are
even, those in strings counted as well; else the text keeps them and has no value. An expression is
read without regard to comments, to the ends of lines and to substitutions, so that its top level
can be another one than that of the code. Main statement: where the two readings agree, parentheses
around an expression change its value if and only if it has one and its parentheses are not even.
-/
namespace Componentry.Static

open Code

-- In every start of a text there are no more closing parentheses than opening ones, and as many in
-- the whole.
structure IsPaired (t : Text) : Prop where
  le : ∀ s, s <+: t → s.count ')' ≤ s.count '('
  eq : t.count ')' = t.count '('

theorem isBalanced_iff {t : Text} {depth : Nat} : isBalanced depth t ↔
    (∀ s, s <+: t → s.count ')' ≤ depth + s.count '(') ∧ t.count ')' = depth + t.count '(' := by
  induction t generalizing depth
  case nil => simp [isBalanced, eq_comm]
  case cons c t ih =>
    have hcons (P : Text → Prop) : (∀ s, s <+: c :: t → P s) ↔
        P [] ∧ ∀ s, s <+: t → P (c :: s) := by
      simp only [List.prefix_cons_iff]
      grind
    rw [hcons, isBalanced]
    by_cases hopen : c = '('
    case pos =>
      rw [if_pos hopen, ih, hopen]
      simp [Nat.add_right_comm, Nat.add_assoc]
    rw [if_neg hopen]
    by_cases hclose : c = ')'
    case neg =>
      rw [if_neg hclose, ih]
      simp [hopen, hclose]
    case pos =>
      rw [if_pos hclose, hclose]
      cases depth
      case zero =>
        refine iff_of_false (by simp) fun h => ?_
        simpa using h.left.right [] List.nil_prefix
      case succ depth =>
        simp [ih, Nat.add_right_comm]

theorem isBalanced_zero_iff {t : Text} : isBalanced 0 t ↔ IsPaired t := by
  rw [isBalanced_iff]
  simp only [Nat.zero_add]
  exact ⟨fun h => ⟨h.left, h.right⟩, fun h => ⟨h.le, h.eq⟩⟩

instance (t : Text) : Decidable (IsPaired t) :=
  decidable_of_iff _ isBalanced_zero_iff

-- A character that means the same in code and in an expression: it opens no comment and no
-- substitution, and no string ends with it as the end of its line.
def isShared : List Context → Char → Bool
  | .slash :: _, c => c ≠ '/' && c ≠ '*'
  | .quoted _ :: _, c => c ≠ '\n'
  | .dollar :: _, c => c ≠ '{'
  | _, _ => true

def isReadAlike (within : List Context) : Text → Bool
  | [] => true
  | c :: t => isShared within c && isReadAlike (Context.after within c) t

-- The contexts of a place in code, and what an expression knows of it: the brackets that are open,
-- and the quote that ends the string. Once all brackets are closed, nothing else is open.
inductive Alike : Nat → List Context → Option Char → Prop
  | closed : Alike 0 [] none
  | code {depth : Nat} : Alike (depth + 1) (List.replicate (depth + 1) .group) none
  | slash {depth : Nat} : Alike (depth + 1) (.slash :: List.replicate (depth + 1) .group) none
  | quoted {depth : Nat} {quote : Char} (hq : quote = '"' ∨ quote = '\'') :
    Alike (depth + 1) (.quoted quote :: List.replicate (depth + 1) .group) (some quote)
  | template {depth : Nat} : Alike (depth + 1) (.template :: List.replicate (depth + 1) .group)
      (some '\x60')
  | dollar {depth : Nat} : Alike (depth + 1) (.dollar :: List.replicate (depth + 1) .group)
      (some '\x60')

namespace Alike

variable {depth : Nat} {within : List Context} {quote : Char} {c : Char}

theorem exists_succ {quote : Option Char} (h : Alike depth within quote) (hn : within ≠ []) :
    ∃ d, depth = d + 1 := by
  cases h
  case closed => exact absurd rfl hn
  all_goals exact ⟨_, rfl⟩

theorem of_replicate : Alike depth (List.replicate depth .group) none := by
  cases depth
  case zero => exact closed
  case succ => exact code

theorem after_eq_afterCode (h : Alike (depth + 1) within none) (hc : isShared within c) :
    Context.after within c = Context.afterCode (List.replicate (depth + 1) .group) c := by
  cases h
  case code => rfl
  case slash =>
    simp only [isShared, Bool.and_eq_true, decide_eq_true_eq] at hc
    rw [Context.after, if_neg hc.left, if_neg hc.right]

theorem after_opener (h : Alike (depth + 1) within none) (hc : isShared within c)
    (ho : isOpener c) :
    Alike (depth + 2) (Context.after within c) none := by
  have hgroup : Context.after within c = List.replicate (depth + 2) .group := by
    simp only [isOpener, Bool.or_eq_true, decide_eq_true_eq] at ho
    rw [h.after_eq_afterCode hc]
    rcases ho with (rfl | rfl) | rfl <;> rfl
  exact hgroup ▸ code

theorem after_closer (h : Alike (depth + 1) within none) (hc : isShared within c)
    (ho : isCloser c) :
    Alike depth (Context.after within c) none := by
  have hgroup : Context.after within c = List.replicate depth .group := by
    simp only [isCloser, Bool.or_eq_true, decide_eq_true_eq] at ho
    rw [h.after_eq_afterCode hc]
    rcases ho with (rfl | rfl) | rfl <;> rfl
  exact hgroup ▸ of_replicate

theorem after_quote (h : Alike (depth + 1) within none) (hc : isShared within c) (hq : isQuote c) :
    Alike (depth + 1) (Context.after within c) (some c) := by
  simp only [isQuote, Bool.or_eq_true, decide_eq_true_eq] at hq
  rw [h.after_eq_afterCode hc]
  rcases hq with (rfl | rfl) | rfl
  · exact quoted (.inl rfl)
  · exact quoted (.inr rfl)
  · exact template

theorem after_other (h : Alike (depth + 1) within none) (hc : isShared within c)
    (ho : isOpener c = false) (hd : isCloser c = false) (hq : isQuote c = false) :
    Alike (depth + 1) (Context.after within c) none := by
  simp only [isQuote, Bool.or_eq_false_iff, decide_eq_false_iff_not] at hq
  rw [h.after_eq_afterCode hc, Context.afterCode]
  by_cases hs : c = '/'
  case pos =>
    rw [if_pos hs]
    exact slash
  case neg =>
    simp only [hs, hq, ho, hd]
    exact code

theorem after_escaped (h : Alike depth within (some quote)) (d : Char) :
    Alike depth (Context.after (Context.after within '\\') d) (some quote) := by
  cases h
  case quoted hq => exact quoted hq
  case template => exact template
  case dollar => exact template

theorem after_content (h : Alike depth within (some quote)) (hc : isShared within c)
    (hb : c ≠ '\\') :
    Alike depth (Context.after within c) (if c = quote then none else some quote) := by
  have htemplate {depth : Nat} : Alike (depth + 1)
      (Context.afterTemplate (List.replicate (depth + 1) .group) c)
      (if c = '\x60' then none else some '\x60') := by
    rw [Context.afterTemplate, if_neg hb]
    split
    · exact code
    split
    · exact dollar
    · exact template
  cases h
  case quoted hq =>
    have hline : c ≠ '\n' := by simpa [isShared] using hc
    rw [Context.after, if_neg hb]
    by_cases he : c = quote
    case pos =>
      rw [if_pos (by simp [he]), if_pos he]
      exact code
    case neg =>
      rw [if_neg (by simp [he, hline]), if_neg he]
      exact quoted hq
  case template => exact htemplate
  case dollar =>
    have hbrace : c ≠ '{' := by simpa [isShared] using hc
    rw [Context.after, if_neg hbrace]
    exact htemplate

end Alike

theorem leave_after_eq {within : List Context} {c : Char} {t : Text}
    (h : leave within (c :: t) = some (c :: t, [])) :
    within ≠ [] ∧ leave (Context.after within c) t = some (t, []) := by
  cases within
  case nil => simp [leave] at h
  case cons ctx outer => simpa [leave] using h

-- Up to the closer of the outermost group no place is at the top level.
theorem go_eq_nil {depth : Nat} {quote : Option Char} {within : List Context} {before t : Text}
    (ha : Alike depth within quote) (hl : leave within t = some (t, []))
    (hr : isReadAlike within t) :
    places.go depth quote before t = [] := by
  generalize hd : (depth : Int) = d
  fun_induction places.go d quote before t generalizing depth within
  case case1 => rfl
  case case2 => rfl
  case case3 before q d t ih =>
    obtain ⟨_, hescape⟩ := leave_after_eq hl
    obtain ⟨_, hnext⟩ := leave_after_eq hescape
    simp only [isReadAlike, Bool.and_eq_true] at hr
    exact ih (ha.after_escaped d) hnext hr.right.right hd
  case case4 before c t q hb ih =>
    obtain ⟨_, hnext⟩ := leave_after_eq hl
    simp only [isReadAlike, Bool.and_eq_true] at hr
    exact ih (ha.after_content hr.left hb) hnext hr.right hd
  -- Outside strings a bracket is open before each character, as the contexts are left with the last
  -- one only.
  all_goals
    obtain ⟨hn, hnext⟩ := leave_after_eq hl
    obtain ⟨depth, rfl⟩ := ha.exists_succ hn
    simp only [isReadAlike, Bool.and_eq_true] at hr
  case case5 ho ih => exact ih (ha.after_opener hr.left ho) hnext hr.right (by omega)
  case case6 hc ih => exact ih (ha.after_closer hr.left hc) hnext hr.right (by omega)
  case case7 hq ih => exact ih (ha.after_quote hr.left hq) hnext hr.right hd
  case case8 => omega
  case case9 ho hc hq _ ih =>
    rw [Bool.not_eq_true] at ho hc hq
    exact ih (ha.after_other hr.left ho hc hq) hnext hr.right hd

theorem isReadAlike_concat {within : List Context} {t : Text} (h : isReadAlike within t) :
    isReadAlike within (t ++ [')']) := by
  induction t generalizing within
  case nil =>
    have hshared : isShared within ')' := by
      unfold isShared
      split <;> rfl
    simp [isReadAlike, hshared]
  case cons c t ih =>
    simp only [isReadAlike, Bool.and_eq_true, List.cons_append] at h ⊢
    exact ⟨h.left, ih h.right⟩

def parenthesized (e : Text) : Text :=
  '(' :: (e ++ [')'])

section Parenthesized

variable {scope : Scope} {e : Text}

theorem places_parenthesized (h : Delimited e) (hr : isReadAlike [.group] e) :
    places (parenthesized e) = [] := by
  have hopen := go_opener (c := '(') rfl 0 [] (e ++ [')'])
  rw [places]
  exact hopen.trans (go_eq_nil .code (delimited_iff_leave.mp h) (isReadAlike_concat hr))

theorem statement_parenthesized (e : Text) : statement (parenthesized e) = parenthesized e := by
  have hl : isBlank '(' = false := rfl
  have hr : isBlank ')' = false := rfl
  simp [parenthesized, statement, Text.trimStart, hl, hr]

theorem parenthesized?_parenthesized (e : Text) :
    parenthesized? (parenthesized e) = if isBalanced 0 e then some e else none := by
  simp [parenthesized, parenthesized?]

theorem eval_parenthesized_of_isPaired (h : IsPaired e) :
    eval scope (parenthesized e) = eval scope e := by
  apply eval_parenthesized (statement_parenthesized e)
  exact (parenthesized?_parenthesized e).trans (if_pos (isBalanced_zero_iff.mpr h))

theorem eval_parenthesized_of_not_isPaired (h : ¬IsPaired e) : eval scope (parenthesized e) =
    (chosen? scope (ternary? (parenthesized e))).or (operation? scope (parenthesized e)) := by
  apply eval_eq_operation? (statement_parenthesized e) (List.cons_ne_nil _ _)
  rw [parenthesized?_parenthesized, if_neg (mt isBalanced_zero_iff.mp h)]

theorem leaf_parenthesized (e : Text) : leaf scope (parenthesized e) = none := by
  have hl : isBlank '(' = false := rfl
  have hr : isBlank ')' = false := rfl
  have hstring : string? (parenthesized e) = none := by
    simp [parenthesized, string?, Text.trim, Text.trimStart, Text.trimEnd, hl, hr, isQuote]
  exact (leaf_eq_string? (c := '(') List.mem_cons_self rfl (by decide) rfl).trans hstring

theorem eval_parenthesized_eq_none (hp : ¬IsPaired e) (h : places (parenthesized e) = []) :
    eval scope (parenthesized e) = none := by
  have hternary : ternary? (parenthesized e) = none := by simp [ternary?, h]
  have hloosest : loosest? (parenthesized e) = none := by simp [loosest?_eq, loosestAt?, h]
  have hsummands : summands? (parenthesized e) = none := by simp [summands?, h]
  have hstart : start? scope (parenthesized e) = none := leaf_parenthesized e
  rw [eval_parenthesized_of_not_isPaired hp, operation?, hternary, hloosest, hsummands, hstart]
  rfl

end Parenthesized

-- Parentheses around an expression that code delimits change nothing if those between them are
-- even. Else the text is read together with them, and has no value where it is read as code is.
theorem eval_parenthesized_eq_iff {e : Text} (h : Delimited e) (scope : Scope) :
    (IsPaired e → eval scope (parenthesized e) = eval scope e) ∧
      (¬IsPaired e → eval scope (parenthesized e) =
        (chosen? scope (ternary? (parenthesized e))).or (operation? scope (parenthesized e))) ∧
      (isReadAlike [.group] e →
        (eval scope (parenthesized e) = eval scope e ↔ IsPaired e ∨ eval scope e = none)) := by
  refine ⟨eval_parenthesized_of_isPaired, eval_parenthesized_of_not_isPaired, fun hr => ?_⟩
  by_cases hp : IsPaired e
  case pos => exact iff_of_true (eval_parenthesized_of_isPaired hp) (.inl hp)
  case neg =>
    rw [eval_parenthesized_eq_none hp (places_parenthesized h hr), or_iff_right hp]
    exact eq_comm

-- A comment hides a parenthesis from code only, and the top level of the expression is in the
-- comment.
example :
    Delimited "'x' || // ) ? 'b' : (c\n".toList ∧ eval [] "'x' || // ) ? 'b' : (c\n".toList =
      some ['x'] ∧
      eval [] (parenthesized "'x' || // ) ? 'b' : (c\n".toList) = some ['b'] := by
  decide +kernel

-- The strings of `"(" + x + ")"` have an even number of parentheses between them, those of `x +
-- ")"` have not.
theorem eval_parenthesized_sums :
    eval [(['x'], ['1'])] (parenthesized "\"(\" + x + \")\"".toList) =
        eval [(['x'], ['1'])] "\"(\" + x + \")\"".toList ∧
      eval [(['x'], ['1'])] (parenthesized "x + \")\"".toList) ≠
        eval [(['x'], ['1'])] "x + \")\"".toList := by
  have hdelimited : Delimited "x + \")\"".toList := by decide +kernel
  have hvalue : eval [(['x'], ['1'])] "x + \")\"".toList ≠ none := by decide +kernel
  have hpaired : ¬IsPaired "x + \")\"".toList := by decide +kernel
  refine ⟨(eval_parenthesized_eq_iff (by decide +kernel) _).left (by decide +kernel), fun he => ?_⟩
  have heq := ((eval_parenthesized_eq_iff hdelimited _).right.right (by decide +kernel)).mp he
  exact heq.elim hpaired hvalue

theorem eval_parenthesized_string :
    Delimited "\")\"".toList ∧ eval [] "\")\"".toList = some [')'] ∧
      eval [] (parenthesized "\")\"".toList) = none := by
  decide +kernel

end Componentry.Static
