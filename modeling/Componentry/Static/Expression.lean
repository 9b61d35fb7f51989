import Componentry.Static.Place
import Componentry.Text.Blank
import Componentry.Text.Digit
import Componentry.Text.Letter

/-!
The forms of expressions whose value can be known: each function takes a text apart in one way, if
the text has that form. An expression is cut where its text has an operator at the top level. As for
places, 32 bits hold every depth of parentheses in texts of fewer than `2 ^ 31` characters.
-/
namespace Componentry.Static

inductive Comparison
  | equal
  | notEqual
  | atLeast
  | atMost
  | greater
  | less
  deriving DecidableEq, Repr

inductive Operator
  | or
  | and
  | comparison (symbol : Text) (kind : Comparison)
  deriving DecidableEq, Repr

namespace Operator

def symbol : Operator → Text
  | .or => ['|', '|']
  | .and => ['&', '&']
  | .comparison symbol _ => symbol

-- The operators by precedence, the loosest first. Of two that match at one place the first in its
-- row counts.
def rows : List (List Operator) :=
  [ [.or],
    [.and],
    [ .comparison ['=', '=', '='] .equal, .comparison ['!', '=', '='] .notEqual,
      .comparison ['=', '='] .equal, .comparison ['!', '='] .notEqual ],
    [ .comparison ['>', '='] .atLeast, .comparison ['<', '='] .atMost,
      .comparison ['>'] .greater, .comparison ['<'] .less ] ]

end Operator

def statement (t : Text) : Text :=
  (t.trimStart.reverse.dropWhile fun c => isBlank c || c = ';').reverse

def isBalanced (depth : Nat) : Text → Bool
  | [] => depth = 0
  | c :: t =>
    if c = '(' then isBalanced (depth + 1) t
    else if c = ')' then depth ≠ 0 && isBalanced (depth - 1) t
    else isBalanced depth t

def parenthesized? : Text → Option Text
  | '(' :: t =>
    if t.getLast? = some ')' && isBalanced 0 t.dropLast then some t.dropLast else none
  | _ => none

-- The parts of `condition ? yes : no`. The question mark is not part of `??` or `?.`.
def ternary? (t : Text) : Option (Text × Text × Text) :=
  match (places t).dropWhile fun p => !isQuestion p with
  | [] => none
  | question :: later =>
    (later.find? (·.after.head? = some ':')).map fun colon =>
      (question.before.reverse,
        (colon.before.take (colon.before.length - question.before.length - 1)).reverse,
        colon.after.tail)
where
  isQuestion (p : Place) : Bool :=
    p.after.head? = some '?' && p.before.head? ≠ some '?' &&
      p.after.tail.head? ≠ some '?' && p.after.tail.head? ≠ some '.'

-- The operands of an operator that stands at a place between two operands. It must not be part of a
-- longer operator.
def operandsAt? (p : Place) (operator : Operator) : Option (Text × Text) := do
  let right ← p.after.stripStart? operator.symbol
  if p.before = [] || p.before.head?.any (fun c => c = '=' || c = '!' || c = '<' || c = '>') ||
      right.head? = some '=' ||
      ((operator.symbol = ['>'] || operator.symbol = ['<']) && right.head? = some '>') ||
      p.before.all isBlank || right.all isBlank then none
  else some (p.before.reverse, right)

-- The operands of the last operator of a row, so that operators of one row associate to the left.
def binary? (row : List Operator) (t : Text) : Option (Operator × Text × Text) :=
  (places t).reverse.findSome? fun p =>
    row.findSome? fun operator => (operandsAt? p operator).map fun operands => (operator, operands)

def loosest? (t : Text) : Option (Operator × Text × Text) :=
  Operator.rows.findSome? fun row => binary? row t

-- The text from a position on, cut at each place, where one character is left out.
def cutAt (t : Text) (start : Nat) : List Place → List Text
  | [] => [t.drop start]
  | p :: more =>
    (p.before.take (p.before.length - start)).reverse :: cutAt t (p.before.length + 1) more

def summands? (t : Text) : Option (List Text) :=
  match (places t).filter (·.after.head? = some '+') with
  | [] => none
  | p :: more => some (cutAt t 0 (p :: more))

def unescape : Text → Text
  | [] => []
  | '\\' :: c :: t =>
    if c = 'n' then '\n' :: unescape t
    else if c = 'r' then '\r' :: unescape t
    else if c = 't' then '\t' :: unescape t
    else if c = '\\' || c = '"' || c = '\'' || c = '`' then c :: unescape t
    else '\\' :: c :: unescape t
  | c :: t => c :: unescape t

def hasSubstitution : Text → Bool
  | [] => false
  | c :: t => (c = '$' && t.head? = some '{') || hasSubstitution t

-- The content of a text between two equal quotes. A template must have no substitution.
def string? (t : Text) : Option Text :=
  match t.trim with
  | c :: rest =>
    if isQuote c && rest.getLast? = some c && !(c = '`' && hasSubstitution rest.dropLast) then
      some (unescape rest.dropLast)
    else none
  | [] => none

def isName : Text → Bool
  | [] => false
  | c :: t =>
    (isLetter c || c = '_' || c = '$') &&
      t.all fun d => isLetter d || isNumeric d || d = '_' || d = '$'

theorem length_statement_le (t : Text) : (statement t).length ≤ t.length := by
  have h := (List.dropWhile_sublist (l := t.trimStart.reverse)
    (fun c => isBlank c || decide (c = ';'))).length_le
  have := t.length_trimStart_le
  simp only [List.length_reverse] at h
  simp only [statement, List.length_reverse]
  omega

theorem length_parenthesized?_lt {t inner : Text} (h : parenthesized? t = some inner) :
    inner.length < t.length := by
  unfold parenthesized? at h
  split at h
  · split at h
    · simp only [Option.some.injEq] at h
      subst h
      simp only [List.length_dropLast, List.length_cons]
      omega
    · simp at h
  · simp at h

theorem length_ternary?_lt {t condition yes no : Text}
    (h : ternary? t = some (condition, yes, no)) :
    condition.length < t.length ∧ yes.length < t.length ∧ no.length < t.length := by
  unfold ternary? at h
  split at h
  · simp at h
  · rename_i question later heq
    have hsub : ∀ p ∈ question :: later, p ∈ places t := fun p hp =>
      (List.dropWhile_sublist _).subset (heq ▸ hp)
    obtain ⟨colon, hc, he⟩ := Option.map_eq_some_iff.1 h
    have hm := hsub colon (List.mem_cons_of_mem _ (List.mem_of_find?_eq_some hc))
    have hq := hsub question List.mem_cons_self
    simp only [Prod.mk.injEq] at he
    obtain ⟨rfl, rfl, rfl⟩ := he
    have h1 := length_before_lt hq
    have h2 := length_before_lt hm
    have h3 := length_tail_after_lt hm
    simp only [List.length_reverse, List.length_take]
    omega

theorem length_loosest?_lt {t left right : Text} {operator : Operator}
    (h : loosest? t = some (operator, left, right)) :
    left.length < t.length ∧ right.length < t.length := by
  obtain ⟨row, hr, hb⟩ := List.exists_of_findSome?_eq_some h
  obtain ⟨p, hp, hf⟩ := List.exists_of_findSome?_eq_some hb
  obtain ⟨o, ho, hs⟩ := List.exists_of_findSome?_eq_some hf
  obtain ⟨⟨l, r⟩, ha, he⟩ := Option.map_eq_some_iff.1 hs
  simp only [Prod.mk.injEq] at he
  obtain ⟨rfl, rfl, rfl⟩ := he
  have hp : p ∈ places t := by simpa using hp
  simp only [operandsAt?, Option.bind_eq_bind, Option.bind_eq_some_iff] at ha
  obtain ⟨u, hu, ha⟩ := ha
  split at ha
  · simp at ha
  · rename_i hn
    simp only [Option.some.injEq, Prod.mk.injEq] at ha
    obtain ⟨rfl, rfl⟩ := ha
    have h1 := congrArg List.length (before_append_after hp)
    have h2 := congrArg List.length (Text.stripStart?_eq_some_iff.1 hu)
    have h3 := length_before_lt hp
    have h4 : p.before ≠ [] := by
      intro h0
      simp [h0] at hn
    have h5 := List.length_pos_iff.2 h4
    simp only [List.length_append, List.length_reverse] at h1 h2 ⊢
    omega

theorem length_cutAt_lt {t o : Text} {start : Nat} {ps : List Place} (hs : 0 < start ∨ ps ≠ [])
    (ht : t ≠ []) (hp : ∀ p ∈ ps, p ∈ places t) (ho : o ∈ cutAt t start ps) :
    o.length < t.length := by
  induction ps generalizing start with
  | nil =>
    have := List.length_pos_iff.2 ht
    simp only [cutAt, List.mem_singleton] at ho
    subst ho
    simp only [List.length_drop]
    simp at hs
    omega
  | cons p ps ih =>
    simp only [cutAt, List.mem_cons] at ho
    rcases ho with rfl | ho
    · have := length_before_lt (hp p List.mem_cons_self)
      simp only [List.length_reverse, List.length_take]
      omega
    · exact ih (.inl (Nat.succ_pos _)) (fun q hq => hp q (List.mem_cons_of_mem _ hq)) ho

theorem length_summands?_lt {t o : Text} {os : List Text} (h : summands? t = some os)
    (ho : o ∈ os) : o.length < t.length := by
  unfold summands? at h
  split at h
  · simp at h
  · rename_i p more heq
    simp only [Option.some.injEq] at h
    subst h
    have hsub : ∀ q ∈ p :: more, q ∈ places t := fun q hq =>
      (List.mem_filter.1 (heq ▸ hq)).1
    refine length_cutAt_lt (.inr (by simp)) ?_ hsub ho
    rintro rfl
    simpa [places, places.go] using hsub p List.mem_cons_self

end Componentry.Static
