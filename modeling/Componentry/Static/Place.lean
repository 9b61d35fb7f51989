import Componentry.Code.Context

/-!
Places at the top level of an expression: outside its strings and brackets. Brackets are counted
without regard to their kind, and a closer too many leads below the top level. A depth is at most
the length of the text, so that for texts of fewer than `2 ^ 31` characters 32 bits hold it.
-/
namespace Componentry.Static

open Code

structure Place where
  before : Text
  after : Text
  deriving DecidableEq, Repr

def isQuote (c : Char) : Bool :=
  c = '"' || c = '\'' || c = '`'

def places (t : Text) : List Place :=
  go 0 none [] t
where
  -- `depth` counts open brackets, `quote` ends the string that is open.
  go (depth : Int) (quote : Option Char) (before : Text) : Text → List Place
    | [] => []
    | c :: t =>
      match quote with
      | some q =>
        if c = '\\' then
          match t with
          | [] => []
          | d :: t => go depth quote (d :: c :: before) t
        else go depth (if c = q then none else quote) (c :: before) t
      | none =>
        if isOpener c then go (depth + 1) none (c :: before) t
        else if isCloser c then go (depth - 1) none (c :: before) t
        else if isQuote c then go depth (some c) (c :: before) t
        else if depth = 0 then ⟨before, c :: t⟩ :: go depth none (c :: before) t
        else go depth none (c :: before) t

theorem places.go_spec {depth : Int} {quote : Option Char} {before t : Text} {p : Place}
    (h : p ∈ places.go depth quote before t) :
    p.after ≠ [] ∧ p.before.reverse ++ p.after = before.reverse ++ t := by
  fun_induction places.go depth quote before t
  case case1 | case2 => cases h
  case case3 ih | case4 ih | case5 ih | case6 ih | case7 ih | case9 ih => simpa using ih h
  case case8 ih =>
    rcases List.mem_cons.mp h with rfl | h
    case inl => simp
    case inr => simpa using ih h

theorem after_ne_nil {t : Text} {p : Place} (h : p ∈ places t) : p.after ≠ [] :=
  (places.go_spec h).1

theorem before_append_after {t : Text} {p : Place} (h : p ∈ places t) :
    p.before.reverse ++ p.after = t := by
  simpa using (places.go_spec h).2

theorem length_before_lt {t : Text} {p : Place} (h : p ∈ places t) :
    p.before.length < t.length := by
  have hl := congrArg List.length (before_append_after h)
  have hn := List.length_pos_iff.2 (after_ne_nil h)
  simp only [List.length_append, List.length_reverse] at hl
  omega

theorem length_tail_after_lt {t : Text} {p : Place} (h : p ∈ places t) :
    p.after.tail.length < t.length := by
  have hl := congrArg List.length (before_append_after h)
  have hn := List.length_pos_iff.2 (after_ne_nil h)
  simp only [List.length_append, List.length_reverse, List.length_tail] at hl ⊢
  omega

end Componentry.Static
