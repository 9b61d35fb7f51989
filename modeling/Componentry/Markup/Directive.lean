import Componentry.Code.Span

/-!
Directives of markup: where an `@if` starts, which names may follow an `@`, and where a brace group
of markup ends. In markup only braces count, because text such as `Don't` opens no string; the
conditions of directives are code.
-/
namespace Componentry.Markup

open Code

def reserved : List Text :=
  ["break", "case", "catch", "class", "const", "continue", "debugger", "default", "delete", "do",
    "else", "enum", "export", "extends", "false", "finally", "for", "function",
    "if", "import", "in", "instanceof", "new", "null", "return", "super", "switch", "this",
    "throw", "true", "try", "typeof", "var", "void", "while", "with", "yield", "let", "static",
    "await"].map String.toList

def isReserved (identifier : Text) : Bool :=
  reserved.contains identifier

def condition? : Text → Option Text
  | '@' :: 'i' :: 'f' :: t =>
    if Identifier.continues t then none
    else
      match Text.skipSpace t with
      | '(' :: rest => some ('(' :: rest)
      | _ => none
  | _ => none

theorem length_condition?_lt {t rest : Text} (h : condition? t = some rest) :
    rest.length < t.length := by
  unfold condition? at h
  split at h
  · rename_i t
    have hle := Text.length_skipSpace_le t
    split at h
    · simp at h
    · split at h
      · rename_i hs
        rw [hs] at hle
        simp only [Option.some.injEq] at h
        subst h
        simp only [List.length_cons] at hle ⊢
        omega
      · simp at h
  · simp at h

def else? (t : Text) : Option Text := do
  let rest ← t.skipSpace.stripStart? "@else".toList
  if Identifier.continues rest then none else some rest

theorem length_else?_lt {t rest : Text} (h : else? t = some rest) : rest.length < t.length := by
  simp only [else?, Option.bind_eq_bind, Option.bind_eq_some_iff] at h
  obtain ⟨u, hu, h⟩ := h
  have hle := Text.length_skipSpace_le t
  have heq := congrArg List.length (Text.stripStart?_eq_some_iff.1 hu)
  have h5 : "@else".toList.length = 5 := rfl
  simp only [List.length_append, h5] at heq
  split at h
  · simp at h
  · simp only [Option.some.injEq] at h
    subst h
    omega

-- The text from the first `}` that closes the group in which the text starts and that is accepted,
-- `depth` being the number of groups opened since. A closer that is not accepted is text.
def close? (accept : Text → Bool) (depth : Nat) (t : Text) : Option Text :=
  match t with
  | [] => none
  | c :: rest =>
    match _ : condition? (c :: rest) with
    | some paren =>
      match _ : group? paren with
      | some (_, after) => close? accept depth after
      | none => none
    | none =>
      if c = '{' then close? accept (depth + 1) rest
      else if c = '}' then
        if depth = 0 && accept (c :: rest) then some (c :: rest)
        else close? accept (depth - 1) rest
      else close? accept depth rest
termination_by t.length
decreasing_by
  · exact Nat.lt_trans (length_group?_lt ‹_›) (length_condition?_lt ‹_›)
  all_goals simp

def conditionAt? (t : Text) (i : Nat) : Option Nat := do
  let s ← t.suffix? i
  let paren ← condition? s
  return i + s.offset paren

def closeAt? (t : Text) (i : Nat) (accept : Nat → Bool) : Option Nat := do
  let rest ← close? (fun rest => accept (t.offset rest)) 0 (t.dropBytes i)
  return t.offset rest

end Componentry.Markup
