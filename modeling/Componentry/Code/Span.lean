import Componentry.Code.Context
import Componentry.Text.Blank
import Componentry.Text.Identifier

/-!
Spans of code. `leave` reads until every given context is closed; a literal (string, comment or
template) and a bracket group are the spans from an opening character to that point. A group has to
be closed, a literal may also run to the end of the text.
-/
namespace Componentry.Code

def leave : List Context → Text → Option (Text × Text)
  | [], t => some ([], t)
  | _ :: _, [] => none
  | ctx :: outer, c :: t =>
    (leave (Context.after (ctx :: outer) c) t).map fun (inside, rest) => (c :: inside, rest)

theorem leave_append {within : List Context} {t inside rest : Text}
    (h : leave within t = some (inside, rest)) : t = inside ++ rest := by
  fun_induction leave within t generalizing inside with
  | case1 => simp_all
  | case2 => simp at h
  | case3 ctx outer c t ih =>
    obtain ⟨⟨a, b⟩, hl, he⟩ := Option.map_eq_some_iff.1 h
    obtain ⟨rfl, rfl⟩ := Prod.mk.inj he
    simp [ih hl]

def literal? : Text → Option (Text × Text)
  | '/' :: '/' :: t => some (through .line ['/', '/'] t)
  | '/' :: '*' :: t => some (through .block ['/', '*'] t)
  | c :: t =>
    if c = '"' || c = '\'' then some (through (.quoted c) [c] t)
    else if c = '`' then some (through .template [c] t)
    else none
  | [] => none
where
  through (ctx : Context) (opening t : Text) : Text × Text :=
    match leave [ctx] t with
    | some (inside, rest) => (opening ++ inside, rest)
    | none => (opening ++ t, [])

def group? : Text → Option (Text × Text)
  | [] => none
  | c :: t =>
    if isOpener c then (leave [.group] t).map fun (inside, rest) => (inside.dropLast, rest)
    else none

theorem length_group?_lt {t inside rest : Text} (h : group? t = some (inside, rest)) :
    rest.length < t.length := by
  cases t with
  | nil => simp [group?] at h
  | cons c t =>
    simp only [group?] at h
    split at h
    · obtain ⟨⟨a, b⟩, hl, he⟩ := Option.map_eq_some_iff.1 h
      obtain ⟨rfl, rfl⟩ := Prod.mk.inj he
      have hlen := congrArg List.length (leave_append hl)
      simp only [List.length_append] at hlen
      simp only [List.length_cons]
      omega
    · simp at h

-- Whether a byte offset is outside every literal, reading from the start of the text. An offset
-- past the end is, one inside a character is where the character is.
def isCodeAt (t : Text) (offset : Nat) : Bool :=
  go [] t offset
where
  go (within : List Context) : Text → Nat → Bool
    | [], _ => true
    | c :: t, i =>
      if i = 0 then Context.isCode within c
      else if i < c.utf8Size then (Context.after within c).all (· = .group)
      else go (Context.after within c) t (i - c.utf8Size)

/-!
The same spans by byte offset. Nothing starts at an offset inside a character or past the end.
-/

def skipSpaceAt (t : Text) (i : Nat) : Nat :=
  match t.suffix? i with
  | some s => i + Text.size (s.takeWhile isSpace)
  | none => i

def identifierEnd (t : Text) (i : Nat) : Nat :=
  match t.suffix? i with
  | some s => i + Text.size (Identifier.split s).1
  | none => i

def literalEnd? (t : Text) (i : Nat) : Option Nat := do
  let s ← t.suffix? i
  let (literal, _) ← literal? s
  return i + literal.size

def closer? (t : Text) (i : Nat) : Option Nat := do
  let s ← t.suffix? i
  let (inside, _) ← group? s
  return i + 1 + inside.size

end Componentry.Code
