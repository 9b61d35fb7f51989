import Componentry.Text.Basic

/-!
Paths of files. A path is kept as it was written, and taken apart into components: separators that
are repeated and components `.` other than the first stand for nothing.
-/
namespace Componentry

structure Path where
  text : Text
  deriving DecidableEq, Repr

namespace Path

inductive Component
  | root
  | here
  | up
  | name (text : Text)
  deriving DecidableEq, Repr

def component? (part : Text) : Option Component :=
  if part = [] || part = ['.'] then none
  else if part = ['.', '.'] then some .up
  else some (.name part)

def isAbsolute (p : Path) : Bool :=
  p.text.head? = some '/'

def components (p : Path) : List Component :=
  let parts := Text.splitAt '/' p.text
  let others := parts.filterMap component?
  if p.isAbsolute then .root :: others
  else if parts.head? = some ['.'] then .here :: others
  else others

def join (p q : Path) : Path :=
  if q.isAbsolute then q
  else if p.text = [] || p.text.getLast? = some '/' then ⟨p.text ++ q.text⟩
  else ⟨p.text ++ '/' :: q.text⟩

def trimHead : Text → Text
  | '/' :: t => trimHead t
  | ['.'] => []
  | '.' :: '/' :: t => trimHead t
  | t => t

-- Drops what stands for nothing from the end of a path, which is given backward.
def trimTail : Text → Text
  | ['/'] => ['/']
  | '/' :: t => trimTail t
  | '.' :: '/' :: t => trimTail ('/' :: t)
  | t => t

theorem length_trimTail_le (t : Text) : (trimTail t).length ≤ t.length := by
  fun_induction trimTail t <;> simp_all <;> omega

def parent? (p : Path) : Option Path :=
  match trimTail p.text.reverse with
  | [] => none
  | ['/'] => none
  | _ :: t => some ⟨(trimTail (t.dropWhile (· ≠ '/'))).reverse⟩

theorem length_parent?_lt {p q : Path} (h : p.parent? = some q) :
    q.text.length < p.text.length := by
  unfold parent? at h
  have h0 := length_trimTail_le p.text.reverse
  split at h
  · simp at h
  · simp at h
  · rename_i c t _ heq
    simp only [Option.some.injEq] at h
    subst h
    have h1 := length_trimTail_le (t.dropWhile (· ≠ '/'))
    have h2 := (List.dropWhile_sublist (l := t) (fun c => decide (c ≠ '/'))).length_le
    rw [heq] at h0
    simp only [List.length_cons, List.length_reverse] at *
    omega

def lastName? (p : Path) : Option (Text × Text) :=
  let backward := trimTail p.text.reverse
  let name := (backward.takeWhile (· ≠ '/')).reverse
  match component? name with
  | some (.name _) => some ((backward.dropWhile (· ≠ '/')).reverse, name)
  | _ => none

-- A name up to its last dot and the extension after it. A dot at the start begins none.
def splitExtension (name : Text) : Text × Option Text :=
  if name.contains '.' then
    let stem := ((name.reverse.dropWhile (· ≠ '.')).drop 1).reverse
    if stem = [] then (name, none) else (stem, some (name.reverse.takeWhile (· ≠ '.')).reverse)
  else (name, none)

def extension? (p : Path) : Option Text := do
  let (_, name) ← p.lastName?
  (splitExtension name).2

-- The path with another extension, with none if that is empty. A path that ends with no name stays
-- as it is, and so does the `..` that is left of a name when its old extension is taken off.
def withExtension (p : Path) (extension : Text) : Path :=
  match p.lastName? with
  | none => p
  | some (before, name) =>
    let (stem, old) := splitExtension name
    if stem = ['.'] && old.isSome && p.text = before ++ name then ⟨before ++ ['.', '.']⟩
    else ⟨before ++ stem ++ if extension = [] then [] else '.' :: extension⟩

def dropFirst : Text → Text
  | '/' :: t => t
  | ['.'] => []
  | '.' :: '/' :: t => '/' :: t
  | t => t.dropWhile (· ≠ '/')

def dropOthers : Nat → Text → Text
  | 0, t => t
  | n + 1, t => dropOthers n ((trimHead t).dropWhile (· ≠ '/'))

def relativeTo? (p base : Path) : Option Path :=
  if base.components.isPrefixOf p.components then
    let rest :=
      match base.components with
      | [] => p.text
      | _ :: others => trimHead (dropOthers others.length (dropFirst p.text))
    some ⟨(trimTail rest.reverse).reverse⟩
  else none

-- A key for the order of paths, which goes by component: the root, `.` and `..` come before names.
def sortKey (p : Path) : List Text :=
  p.components.map fun
    | .root => ['\x00']
    | .here => ['\x01']
    | .up => ['\x02']
    | .name text => '\x03' :: text

def display (p root : Path) : Text :=
  ((p.relativeTo? root).getD p).text.map fun c => if c = '\\' then '/' else c

end Path
end Componentry
