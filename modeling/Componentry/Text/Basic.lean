/-!
Texts and their byte offsets. A text is the list of its characters, and a place in it is an offset
in bytes of its UTF-8 form, so an offset may fall between two characters, inside one, or past the
end. `suffix?` reads from an offset only where a character starts, `dropBytes` moves forward to the
next character and `cut` back to the last one.
-/
namespace Componentry

abbrev Text := List Char

namespace Text

def size : Text → Nat
  | [] => 0
  | c :: t => c.utf8Size + size t

@[simp]
theorem size_nil : size [] = 0 :=
  rfl

@[simp]
theorem size_cons (c : Char) (t : Text) : size (c :: t) = c.utf8Size + size t :=
  rfl

@[simp]
theorem size_append (s t : Text) : size (s ++ t) = size s + size t := by
  induction s with
  | nil => simp
  | cons c s ih => simp [ih, Nat.add_assoc]

-- The part that starts at a byte offset, if the offset is between two characters or at an end.
def suffix? : Text → Nat → Option Text
  | t, 0 => some t
  | [], _ + 1 => none
  | c :: t, i + 1 => if c.utf8Size ≤ i + 1 then suffix? t (i + 1 - c.utf8Size) else none

def dropBytes : Text → Nat → Text
  | t, 0 => t
  | [], _ + 1 => []
  | c :: t, i + 1 => dropBytes t (i + 1 - c.utf8Size)

-- The characters that end at or before a byte offset, and all others.
def cut : Text → Nat → Text × Text
  | [], _ => ([], [])
  | c :: t, i =>
    if c.utf8Size ≤ i then
      let (before, after) := cut t (i - c.utf8Size)
      (c :: before, after)
    else
      ([], c :: t)

theorem cut_append (t : Text) (i : Nat) : (t.cut i).1 ++ (t.cut i).2 = t := by
  induction t generalizing i with
  | nil => rfl
  | cons c t ih =>
    rw [cut]
    split
    · simpa using ih (i - c.utf8Size)
    · rfl

def bytes (t : Text) : List UInt8 :=
  t.flatMap String.utf8EncodeChar

def byte? (t : Text) (i : Nat) : Option UInt8 :=
  t.bytes[i]?

def before (t rest : Text) : Text :=
  t.take (t.length - rest.length)

@[simp]
theorem before_append (s rest : Text) : before (s ++ rest) rest = s := by
  simp [before]

def offset (t rest : Text) : Nat :=
  t.size - size rest

@[simp]
theorem offset_append (s rest : Text) : offset (s ++ rest) rest = size s := by
  simp [offset]

def stripStart? : Text → (word : Text) → Option Text
  | t, [] => some t
  | [], _ :: _ => none
  | c :: t, w :: word => if c = w then stripStart? t word else none

theorem stripStart?_eq_some_iff {t word rest : Text} :
    stripStart? t word = some rest ↔ t = word ++ rest := by
  fun_induction stripStart? t word <;> grind

def splitAt (separator : Char) : Text → List Text
  | [] => [[]]
  | c :: t =>
    if c = separator then
      [] :: splitAt separator t
    else
      match splitAt separator t with
      | [] => [[c]]
      | line :: lines => (c :: line) :: lines

def joinWith (separator : Text) : List Text → Text
  | [] => []
  | [t] => t
  | t :: u :: more => t ++ separator ++ joinWith separator (u :: more)

theorem joinWith_append {separator : Text} {ts us : List Text} (ht : ts ≠ []) (hu : us ≠ []) :
    joinWith separator (ts ++ us) = joinWith separator ts ++ separator ++
      joinWith separator us := by
  fun_induction joinWith separator ts
  case case1 => contradiction
  case case2 t =>
    obtain ⟨u, more, he⟩ := List.exists_cons_of_ne_nil hu
    simp [he, joinWith]
  case case3 t u more ih => simp [joinWith, ← ih (by simp)]

def ofNat (n : Nat) : Text :=
  Nat.toDigits 10 n

end Text
end Componentry
