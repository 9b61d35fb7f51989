import Componentry.Text.Basic

/-!
Identifiers of code and markup: a letter or underscore, then letters, digits and underscores, all of
them ASCII. An identifier is always read as far as it goes.
-/
namespace Componentry.Identifier

def isStart (c : Char) : Bool :=
  c.isAlpha || c = '_'

def isPart (c : Char) : Bool :=
  c.isAlphanum || c = '_'

theorem isPart_of_isStart {c : Char} (h : isStart c) : isPart c := by
  simp_all [isStart, isPart, Char.isAlphanum]
  grind

def split : Text → Text × Text
  | [] => ([], [])
  | c :: t => if isStart c then (c :: t.takeWhile isPart, t.dropWhile isPart) else ([], c :: t)

theorem split_append (t : Text) : (split t).1 ++ (split t).2 = t := by
  cases t with
  | nil => rfl
  | cons c t =>
    rw [split]
    split <;> simp

def continues : Text → Bool
  | [] => false
  | c :: _ => isPart c

end Componentry.Identifier
