import Componentry.Text.Basic

/-!
Places in a text for people: the line and the column, both counted from one, columns in characters.
-/
namespace Componentry

structure Location where
  line : Nat
  column : Nat
  deriving DecidableEq, Repr

namespace Location

def after (t : Text) : Location :=
  ⟨t.count '\n' + 1, (t.reverse.takeWhile (· ≠ '\n')).length + 1⟩

-- The place of a byte offset: that of the last character boundary not past it.
def ofOffset (t : Text) (offset : Nat) : Location :=
  after (t.cut offset).1

-- A line and a column in words of 32 bits, in which they are reported. A text of fewer than
-- `2 ^ 32 - 1` characters has no place that is not told by them.
structure Words where
  line : UInt32
  column : UInt32
  deriving DecidableEq, Repr

def Words.location (w : Words) : Location :=
  ⟨w.line.toNat, w.column.toNat⟩

def words (l : Location) : Words :=
  ⟨.ofNat l.line, .ofNat l.column⟩

end Location
end Componentry
