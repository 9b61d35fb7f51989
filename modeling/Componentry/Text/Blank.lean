import Componentry.Text.Basic

/-!
Blank characters. `isBlank` is the Unicode property White_Space, by which texts are trimmed;
`isSpace` is the smaller set that separates tokens of code and markup.
-/
namespace Componentry

-- The Unicode property White_Space.
def isBlank (c : Char) : Bool :=
  let n := c.toNat
  (0x9 ≤ n && n ≤ 0xD) || n = 0x20 || n = 0x85 || n = 0xA0 || n = 0x1680 ||
    (0x2000 ≤ n && n ≤ 0x200A) || n = 0x2028 || n = 0x2029 || n = 0x202F || n = 0x205F || n = 0x3000

def isSpace (c : Char) : Bool :=
  c = ' ' || c = '\t' || c = '\n' || c = '\x0c' || c = '\r'

theorem isBlank_of_isSpace {c : Char} (h : isSpace c) : isBlank c := by
  simp only [isSpace, Bool.or_eq_true, decide_eq_true_eq] at h
  rcases h with (((rfl | rfl) | rfl) | rfl) | rfl <;> decide

namespace Text

def trimStart (t : Text) : Text :=
  t.dropWhile isBlank

def trimEnd (t : Text) : Text :=
  (t.reverse.dropWhile isBlank).reverse

def trim (t : Text) : Text :=
  t.trimStart.trimEnd

def skipBlanks? (t : Text) : Option Text :=
  if t.head?.any isBlank then some t.trimStart else none

def skipSpace (t : Text) : Text :=
  t.dropWhile isSpace

theorem length_trimStart_le (t : Text) : t.trimStart.length ≤ t.length :=
  (List.dropWhile_sublist isBlank).length_le

theorem length_trimEnd_le (t : Text) : t.trimEnd.length ≤ t.length := by
  simpa [trimEnd] using (List.dropWhile_sublist (l := t.reverse) isBlank).length_le

theorem length_skipSpace_le (t : Text) : t.skipSpace.length ≤ t.length :=
  (List.dropWhile_sublist isSpace).length_le

end Text
end Componentry
