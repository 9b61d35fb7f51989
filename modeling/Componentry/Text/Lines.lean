import Componentry.Text.Blank

/-!
Blank lines at the ends of a text.
-/
namespace Componentry.Text

def dropBlankLines (t : Text) : Text :=
  go t t
where
  -- `line` is the text from the start of the current line, all of it blank so far.
  go (line : Text) : Text → Text
    | [] => []
    | c :: t => if !isBlank c then line else if c = '\n' then go t t else go line t

-- The text without blank lines at its ends and without carriage returns at its end. The first and
-- last lines that remain keep their indentation.
def trimBlankLines (t : Text) : Text :=
  ((dropBlankLines (dropBlankLines t).reverse).dropWhile (· = '\r')).reverse

end Componentry.Text
