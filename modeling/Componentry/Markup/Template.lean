import Componentry.Markup.Tree
import Componentry.Text.Quoted

/-!
Markup as one expression of the host language that yields the rendered text. The outermost parts
become a template; a conditional becomes a call of a function on the spot, which returns a sum of
strings for either branch.
-/
namespace Componentry.Markup

-- Text inside a template: backslashes and backticks are escaped, and a `$` that would open a
-- substitution.
def escape : Text → Text
  | [] => []
  | c :: t =>
    if c = '\\' || c = '`' || (c = '$' && t.head? = some '{') then '\\' :: c :: escape t
    else c :: escape t

-- The operands with ` + ` between them. A sum starts with a string, so that it never adds numbers;
-- a sum of nothing is the empty string.
def sum : List Text → Text
  | [] => ['"', '"']
  | operand :: more =>
    if operand.head? = some '"' then Text.joinWith " + ".toList (operand :: more)
    else Text.joinWith " + ".toList (['"', '"'] :: operand :: more)

def choice (condition yes no : Text) : Text :=
  "(() => \x7b if (".toList ++ condition ++ ") \x7b return ".toList ++ yes ++
    "; \x7d return ".toList ++ no ++ "; \x7d)()".toList

def operands : Markup → List Text
  | .empty => []
  | .text content rest =>
    if content = [] then operands rest else Text.quoted content :: operands rest
  | .name identifier rest => ('(' :: identifier ++ [')']) :: operands rest
  | .conditional condition body alternate rest =>
    choice condition (sum (operands body)) (sum (operands alternate)) :: operands rest

def templateParts : Markup → Text
  | .empty => []
  | .text content rest => escape content ++ templateParts rest
  | .name identifier rest => '$' :: '{' :: identifier ++ '}' :: templateParts rest
  | .conditional condition body alternate rest =>
    '$' :: '{' :: choice condition (sum (operands body)) (sum (operands alternate)) ++
      '}' :: templateParts rest

def template (m : Markup) : Text :=
  '`' :: templateParts m ++ ['`']

def expressionOf (t : Text) : Except Error Text :=
  (parse t.trimBlankLines).map template

end Componentry.Markup
