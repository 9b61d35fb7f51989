import Componentry.Text.Basic

/-!
Markup: a sequence of literal text, names whose values are inserted, and conditional blocks.
-/
namespace Componentry

-- A sequence of parts. Each constructor but the first adds one part in front of the others.
inductive Markup
  | empty
  | text (content : Text) (rest : Markup)
  | name (identifier : Text) (rest : Markup)
  | conditional (condition : Text) (body alternate rest : Markup)
  deriving DecidableEq, Repr

namespace Markup

def prependText (t : Text) : Markup → Markup
  | .text u rest => .text (t ++ u) rest
  | m => .text t m

end Markup
end Componentry
