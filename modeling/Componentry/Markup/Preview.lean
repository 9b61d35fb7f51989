import Componentry.Markup.Basic
import Componentry.Static.Eval

/-!
What markup renders to, where the values of its names and conditions are known.
-/
namespace Componentry.Markup

def preview (scope : Scope) : Markup → Option Text
  | .empty => some []
  | .text content rest => (preview scope rest).map (content ++ ·)
  | .name identifier rest => do
    let value ← scope.get? identifier
    (preview scope rest).map (value ++ ·)
  | .conditional condition body alternate rest => do
    let holds ← Static.condition scope condition
    let block ← if holds then preview scope body else preview scope alternate
    (preview scope rest).map (block ++ ·)

end Componentry.Markup
