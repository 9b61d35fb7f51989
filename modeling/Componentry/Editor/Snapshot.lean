import Componentry.Component.Compile

/-!
What an editor shows for a component in place of its source.
-/
namespace Componentry.Editor

def isComponent (path : Text) : Bool :=
  let backward := path.reverse
  backward.takeWhile (· ≠ '.') = "dribble".toList.reverse &&
    (backward.dropWhile (· ≠ '.')).length > 1

def snapshot (path source : Text) : Text :=
  match Component.compile path source {} with
  | .ok m => m.code
  | .error error =>
    "// Dribble compile error: ".toList ++ error.message.map fun c => if c = '\n' then ' ' else c

-- The diagnostics to show for a file. Those for a component are about its module, whose places are
-- not places of the source, so none are shown.
def diagnostics (path : Text) (list : List α) : List α :=
  if isComponent path then [] else list

end Componentry.Editor
