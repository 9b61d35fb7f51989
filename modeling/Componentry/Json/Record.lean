import Componentry.Json.Basic

/-!
Records in JSON. A record is written as an object, in which keys that name no field are passed over,
or as an array of its fields in order, from which fields may be left out at the end.
-/
namespace Componentry.Json

-- The one value of a key; an absent key has none, a repeated key is a fault.
def member? (entries : List (Text × Json)) (name : Text) : Option (Option Json) :=
  match entries.filter (·.1 = name) with
  | [] => some none
  | [(_, value)] => some (some value)
  | _ => none

def fields? (names : List Text) : Json → Option (List (Option Json))
  | .array items =>
    if items.length ≤ names.length then
      some (items.map some ++ List.replicate (names.length - items.length) none)
    else none
  | .object entries => do
    let entries ← entries.mapM fun (key, value) => return (← denoted? key, value)
    names.mapM (member? entries)
  | _ => none

def orDefault (field : Option Json) (read : Json → Option α) (default : α) : Option α :=
  match field with
  | none => some default
  | some value => read value

def optional (read : Json → Option α) : Json → Option (Option α)
  | .null => some none
  | value => (read value).map some

end Componentry.Json
