import Componentry.Text.Basic

/-!
Scopes: the values of names. Each name has at most one value, the last that was given.
-/
namespace Componentry

abbrev Scope := List (Text × Text)

namespace Scope

def get? (scope : Scope) (name : Text) : Option Text :=
  List.lookup name scope

def insert (scope : Scope) (name value : Text) : Scope :=
  (name, value) :: scope.filter (·.1 ≠ name)

@[simp]
theorem get?_insert_self (scope : Scope) (name value : Text) :
    (scope.insert name value).get? name = some value := by
  simp [get?, insert]

theorem get?_insert_of_ne {scope : Scope} {name other value : Text} (h : name ≠ other) :
    (scope.insert other value).get? name = scope.get? name := by
  have hhead : (name == other) = false := by simpa using h
  have htail : List.lookup name (scope.filter (·.1 ≠ other)) = List.lookup name scope := by
    induction scope
    case nil => rfl
    case cons entry scope ih => grind
  rw [get?, insert, List.lookup_cons, hhead]
  exact htail

end Scope
end Componentry
