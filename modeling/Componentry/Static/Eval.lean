import Componentry.Decimal.Number
import Componentry.Static.Expression
import Componentry.Static.Scope

/-!
The value of an expression, where it can be known from the values of names. Values are texts. A
text may have several of the forms of expressions; they are tried in a fixed order. Parentheses
around the whole text and operators decide the value; a conditional or a sum whose value is not
known leaves it to the forms after it.
-/
namespace Componentry.Static

def trueText : Text :=
  ['t', 'r', 'u', 'e']

def falseText : Text :=
  ['f', 'a', 'l', 's', 'e']

def ofBool (b : Bool) : Text :=
  if b then trueText else falseText

def keywords : List Text :=
  [trueText, falseText, "null".toList, "undefined".toList]

def isTruthy (value : Text) : Bool :=
  !([[], falseText, "null".toList, "undefined".toList, ['0'], "NaN".toList].contains value)

-- Compares two values: as numbers if both are, else as texts by their code points.
def Comparison.holds (kind : Comparison) (l r : Text) : Bool :=
  match Decimal.read? l, Decimal.read? r with
  | some a, some b =>
    match kind with
    | .equal => a == b
    | .notEqual => a != b
    | .greater => a > b
    | .less => a < b
    | .atLeast => a ≥ b
    | .atMost => a ≤ b
  | _, _ =>
    match kind with
    | .equal => l = r
    | .notEqual => l ≠ r
    | .greater => r < l
    | .less => l < r
    | .atLeast => !(l < r)
    | .atMost => !(r < l)

inductive Total
  | number (sum : Float) (isEmpty : Bool)
  -- From the first operand on that is no number, texts are joined.
  | text (joined : Text)

-- Adds an operand and its value. A quoted number is a text.
def Total.add (total : Total) (operand value : Text) : Total :=
  match total with
  | .text joined => .text (joined ++ value)
  | .number sum isEmpty =>
    match Decimal.read? value, string? operand with
    | some x, none => .number (sum + x) false
    | _, _ => .text ((if isEmpty then [] else Decimal.write sum) ++ value)

def Total.value : Total → Text
  | .number sum _ => Decimal.write sum
  | .text joined => joined

def sumOf (operands : List (Text × Text)) : Text :=
  (operands.foldl (fun total o => Total.add total o.1 o.2) (Total.number 0 true)).value

def leaf (scope : Scope) (t : Text) : Option Text :=
  match string? t with
  | some content => some content
  | none =>
    match Decimal.read? t with
    | some x => some (Decimal.write x)
    | none =>
      if keywords.contains t then some t
      else if isName t then scope.get? t
      else none

def allKnown : List (Option Text) → Option (List Text)
  | [] => some []
  | none :: _ => none
  | some value :: more => (allKnown more).map (value :: ·)

def eval (scope : Scope) (expression : Text) : Option Text :=
  match statement expression, length_statement_le expression with
  | [], _ => some []
  | c :: rest, _ =>
    match _ : parenthesized? (c :: rest) with
    | some inner => eval scope inner
    | none =>
      let chosen : Option Text :=
        match _ : ternary? (c :: rest) with
        | some (condition, yes, no) =>
          match eval scope condition with
          | some value => if isTruthy value then eval scope yes else eval scope no
          | none => none
        | none => none
      match chosen with
      | some value => some value
      | none =>
        match _ : loosest? (c :: rest) with
        | some (operator, left, right) =>
          match eval scope left with
          | none => none
          | some l =>
            match operator with
            | .or => if isTruthy l then some l else eval scope right
            | .and => if isTruthy l then eval scope right else some l
            | .comparison _ kind =>
              match eval scope right with
              | none => none
              | some r => some (ofBool (kind.holds l r))
        | none =>
          let total : Option Text :=
            match _ : summands? (c :: rest) with
            | some operands =>
              (allKnown (operands.attach.map fun ⟨operand, _⟩ => eval scope operand)).map
                fun values =>
                sumOf (operands.zip values)
            | none => none
          match total with
          | some value => some value
          | none =>
            if c = '!' then
              match eval scope rest with
              | some value => some (ofBool (!isTruthy value))
              | none => none
            else leaf scope (c :: rest)
termination_by expression.length
decreasing_by
  · have := length_parenthesized?_lt ‹_›
    omega
  · have := length_ternary?_lt ‹_›
    omega
  · have := length_ternary?_lt ‹_›
    omega
  · have := length_ternary?_lt ‹_›
    omega
  · have := length_loosest?_lt ‹_›
    omega
  · have := length_loosest?_lt ‹_›
    omega
  · have := length_loosest?_lt ‹_›
    omega
  · have := length_loosest?_lt ‹_›
    omega
  · have := length_summands?_lt ‹_› ‹_›
    omega
  · have h : (c :: rest).length ≤ expression.length := ‹_›
    rw [List.length_cons] at h
    omega

def condition (scope : Scope) (expression : Text) : Option Bool :=
  (eval scope expression).map isTruthy

end Componentry.Static
