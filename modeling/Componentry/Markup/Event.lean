import Componentry.Markup.Directive

/-!
Markup as a flat series of events. Reading goes from left to right with the blocks that are open;
inside a block the braces of its text are counted, so that the block ends at the first brace that
its text did not open. Outside all blocks a brace is text.
-/
namespace Componentry.Markup

open Code

inductive Event
  | text (content : Text)
  | name (identifier : Text)
  | opens (condition : Text)
  | orElseIf (condition : Text)
  | orElse
  | closes
  deriving DecidableEq, Repr

inductive Cause
  | unterminatedBlock
  | unterminatedCondition
  | emptyCondition
  | blockExpected
  | alternateExpected
  deriving DecidableEq, Repr

structure Failure where
  cause : Cause
  rest : Text
  deriving DecidableEq, Repr

structure Block where
  start : Text
  -- Whether it follows an `@else`, and so cannot be followed by one.
  isAlternate : Bool
  depth : Nat
  deriving DecidableEq, Repr

def enter (paren : Text) : Except Failure (Text × Block × Text) :=
  match group? paren with
  | none => .error ⟨.unterminatedCondition, paren⟩
  | some (raw, rest) =>
    if Text.trim raw = [] then .error ⟨.emptyCondition, paren⟩
    else
      match Text.skipSpace rest with
      | '{' :: inside => .ok (Text.trim raw, ⟨'{' :: inside, false, 0⟩, inside)
      | other => .error ⟨.blockExpected, other⟩

-- What happens after the brace that ends a block: another block of the same conditional follows, or
-- the conditional ends.
def leaveBlock (block : Block) (outer : List Block) (t : Text) :
    Except Failure (Event × List Block × Text) :=
  if block.isAlternate then .ok (.closes, outer, t)
  else
    match else? t with
    | none => .ok (.closes, outer, t)
    | some rest =>
      match condition? (Text.skipSpace rest) with
      | some paren =>
        match enter paren with
        | .error failure => .error failure
        | .ok (condition, next, inside) => .ok (.orElseIf condition, next :: outer, inside)
      | none =>
        match Text.skipSpace rest with
        | '{' :: inside => .ok (.orElse, ⟨'{' :: inside, true, 0⟩ :: outer, inside)
        | other => .error ⟨.alternateExpected, other⟩

def isPlain (c : Char) : Bool :=
  c ≠ '@' && c ≠ '{' && c ≠ '}'

-- The event at the start of the text `c :: t`, the blocks that are open after it, and the rest.
def nextEvent (blocks : List Block) (c : Char) (t : Text) :
    Except Failure (Event × List Block × Text) :=
  if c = '@' then
    match condition? (c :: t) with
    | some paren =>
      match enter paren with
      | .error failure => .error failure
      | .ok (condition, block, inside) => .ok (.opens condition, block :: blocks, inside)
    | none =>
      let (identifier, rest) := Identifier.split t
      if identifier = [] || isReserved identifier then .ok (.text [c], blocks, t)
      else .ok (.name identifier, blocks, rest)
  else if c = '{' then
    match blocks with
    | [] => .ok (.text [c], [], t)
    | block :: outer => .ok (.text [c], { block with depth := block.depth + 1 } :: outer, t)
  else if c = '}' then
    match blocks with
    | [] => .ok (.text [c], [], t)
    | block :: outer =>
      if block.depth = 0 then leaveBlock block outer t
      else .ok (.text [c], { block with depth := block.depth - 1 } :: outer, t)
  else
    .ok (.text (c :: t.takeWhile isPlain), blocks, t.dropWhile isPlain)

theorem length_enter_lt {paren condition inside : Text} {block : Block}
    (h : enter paren = .ok (condition, block, inside)) : inside.length < paren.length := by
  unfold enter at h
  split at h
  · simp at h
  · rename_i raw rest hg
    have hlt := length_group?_lt hg
    have hle := Text.length_skipSpace_le rest
    split at h
    · simp at h
    · split at h
      · rename_i hs
        obtain ⟨rfl, rfl, rfl⟩ : _ ∧ _ ∧ _ := by simpa using h
        rw [hs, List.length_cons] at hle
        omega
      · simp at h

theorem length_leaveBlock_le {block : Block} {outer blocks : List Block} {t rest : Text}
    {event : Event} (h : leaveBlock block outer t = .ok (event, blocks, rest)) :
    rest.length ≤ t.length := by
  unfold leaveBlock at h
  split at h
  · simp_all
  · split at h
    · simp_all
    · rename_i after he
      have hlt := length_else?_lt he
      have hle := Text.length_skipSpace_le after
      split at h
      · rename_i paren hp
        have := length_condition?_lt hp
        split at h
        · simp at h
        · rename_i hen
          have := length_enter_lt hen
          obtain ⟨rfl, rfl, rfl⟩ : _ ∧ _ ∧ _ := by simpa using h
          omega
      · split at h
        · rename_i hs
          obtain ⟨rfl, rfl, rfl⟩ : _ ∧ _ ∧ _ := by simpa using h
          rw [hs, List.length_cons] at hle
          omega
        · simp at h

theorem length_nextEvent_le {blocks after : List Block} {c : Char} {t rest : Text} {event : Event}
    (h : nextEvent blocks c t = .ok (event, after, rest)) : rest.length ≤ t.length := by
  unfold nextEvent at h
  split at h
  · split at h
    · rename_i hp
      have := length_condition?_lt hp
      split at h
      · simp at h
      · rename_i hen
        have := length_enter_lt hen
        obtain ⟨rfl, rfl, rfl⟩ : _ ∧ _ ∧ _ := by simpa using h
        simp only [List.length_cons] at *
        omega
    · have hs := congrArg List.length (Identifier.split_append t)
      simp only [List.length_append] at hs
      simp only at h
      split at h
      · simp_all
      · obtain ⟨rfl, rfl, rfl⟩ : _ ∧ _ ∧ _ := by simpa using h
        omega
  · split at h
    · split at h <;> simp_all
    · split at h
      · split at h
        · simp_all
        · split at h
          · exact length_leaveBlock_le h
          · simp_all
      · obtain ⟨rfl, rfl, rfl⟩ : _ ∧ _ ∧ _ := by simpa using h
        exact (List.dropWhile_sublist isPlain).length_le

def events (blocks : List Block) (t : Text) : Except Failure (List Event) :=
  match t with
  | [] =>
    match blocks with
    | [] => .ok []
    | block :: _ => .error ⟨.unterminatedBlock, block.start⟩
  | c :: t =>
    match _ : nextEvent blocks c t with
    | .error failure => .error failure
    | .ok (event, blocks, rest) => (events blocks rest).map (event :: ·)
termination_by t.length
decreasing_by
  exact Nat.lt_succ_of_le (length_nextEvent_le ‹_›)

end Componentry.Markup
