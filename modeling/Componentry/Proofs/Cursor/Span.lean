import Componentry.Proofs.Code.Outside
import Componentry.Proofs.Text.Bytes

/-!
Spans of code by byte offset, found by a cursor that goes from byte to byte. Whatever could go wrong
with an offset is checked on the way, and none of the checks fails: the cursor finds the spans of
the text.
-/
namespace Componentry.Cursor

open Code

inductive Fault
  -- A place that is not in the text or is inside a character.
  | range
  -- A count below zero.
  | count
  -- A loop that does not move on.
  | stuck
  deriving DecidableEq, Repr

abbrev Checked := Except Fault

@[simp]
theorem ok_bind {α β : Type} (a : α) (f : α → Checked β) : (Except.ok a >>= f) = f a :=
  rfl

@[simp]
theorem pure_eq_ok {α : Type} (a : α) : (pure a : Checked α) = .ok a :=
  rfl

def index (t : Text) (i : Nat) : Checked Char :=
  match t.code? i with
  | some c => .ok c
  | none => .error .range

def slice (t : Text) (i j : Nat) : Checked Text :=
  match t.suffix? i, t.suffix? j with
  | some s, some u => if i ≤ j then .ok (s.before u) else .error .range
  | _, _ => .error .range

def sliceFrom (t : Text) (i : Nat) : Checked Text :=
  slice t i t.size

def minus (n m : Nat) : Checked Nat :=
  if m ≤ n then .ok (n - m) else .error .count

-- A cursor moves forward, and no further than to the end.
def onward (t : Text) (i j : Nat) : Checked (PLift (i < j ∧ j ≤ t.size)) :=
  if h : i < j ∧ j ≤ t.size then .ok ⟨h⟩ else .error .stuck

section Checks

variable {t u : Text} {c : Char} {i j n m : Nat}

theorem index_eq (h : t.code? i = some c) : index t i = .ok c := by
  rw [index, h]

-- A slice is taken only between two places between characters, and forward.
theorem slice_eq_ok_iff : slice t i j = .ok u ↔ ∃ v, t.suffix? i = some (u ++ v) ∧
    j = i + u.size := by
  constructor
  case mp =>
    intro h
    rw [slice] at h
    split at h
    case h_2 => simp at h
    case h_1 s v hi hj =>
      split_ifs at h with hle
      obtain ⟨s, rfl⟩ := Text.suffix_of_suffix? hi hj hle
      rw [Text.before_append] at h
      cases h
      refine ⟨v, hi, ?_⟩
      rw [← Text.offset_of_suffix? hj, Text.offset_of_suffix? (Text.suffix?_add_size hi)]
  case mpr =>
    rintro ⟨v, hi, rfl⟩
    simp [slice, hi, Text.suffix?_add_size hi]

theorem slice_eq {v : Text} (h : t.suffix? i = some (u ++ v)) : slice t i (i + u.size) = .ok u :=
  slice_eq_ok_iff.mpr ⟨v, h, rfl⟩

theorem sliceFrom_eq (h : t.suffix? i = some u) : sliceFrom t i = .ok u := by
  rw [sliceFrom, ← Text.add_size_of_suffix? h]
  exact slice_eq (v := []) (by rw [h, List.append_nil])

theorem minus_eq (h : m ≤ n) : minus n m = .ok (n - m) :=
  if_pos h

theorem onward_eq (h : i < j ∧ j ≤ t.size) : onward t i j = .ok ⟨h⟩ :=
  dif_pos h

end Checks

def offsets (p : Text → Bool) : Text → List Nat
  | [] => []
  | c :: t => (if p (c :: t) then [0] else []) ++ (offsets p t).map (c.utf8Size + ·)

def runEnd (p : Char → Bool) (t : Text) (i : Nat) : Checked Nat :=
  if i < t.size then do
    let c ← index t i
    if p c then runEnd p t (i + 1) else return i
  else return i
termination_by t.size - i

def skipSpace (t : Text) (i : Nat) : Checked Nat :=
  runEnd isSpace t i

def identifierEnd (t : Text) (i : Nat) : Checked Nat :=
  if i < t.size then do
    let c ← index t i
    if Identifier.isStart c then runEnd Identifier.isPart t (i + 1) else return i
  else return i

def quotedEnd (t : Text) (quote : Char) (i : Nat) : Checked Nat :=
  if i < t.size then do
    let c ← index t i
    if c = '\\' then quotedEnd t quote (i + 2)
    else if c = quote || c = '\n' then return i + 1
    else quotedEnd t quote (i + 1)
  else return t.size
termination_by t.size - i

mutual

def literalEnd (t : Text) (i : Nat) : Checked (Option Nat) :=
  match _ : t.code? i with
  | none => return none
  | some c =>
    if c = '/' then
      if t.code? (i + 1) = some '/' then do
        let rest ← sliceFrom t i
        return some (((offsets (·.head? = some '\n') rest).head?.map (i + · + 1)).getD t.size)
      else if t.code? (i + 1) = some '*' then do
        let rest ← sliceFrom t (i + 2)
        return some (((offsets (['*', '/'].isPrefixOf ·) rest).head?.map (i + 2 + · + 2)).getD
          t.size)
      else return none
    else if c = '"' || c = '\'' then return some (← quotedEnd t c (i + 1))
    else if c = '`' then return some (← templateEnd t (i + 1))
    else return none
termination_by (t.size - i, 0)
decreasing_by
  have := Text.lt_size_of_code? ‹_›
  exact Prod.Lex.left _ _ (by omega)

def templateEnd (t : Text) (i : Nat) : Checked Nat :=
  if _ : i < t.size then do
    let c ← index t i
    if c = '\\' then templateEnd t (i + 2)
    else if c = '`' then return i + 1
    else if c = '$' && t.code? (i + 1) = some '{' then
      match ← closer t (i + 1) with
      | some n =>
        let ⟨_⟩ ← onward t i (n + 1)
        templateEnd t (n + 1)
      | none => return t.size
    else templateEnd t (i + 1)
  else return t.size
termination_by (t.size - i, 0)
decreasing_by all_goals exact Prod.Lex.left _ _ (by omega)

def closer (t : Text) (i : Nat) : Checked (Option Nat) :=
  match t.code? i with
  | none => return none
  | some c => if isOpener c then closerFrom t 0 i else return none
termination_by (t.size - i, 2)
decreasing_by exact Prod.Lex.right _ (by omega)

def closerFrom (t : Text) (depth i : Nat) : Checked (Option Nat) :=
  if _ : i < t.size then do
    match ← literalEnd t i with
    | some n =>
      let ⟨_⟩ ← onward t i n
      closerFrom t depth n
    | none =>
      let c ← index t i
      if isOpener c then closerFrom t (depth + 1) (i + 1)
      else if isCloser c then
        let depth ← minus depth 1
        if depth = 0 then return some i else closerFrom t depth (i + 1)
      else closerFrom t depth (i + 1)
  else return none
termination_by (t.size - i, 1)
decreasing_by
  · exact Prod.Lex.right _ (by omega)
  all_goals exact Prod.Lex.left _ _ (by omega)

end

section Runs

variable {p : Char → Bool} {t : Text} {i : Nat}

theorem runEnd_eq (hp : OnlyAscii p) (i : Nat) :
    runEnd p t i = .ok (i + ((t.suffix? i).elim 0 fun s => Text.size (s.takeWhile p))) := by
  induction hn : t.size - i using Nat.strongRecOn generalizing i
  case ind n ih =>
  rw [runEnd]
  cases t.place i
  case past hi _ _ =>
    rw [if_neg (Nat.not_lt_of_le hi)]
    rcases Text.suffix?_of_size_le hi with hs | hs <;> simp [hs]
  case ascii c rest hx hs hc =>
    have hi := Text.lt_size_of_suffix? hs
    rw [if_pos hi, index_eq hc, ok_bind]
    cases hclass : p c
    case true =>
      rw [if_pos rfl, ih _ (by omega) (i + 1) rfl]
      simp [hs, Text.suffix?_succ hx hs, hclass, utf8Size_of_ascii hx, Nat.add_assoc]
    case false => simp [hs, hclass]
  case wide hx hs hc hd =>
    rw [if_pos (Text.lt_size_of_suffix? hs), index_eq hc, ok_bind, hp _ hd]
    simp [hs, hp _ hx]
  case inside hi hs hc hd _ =>
    rw [if_pos hi, index_eq hc, ok_bind, hp _ hd]
    simp [hs]

theorem skipSpace_eq (t : Text) (i : Nat) : skipSpace t i = .ok (skipSpaceAt t i) := by
  rw [skipSpace, runEnd_eq onlyAscii_isSpace, skipSpaceAt]
  cases t.suffix? i <;> rfl

theorem identifierEnd_eq (t : Text) (i : Nat) :
    identifierEnd t i = .ok (Code.identifierEnd t i) := by
  rw [identifierEnd, Code.identifierEnd]
  cases t.place i
  case past hi _ _ =>
    rw [if_neg (Nat.not_lt_of_le hi)]
    rcases Text.suffix?_of_size_le hi with hs | hs <;> simp [hs, Identifier.split]
  case ascii c rest hx hs hc =>
    rw [if_pos (Text.lt_size_of_suffix? hs), index_eq hc, ok_bind]
    by_cases hstart : Identifier.isStart c
    case pos =>
      rw [if_pos hstart, runEnd_eq onlyAscii_isPart, Text.suffix?_succ hx hs]
      simp [hs, Identifier.split, hstart, utf8Size_of_ascii hx, Nat.add_assoc]
    case neg => simp [hs, Identifier.split, hstart]
  case wide hx hs hc hd =>
    rw [if_pos (Text.lt_size_of_suffix? hs), index_eq hc, ok_bind, onlyAscii_isStart _ hd]
    simp [hs, Identifier.split, onlyAscii_isStart _ hx]
  case inside hi hs hc hd _ =>
    rw [if_pos hi, index_eq hc, ok_bind, onlyAscii_isStart _ hd]
    simp [hs]

end Runs

def past (within : List Context) (t : Text) : Option Text :=
  (leave within t).map Prod.snd

def endOf (t : Text) (rest : Option Text) : Nat :=
  rest.elim t.size t.offset

section Past

variable {ctx : Context} {within outer : List Context} {c : Char} {t u rest : Text} {i depth : Nat}

theorem past_nil (t : Text) : past [] t = some t := by
  cases t <;> rfl

theorem past_end (ctx : Context) (outer : List Context) : past (ctx :: outer) [] = none :=
  rfl

theorem past_cons (ctx : Context) (outer : List Context) (c : Char) (t : Text) :
    past (ctx :: outer) (c :: t) = past (Context.after (ctx :: outer) c) t := by
  simp [past, leave, Function.comp_def]

theorem past_append (h : SelfContained within) (outer : List Context) (t : Text) :
    past (within ++ outer) t = (past within t).bind (past outer) := by
  rw [past, past, leave_append_left outer h]
  cases leave within t <;> simp [past, Function.comp_def]

theorem exists_append_of_past (h : past within t = some rest) : ∃ inside, t = inside ++ rest := by
  obtain ⟨⟨inside, _⟩, hl, rfl⟩ := Option.map_eq_some_iff.mp h
  exact ⟨inside, leave_append hl⟩

theorem past_escape (outer : List Context) (hn : outer ≠ []) (t : Text) :
    past (.escape :: outer) t = past outer t.tail := by
  have ⟨ctx, more, he⟩ := List.exists_cons_of_ne_nil hn
  subst he
  cases t
  case nil => rfl
  case cons c t => rw [past_cons]; rfl

theorem add_size_through {opening : Text} (h : t.suffix? i = some (opening ++ u)) (ctx : Context) :
    i + (literal?.through ctx opening u).1.size = endOf t (past [ctx] u) := by
  have ⟨s, ht, hs⟩ := Text.suffix?_eq_some_iff.mp h
  unfold literal?.through past
  cases hl : leave [ctx] u
  case none =>
    rw [ht, ← hs]
    simp [endOf]
  case some p =>
    obtain ⟨inside, rest⟩ := p
    have hu := leave_append hl
    have hoffset : t.offset rest = (s ++ opening ++ inside).size := by
      rw [ht, hu, ← List.append_assoc, ← List.append_assoc, Text.offset_append]
    simp [endOf, hoffset, ← hs]

theorem literalEnd?_eq (h : t.suffix? i = some u) :
    literalEnd? t i = (literal? u).map fun p => i + p.1.size := by
  simp only [literalEnd?, h, Option.bind_eq_bind, Option.bind_some]
  cases literal? u <;> rfl

end Past

section Quoted

variable {t : Text} {quote : Char} {i : Nat}

theorem endOf_suffix {rest : Text} (h : t.suffix? i = some rest) : endOf t (some rest) = i :=
  Text.offset_of_suffix? h

-- A string ends where its context is left. After a backslash the cursor may be inside a character.
theorem quotedEnd_eq (hq : quote.toNat < 128) (i : Nat) :
    quotedEnd t quote i = .ok (endOf t (past [.quoted quote] (t.dropBytes i))) := by
  induction hn : t.size - i using Nat.strongRecOn generalizing i
  case ind n ih =>
  rw [quotedEnd]
  cases t.place i
  case past hi _ hr =>
    rw [if_neg (Nat.not_lt_of_le hi), hr]
    rfl
  case ascii c rest hx hs hc =>
    have hi := Text.lt_size_of_suffix? hs
    have hnext := Text.suffix?_succ hx hs
    rw [if_pos hi, index_eq hc, ok_bind, Text.dropBytes_of_suffix? hs, past_cons, Context.after]
    split_ifs with hback hend
    · rw [ih _ (by omega) (i + 2) rfl, Text.dropBytes_add_two hx hs, past_escape _ (by simp)]
    · rw [past_nil, endOf_suffix hnext, pure_eq_ok]
    · rw [ih _ (by omega) (i + 1) rfl, Text.dropBytes_of_suffix? hnext]
  case wide c d rest hx hs hc hd =>
    have hi := Text.lt_size_of_suffix? hs
    rw [if_pos hi, index_eq hc, ok_bind, if_neg (hd.ne (by decide)), if_neg (by simp [hd.ne, hq]),
      ih _ (by omega) (i + 1) rfl, Text.dropBytes_next hs, Text.dropBytes_of_suffix? hs, past_cons]
    simp [Context.after, hx.ne, hq]
  case inside hi hs hc hd hr =>
    rw [if_pos hi, index_eq hc, ok_bind, if_neg (hd.ne (by decide)), if_neg (by simp [hd.ne, hq]),
      ih _ (by omega) (i + 1) rfl, hr]

end Quoted

section Comments

variable {t u : Text} {i : Nat}

theorem head?_offsets_cons (p : Text → Bool) (c : Char) (u : Text) : (offsets p (c :: u)).head? =
    if p (c :: u) then some 0 else (offsets p u).head?.map (c.utf8Size + ·) := by
  rw [offsets]
  split <;> simp

theorem lineEnd_eq (h : t.suffix? i = some u) :
    ((offsets (·.head? = some '\n') u).head?.map (i + · + 1)).getD t.size =
      endOf t (past [.line] u) := by
  induction u generalizing i
  case nil => rfl
  case cons c u ih =>
    have hnext := Text.suffix?_next h
    rw [head?_offsets_cons, past_cons, Context.after]
    by_cases hc : c = '\n'
    case pos =>
      subst hc
      simpa [past_nil] using (endOf_suffix (Text.suffix?_succ (by decide) h)).symm
    case neg =>
      rw [if_neg hc, ← ih hnext, if_neg (by simpa using hc), Option.map_map]
      simp [Function.comp_def, Nat.add_assoc]

theorem past_star {u : Text} (hu : u.head? ≠ some '/') : past [.star] u = past [.block] u := by
  cases u
  case nil => rfl
  case cons c u =>
    have hc : c ≠ '/' := by simpa using hu
    rw [past_cons, past_cons, Context.after, Context.after, if_neg hc]

theorem blockEnd_eq (h : t.suffix? i = some u) :
    ((offsets (['*', '/'].isPrefixOf ·) u).head?.map (i + · + 2)).getD t.size =
      endOf t (past [.block] u) := by
  induction u generalizing i
  case nil => rfl
  case cons c u ih =>
    have hnext := Text.suffix?_next h
    rw [head?_offsets_cons, past_cons]
    by_cases hend : ['*', '/'].isPrefixOf (c :: u)
    case pos =>
      obtain ⟨rest, he⟩ := List.isPrefixOf_iff_prefix.mp hend
      obtain ⟨rfl, rfl⟩ := List.cons.inj he
      have hlast := Text.suffix?_succ (by decide) (Text.suffix?_succ (by decide) h)
      simpa [Context.after, past_cons, past_nil] using (endOf_suffix hlast).symm
    case neg =>
      have hsame : past (Context.after [.block] c) u = past [.block] u := by
        by_cases hc : c = '*'
        case neg => simp [Context.after, hc]
        case pos =>
          rw [Context.after, if_pos hc, past_star]
          intro hu
          obtain ⟨rest, rfl⟩ := List.head?_eq_some_iff.mp hu
          exact hend (by simp [hc])
      rw [if_neg hend, hsame, ← ih hnext, Option.map_map]
      simp [Function.comp_def, Nat.add_assoc]

end Comments

-- What the cursor finds at an offset: the end of the literal that starts there, the end of a
-- template that it is in, and the end of a number of groups.
structure Spans (t : Text) (i : Nat) : Prop where
  literal : literalEnd t i = .ok (literalEnd? t i)
  template : templateEnd t i = .ok (endOf t (past [.template] (t.dropBytes i)))
  closer : ∀ depth, 0 < depth → closerFrom t depth i =
    .ok ((past (List.replicate depth .group) (t.dropBytes i)).map (t.offset · - 1))

section Literal

variable {t u rest : Text} {c : Char} {i : Nat}

theorem literal?_eq_none (hq : c ≠ '"' ∧ c ≠ '\'' ∧ c ≠ '`')
    (hs : c = '/' → u.head? ≠ some '/' ∧ u.head? ≠ some '*') : literal? (c :: u) = none := by
  rw [Option.eq_none_iff_forall_ne_some]
  intro p hp
  obtain ⟨opening, ctx, v, ho, he, _⟩ := exists_opens hp
  cases ho
  case line =>
    obtain ⟨rfl, rfl⟩ := List.cons.inj he
    exact (hs rfl).left rfl
  case block =>
    obtain ⟨rfl, rfl⟩ := List.cons.inj he
    exact (hs rfl).right rfl
  case quoted hquote _ =>
    obtain ⟨rfl, _⟩ := List.cons.inj he
    exact hquote.elim hq.left hq.right.left
  case template => exact hq.right.right (List.cons.inj he).left

theorem literal?_of_quoted (hc : c = '"' ∨ c = '\'') :
    literal? (c :: u) = some (literal?.through (.quoted c) [c] u) := by
  rcases hc with rfl | rfl <;> rfl

theorem literal?_of_wide (hc : IsWide c) : literal? (c :: u) = none :=
  literal?_eq_none ⟨hc.ne (by decide), hc.ne (by decide), hc.ne (by decide)⟩
    fun h => absurd h (hc.ne (by decide))

theorem literal_next {literal : Text} (hs : t.suffix? i = some u)
    (hl : literal? u = some (literal, rest)) :
    i < i + literal.size ∧ t.suffix? (i + literal.size) = some rest := by
  have hpos := Text.size_pos_of_ne_nil (literal_ne_nil hl)
  rw [literal?_append hl] at hs
  exact ⟨by omega, Text.suffix?_add_size hs⟩

theorem literalEnd?_through (opening : Text) {ctx : Context}
    (hs : t.suffix? i = some (opening ++ u))
    (hl : literal? (opening ++ u) = some (literal?.through ctx opening u)) :
    literalEnd? t i = some (endOf t (past [ctx] u)) := by
  rw [literalEnd?_eq hs, hl, Option.map_some, add_size_through hs]

-- Only a template refers to what is read after its first byte.
theorem literalEnd_eq_of (h : i < t.size → Spans t (i + 1)) :
    literalEnd t i = .ok (literalEnd? t i) := by
  rw [literalEnd]
  cases hp : t.code? i
  case none =>
    rcases Text.suffix?_of_size_le (Text.code?_eq_none_iff.mp hp) with hs | hs
    all_goals simp [literalEnd?, hs, literal?]
  case some d =>
    dsimp only
    cases t.place i
    case past hi hc hr => simp [hc] at hp
    case inside hi hs hc hd hr =>
      cases hp.symm.trans hc
      have hnone : literalEnd? t i = none := by simp [literalEnd?, hs]
      simp [hd.ne, hnone]
    case wide hx hs hc hd =>
      cases hp.symm.trans hc
      have hnone : literalEnd? t i = none := by rw [literalEnd?_eq hs, literal?_of_wide hx]; rfl
      simp [hd.ne, hnone]
    case ascii c rest hx hs hc =>
      cases hp.symm.trans hc
      have hi := Text.lt_size_of_suffix? hs
      have hnext := Text.suffix?_succ hx hs
      have hhead {x : Char} (hx : x.toNat < 128) : t.code? (i + 1) = some x ↔ rest.head? = some x :=
        Text.code?_eq_some_iff_head? hnext hx
      split_ifs with hslash hline hblock hquoted htemplate
      · obtain ⟨u, rfl⟩ := List.head?_eq_some_iff.mp ((hhead (by decide)).mp hline)
        subst hslash
        rw [sliceFrom_eq hs, ok_bind, lineEnd_eq hs, literalEnd?_through ['/', '/'] hs rfl]
        simp [past_cons, Context.after]
      · obtain ⟨u, rfl⟩ := List.head?_eq_some_iff.mp ((hhead (by decide)).mp hblock)
        subst hslash
        have hlast := Text.suffix?_succ (by decide) hnext
        rw [sliceFrom_eq hlast, ok_bind, blockEnd_eq hlast,
          literalEnd?_through ['/', '*'] hs rfl, pure_eq_ok]
      · subst hslash
        rw [hhead (by decide)] at hline hblock
        rw [literalEnd?_eq hs, literal?_eq_none (by decide) fun _ => ⟨hline, hblock⟩]
        rfl
      · have hquoted : d = '"' ∨ d = '\'' := by simpa using hquoted
        rw [quotedEnd_eq hx, ok_bind, literalEnd?_through [d] hs (literal?_of_quoted hquoted),
          Text.dropBytes_of_suffix? hnext, pure_eq_ok]
      · subst htemplate
        rw [(h hi).template, ok_bind, literalEnd?_through ['`'] hs rfl,
          Text.dropBytes_of_suffix? hnext, pure_eq_ok]
      · have hq : d ≠ '"' ∧ d ≠ '\'' := by simpa using hquoted
        rw [literalEnd?_eq hs, literal?_eq_none ⟨hq.left, hq.right, htemplate⟩ fun h =>
          absurd h hslash]
        rfl

end Literal

section Groups

variable {within : List Context} {t u rest literal : Text} {c : Char} {i depth : Nat}

theorem onlyAscii_isOpener : OnlyAscii isOpener := by
  intro c h
  simp [isOpener, h.ne]

theorem onlyAscii_isCloser : OnlyAscii isCloser := by
  intro c h
  simp [isCloser, h.ne]

theorem past_outside (h : IsOutside within depth u) (hd : 0 < depth) :
    past within u = past (List.replicate depth .group) u := by
  obtain ⟨depth, rfl⟩ := Nat.exists_eq_add_one.mpr hd
  rcases h with rfl | ⟨rfl, hline, hblock⟩
  case inl => rfl
  case inr =>
    cases u
    case nil => rfl
    case cons c u =>
      have hoff : IsOutside (.slash :: List.replicate (depth + 1) .group) (depth + 1) (c :: u) :=
        .inr ⟨rfl, hline, hblock⟩
      rw [past_cons, hoff.after_eq, List.replicate_succ, past_cons]
      rfl

theorem isCloser_of_depthAfter (hd : 0 < depth) (h : depthAfter depth c = 0) :
    isCloser c ∧ depth = 1 := by
  unfold depthAfter at h
  split_ifs at h with ho hc
  · exact ⟨hc, by omega⟩
  · omega

theorem past_code (hl : literal? (c :: u) = none) (hd : 0 < depth) :
    past (List.replicate depth .group) (c :: u) =
      past (List.replicate (depthAfter depth c) .group) u := by
  have hstart : IsOutside (List.replicate depth .group) depth (c :: u) := .inl rfl
  have hcons : past (List.replicate depth .group) (c :: u) =
      past (Context.after (List.replicate depth .group) c) u := by
    obtain ⟨depth, rfl⟩ := Nat.exists_eq_add_one.mpr hd
    rw [List.replicate_succ, past_cons]
  rw [hcons]
  by_cases hd' : 0 < depthAfter depth c
  case pos => exact past_outside (hstart.step hl) hd'
  case neg =>
    obtain ⟨hc, rfl⟩ := isCloser_of_depthAfter hd (Nat.eq_zero_of_not_pos hd')
    simp only [isCloser, Bool.or_eq_true, decide_eq_true_eq, or_assoc] at hc
    rcases hc with rfl | rfl | rfl <;> rfl

theorem past_literal (hl : literal? u = some (literal, rest)) (hd : 0 < depth) :
    past (List.replicate depth .group) u = past (List.replicate depth .group) rest := by
  obtain ⟨depth, rfl⟩ := Nat.exists_eq_add_one.mpr hd
  obtain ⟨opening, ctx, v, ho, rfl, hv⟩ := exists_opens hl
  have hc : SelfContained [ctx] := by cases ho <;> simp [SelfContained]
  have hopen : past (List.replicate (depth + 1) .group) (opening ++ v) =
      past ([ctx] ++ List.replicate (depth + 1) .group) v := by
    rw [List.replicate_succ]
    cases ho
    case quoted hq => rcases hq with rfl | rfl <;> exact past_cons ..
    case template => exact past_cons ..
    all_goals exact (past_cons ..).trans (past_cons ..)
  rw [hopen, past_append hc]
  rcases hv with ⟨inside, hleave, _⟩ | ⟨hleave, _, rfl⟩
  case inl => simp [past, hleave]
  case inr => simp [past, hleave, List.replicate_succ, leave]

-- Neither a bracket nor a literal starts within a character, so that the bytes there change no
-- count.
theorem closerFrom_eq_of (hl : literalEnd t i = .ok (literalEnd? t i))
    (h : ∀ j, i < j → i < t.size → Spans t j) (hd : 0 < depth) : closerFrom t depth i =
      .ok ((past (List.replicate depth .group) (t.dropBytes i)).map (t.offset · - 1)) := by
  rw [closerFrom]
  cases t.place i
  case past hi _ hr =>
    obtain ⟨depth, rfl⟩ := Nat.exists_eq_add_one.mpr hd
    rw [dif_neg (Nat.not_lt_of_le hi), hr]
    rfl
  case inside hi hs hc hw hr =>
    have hnone : literalEnd? t i = none := by simp [literalEnd?, hs]
    rw [dif_pos hi, hl, hnone, ok_bind]
    simp only [index_eq hc, ok_bind, onlyAscii_isOpener _ hw, onlyAscii_isCloser _ hw]
    simpa [hr] using (h (i + 1) (by omega) hi).closer depth hd
  case wide c d rest hx hs hc hw =>
    have hi := Text.lt_size_of_suffix? hs
    have hnone : literal? (c :: rest) = none := literal?_of_wide hx
    have hdepth : depthAfter depth c = depth := by
      simp [depthAfter, onlyAscii_isOpener _ hx, onlyAscii_isCloser _ hx]
    rw [dif_pos hi, hl, literalEnd?_eq hs, hnone, Option.map_none, ok_bind,
      Text.dropBytes_of_suffix? hs, past_code hnone hd, hdepth, ← Text.dropBytes_next hs,
      ← (h (i + 1) (by omega) hi).closer depth hd]
    simp [index_eq hc, onlyAscii_isOpener _ hw, onlyAscii_isCloser _ hw]
  case ascii c rest hx hs hc =>
    have hi := Text.lt_size_of_suffix? hs
    have hnext := Text.suffix?_succ hx hs
    rw [dif_pos hi, hl, literalEnd?_eq hs, ok_bind, Text.dropBytes_of_suffix? hs]
    cases hliteral : literal? (c :: rest)
    case some p =>
      obtain ⟨literal, after⟩ := p
      obtain ⟨hlt, hafter⟩ := literal_next hs hliteral
      have hle := Text.add_size_of_suffix? hafter
      simp only [Option.map_some, onward_eq ⟨hlt, Nat.le.intro hle⟩, ok_bind]
      rw [(h _ hlt hi).closer depth hd, Text.dropBytes_of_suffix? hafter, past_literal hliteral hd]
    case none =>
      have hspan := h (i + 1) (by omega) hi
      rw [past_code hliteral hd, depthAfter]
      simp only [Option.map_none, index_eq hc, ok_bind]
      split_ifs with hopener hcloser
      · rw [hspan.closer _ (by omega), Text.dropBytes_of_suffix? hnext]
      · rw [minus_eq hd, ok_bind]
        split_ifs with hzero
        · rw [hzero]
          simp [past_nil, Text.offset_of_suffix? hnext]
        · rw [hspan.closer _ (by omega), Text.dropBytes_of_suffix? hnext]
      · rw [hspan.closer _ hd, Text.dropBytes_of_suffix? hnext]

theorem exists_closer_of_past (hd : 0 < depth)
    (h : past (List.replicate depth .group) u = some rest) :
    ∃ before d, u = before ++ d :: rest ∧ isCloser d := by
  induction hn : u.length using Nat.strongRecOn generalizing u depth
  case ind n ih =>
  cases u
  case nil =>
    obtain ⟨depth, rfl⟩ := Nat.exists_eq_add_one.mpr hd
    simp [List.replicate_succ, past_end] at h
  case cons c u =>
    cases hl : literal? (c :: u)
    case some p =>
      obtain ⟨literal, after⟩ := p
      have he := literal?_append hl
      have hlength := congrArg List.length he
      have hpos := List.length_pos_of_ne_nil (literal_ne_nil hl)
      rw [past_literal hl hd] at h
      obtain ⟨before, d, hafter, hc⟩ := ih _ (by simp at hlength hn; omega) hd h rfl
      exact ⟨literal ++ before, d, by rw [he, hafter, List.append_assoc], hc⟩
    case none =>
      rw [past_code hl hd] at h
      by_cases hd' : 0 < depthAfter depth c
      case pos =>
        obtain ⟨before, d, hu, hc⟩ := ih _ (by simp at hn; omega) hd' h rfl
        exact ⟨c :: before, d, by rw [hu, List.cons_append], hc⟩
      case neg =>
        have hzero := Nat.eq_zero_of_not_pos hd'
        rw [hzero, List.replicate_zero, past_nil, Option.some.injEq] at h
        exact ⟨[], c, by rw [h]; rfl, (isCloser_of_depthAfter hd hzero).left⟩

theorem exists_isCloser {inside : Text} (h : group? (c :: u) = some (inside, rest)) :
    isOpener c ∧ ∃ d, isCloser d ∧ u = inside ++ d :: rest := by
  obtain ⟨hc, d, hl⟩ := group?_eq_some_iff.mp h
  have hu := leave_append hl
  have hp : past (List.replicate 1 .group) u = some rest := by simp [past, hl]
  obtain ⟨before, e, he, hcloser⟩ := exists_closer_of_past Nat.one_pos hp
  have hlast : inside ++ [d] = before ++ [e] := by
    rw [hu, List.append_cons before] at he
    exact List.append_cancel_right he
  obtain ⟨rfl, rfl⟩ : inside = before ∧ d = e := by simpa using hlast
  exact ⟨hc, d, hcloser, by simp [hu]⟩

theorem closer?_eq (h : t.suffix? i = some u) :
    closer? t i = (group? u).map fun p => i + 1 + p.1.size := by
  simp only [closer?, h, Option.bind_eq_bind, Option.bind_some]
  cases group? u <;> rfl

theorem past_group (hc : isOpener c) (rest : Text) :
    past [.group] rest = (group? (c :: rest)).map Prod.snd := by
  rw [group?, if_pos hc, past, Option.map_map]
  rfl

theorem closer?_of_opener (hc : isOpener c) (hs : t.suffix? i = some (c :: rest)) :
    closer? t i = (past [.group] rest).map (t.offset · - 1) := by
  rw [closer?_eq hs, past_group hc]
  cases hg : group? (c :: rest)
  case none => rfl
  case some p =>
    obtain ⟨inside, after⟩ := p
    obtain ⟨_, d, hd, rfl⟩ := exists_isCloser hg
    have hx := onlyAscii_isOpener.toNat_lt hc
    have hcloser := Text.suffix?_add_size (Text.suffix?_succ hx hs)
    have hoffset :=
      Text.offset_of_suffix? (Text.suffix?_succ (onlyAscii_isCloser.toNat_lt hd) hcloser)
    simp [hoffset]

theorem group_next {after : Text} (hc : isOpener c) (hs : t.suffix? i = some (c :: rest))
    (hp : past [.group] rest = some after) :
    ∃ n, t.offset after - 1 = n ∧ i < n + 1 ∧ n + 1 ≤ t.size ∧ t.suffix? (n + 1) = some after := by
  obtain ⟨inside, rfl⟩ := exists_append_of_past hp
  have hafter := Text.suffix?_add_size (Text.suffix?_succ (onlyAscii_isOpener.toNat_lt hc) hs)
  have hle := Text.add_size_of_suffix? hafter
  have hn : i + 1 + inside.size = i + inside.size + 1 := by omega
  rw [hn] at hafter
  refine ⟨i + inside.size, ?_, by omega, by omega, hafter⟩
  rw [Text.offset_of_suffix? hafter, Nat.add_sub_cancel]

theorem closer_eq_of (hl : literalEnd t i = .ok (literalEnd? t i))
    (h : i < t.size → Spans t (i + 1)) :
    closer t i = .ok (closer? t i) := by
  rw [closer]
  cases hp : t.code? i
  case none =>
    rcases Text.suffix?_of_size_le (Text.code?_eq_none_iff.mp hp) with hs | hs
    all_goals simp [closer?, hs, group?]
  case some d =>
    dsimp only
    cases t.place i
    case past hc _ => simp [hc] at hp
    case inside hs hc hw _ =>
      cases hp.symm.trans hc
      simp [onlyAscii_isOpener _ hw, closer?, hs]
    case wide hx hs hc hw =>
      cases hp.symm.trans hc
      simp [onlyAscii_isOpener _ hw, closer?, hs, group?, onlyAscii_isOpener _ hx]
    case ascii c rest hx hs hc =>
      cases hp.symm.trans hc
      split_ifs with ho
      · have hi := Text.lt_size_of_suffix? hs
        have hnone : literal? (d :: rest) = none := by
          simp only [isOpener, Bool.or_eq_true, decide_eq_true_eq, or_assoc] at ho
          rcases ho with rfl | rfl | rfl <;> rfl
        rw [closerFrom, dif_pos hi, hl, literalEnd?_eq hs, hnone, closer?_of_opener ho hs]
        simp only [Option.map_none, ok_bind, index_eq hc, if_pos ho]
        rw [(h hi).closer 1 Nat.one_pos, Text.dropBytes_next hs]
        rfl
      · simp [closer?, hs, group?, ho]

end Groups

section Templates

variable {t rest : Text} {i : Nat}

theorem past_dollar (h : rest.head? ≠ some '{') : past [.dollar] rest = past [.template] rest := by
  cases rest
  case nil => rfl
  case cons c rest =>
    have hc : c ≠ '{' := by simpa using h
    rw [past_cons, past_cons, Context.after, Context.after, if_neg hc]

theorem past_substitution (rest : Text) :
    past [.dollar] ('{' :: rest) = (past [.group] rest).bind (past [.template]) := by
  have hg : SelfContained [.group] := by simp [SelfContained]
  exact (past_cons ..).trans (past_append hg [.template] rest)

theorem templateEnd_eq_of (hc : i < t.size → closer t (i + 1) = .ok (closer? t (i + 1)))
    (h : ∀ j, i < j → i < t.size → Spans t j) :
    templateEnd t i = .ok (endOf t (past [.template] (t.dropBytes i))) := by
  rw [templateEnd]
  cases t.place i
  case past hi _ hr =>
    rw [dif_neg (Nat.not_lt_of_le hi), hr]
    rfl
  case inside hi _ hcode hw hr =>
    rw [dif_pos hi, index_eq hcode, ok_bind, if_neg (hw.ne (by decide)), if_neg (hw.ne (by decide)),
      if_neg (by simp [hw.ne]), (h (i + 1) (by omega) hi).template, hr]
  case wide c d rest hx hs hcode hw =>
    have hi := Text.lt_size_of_suffix? hs
    rw [dif_pos hi, index_eq hcode, ok_bind, if_neg (hw.ne (by decide)), if_neg (hw.ne (by decide)),
      if_neg (by simp [hw.ne]), (h (i + 1) (by omega) hi).template, Text.dropBytes_next hs,
      Text.dropBytes_of_suffix? hs, past_cons]
    simp [Context.after, Context.afterTemplate, hx.ne]
  case ascii c rest hx hs hcode =>
    have hi := Text.lt_size_of_suffix? hs
    have hnext := Text.suffix?_succ hx hs
    rw [dif_pos hi, index_eq hcode, ok_bind, Text.dropBytes_of_suffix? hs, past_cons, Context.after,
      Context.afterTemplate]
    by_cases hback : c = '\\'
    case pos =>
      rw [if_pos hback, if_pos hback, (h (i + 2) (by omega) hi).template,
        Text.dropBytes_add_two hx hs, past_escape _ (by simp)]
    by_cases hend : c = '`'
    case pos =>
      rw [if_neg hback, if_neg hback, if_pos hend, if_pos hend, past_nil, endOf_suffix hnext,
        pure_eq_ok]
    rw [if_neg hback, if_neg hback, if_neg hend, if_neg hend]
    have hcond : (decide (c = '$') && decide (t.code? (i + 1) = some '{')) = true ↔
        c = '$' ∧ rest.head? = some '{' := by
      simp [Text.code?_eq_some_iff_head? hnext]
    by_cases hdollar : c = '$' ∧ rest.head? = some '{'
    case neg =>
      have hsame : past (if c = '$' then [.dollar] else [.template]) rest =
          past [.template] rest := by
        split_ifs with h
        · exact past_dollar fun hh => hdollar ⟨h, hh⟩
        · rfl
      rw [if_neg (mt hcond.mp hdollar), (h (i + 1) (by omega) hi).template,
        Text.dropBytes_of_suffix? hnext, hsame]
    case pos =>
      rw [if_pos (hcond.mpr hdollar), if_pos hdollar.left, hc hi]
      obtain ⟨u, rfl⟩ := List.head?_eq_some_iff.mp hdollar.right
      rw [closer?_of_opener (by decide) hnext, past_substitution]
      cases hp : past [.group] u
      case none => rfl
      case some r =>
        obtain ⟨n, hn, hlt, hle, hr⟩ := group_next (by decide) hnext hp
        simp only [Option.map_some, ok_bind, Option.bind_some, hn]
        rw [onward_eq ⟨by omega, hle⟩, ok_bind, (h _ (by omega) hi).template,
          Text.dropBytes_of_suffix? hr]

end Templates

-- No check fails, and the cursor finds the spans of the text.
theorem spans (t : Text) (i : Nat) : Spans t i := by
  induction hn : t.size - i using Nat.strongRecOn generalizing i
  case ind n ih =>
  have hlater (j : Nat) (hj : i < j) (hi : i < t.size) : Spans t j := ih _ (by omega) j rfl
  have hliteral := literalEnd_eq_of (hlater (i + 1) (Nat.lt_succ_self i))
  have hcloser (hi : i < t.size) : closer t (i + 1) = .ok (closer? t (i + 1)) := by
    have hnext := hlater (i + 1) (Nat.lt_succ_self i) hi
    exact closer_eq_of hnext.literal fun _ => hlater (i + 1 + 1) (by omega) hi
  exact ⟨hliteral, templateEnd_eq_of hcloser hlater, fun _ hd =>
    closerFrom_eq_of hliteral hlater hd⟩

theorem literalEnd_eq (t : Text) (i : Nat) : literalEnd t i = .ok (literalEnd? t i) :=
  (spans t i).literal

theorem closer_eq (t : Text) (i : Nat) : closer t i = .ok (closer? t i) :=
  closer_eq_of (spans t i).literal fun _ => spans t (i + 1)

section Bounds

variable {t : Text} {i n : Nat}

theorem lt_of_literalEnd? (h : literalEnd? t i = some n) :
    i < n ∧ n ≤ t.size ∧ (t.suffix? n).isSome := by
  cases hs : t.suffix? i
  case none => simp [literalEnd?, hs] at h
  case some u =>
    rw [literalEnd?_eq hs] at h
    obtain ⟨⟨literal, rest⟩, hl, rfl⟩ := Option.map_eq_some_iff.mp h
    have ⟨hlt, hrest⟩ := literal_next hs hl
    exact ⟨hlt, Nat.le.intro (Text.add_size_of_suffix? hrest), by rw [hrest]; rfl⟩

theorem exists_group_of_closer? (h : closer? t i = some n) :
    ∃ c inside d rest, isOpener c ∧ isCloser d ∧ t.suffix? i = some (c :: (inside ++ d :: rest)) ∧
      group? (c :: (inside ++ d :: rest)) = some (inside, rest) ∧ n = i + 1 + Text.size inside := by
  cases hs : t.suffix? i
  case none => simp [closer?, hs] at h
  case some u =>
    rw [closer?_eq hs] at h
    obtain ⟨⟨inside, rest⟩, hg, rfl⟩ := Option.map_eq_some_iff.mp h
    cases u
    case nil => simp [group?] at hg
    case cons c u =>
      obtain ⟨hc, d, hd, rfl⟩ := exists_isCloser hg
      exact ⟨c, inside, d, rest, hc, hd, rfl, hg, rfl⟩

theorem lt_of_closer? (h : closer? t i = some n) :
    i < n ∧ n < t.size ∧ ∃ c, t.code? n = some c ∧ isCloser c := by
  obtain ⟨c, inside, d, rest, hc, hd, hs, _, rfl⟩ := exists_group_of_closer? h
  have hx := onlyAscii_isCloser.toNat_lt hd
  have hcloser := Text.suffix?_add_size (Text.suffix?_succ (onlyAscii_isOpener.toNat_lt hc) hs)
  exact ⟨by omega, Text.lt_size_of_suffix? hcloser, d,
    (Text.code?_eq_some_iff hx).mpr ⟨_, hcloser⟩, hd⟩

end Bounds

end Componentry.Cursor
