import Componentry.Markup.Tree
import Componentry.Proofs.Cursor.Directive
import Componentry.Proofs.Markup.Run

/-!
Markup read by a cursor, one part after the other. A block is read by the same function as the whole
text, and the cursor is handed back at its end.
-/
namespace Componentry.Cursor

open Code Markup

-- What can fail for a reason of its own, with offsets that are checked.
abbrev Attempt (ε : Type) := ExceptT ε Checked

-- An attempt in which no check has failed.
def done {ε α : Type} (r : Except ε α) : Attempt ε α :=
  ExceptT.mk (.ok r)

section Done

variable {ε α β : Type}

@[simp]
theorem done_bind (a : α) (f : α → Attempt ε β) : (done (.ok a) >>= f) = f a :=
  rfl

@[simp]
theorem done_error_bind (e : ε) (f : α → Attempt ε β) : (done (.error e) >>= f) = done (.error e) :=
  rfl

@[simp]
theorem lift_bind (a : α) (f : α → Attempt ε β) : (liftM (Except.ok a : Checked α) >>= f) = f a :=
  rfl

@[simp]
theorem pure_eq_done (a : α) : (pure a : Attempt ε α) = done (.ok a) :=
  rfl

@[simp]
theorem throw_eq_done (e : ε) : (throw e : Attempt ε α) = done (.error e) :=
  rfl

end Done

def elseAt (t : Text) (i : Nat) : Checked (Option Nat) := do
  let start ← skipSpace t i
  let rest ← sliceFrom t start
  return if "@else".toList.isPrefixOf rest && !(t.code? (start + 5)).any Identifier.isPart then
    some (start + 5)
  else none

def entry (t : Text) (paren : Nat) : Attempt Error (Text × Nat) := do
  match ← closer t paren with
  | none => throw ⟨.unterminatedCondition, paren⟩
  | some close =>
    let raw ← slice t (paren + 1) close
    if raw.trim = [] then throw ⟨.emptyCondition, paren⟩
    else
      let brace ← skipSpace t (close + 1)
      if t.code? brace = some '{' then return (raw.trim, brace)
      else throw ⟨.blockExpected, brace⟩

mutual

def nodes (t : Text) (block : Option Nat) (depth i : Nat) : Attempt Error (Markup × Nat) :=
  match _ : t.code? i with
  | none =>
    match block with
    | some start => throw ⟨.unterminatedBlock, start⟩
    | none => return (.empty, i)
  | some c =>
    have := Text.lt_size_of_code? ‹_›
    if c = '@' then do
      match ← conditionAt t i with
      | some paren =>
        let (condition, brace) ← entry t paren
        let ⟨_⟩ ← onward t i brace
        let ((body, alternate), n) ← branches t brace
        let ⟨_⟩ ← onward t i n
        let (rest, n) ← nodes t block depth n
        return (.conditional condition body alternate rest, n)
      | none =>
        let n ← identifierEnd t (i + 1)
        let name ← (if i + 1 < n then slice t (i + 1) n else pure [] : Checked Text)
        if name = [] || isReserved name then
          let (rest, n) ← nodes t block depth (i + 1)
          return (rest.prependText [c], n)
        else
          let ⟨_⟩ ← onward t i n
          let (rest, n) ← nodes t block depth n
          return (.name name rest, n)
    else if c = '{' then do
      let (rest, n) ← nodes t block (depth + 1) (i + 1)
      return (rest.prependText [c], n)
    else if c = '}' then
      if depth = 0 && block.isSome then return (.empty, i + 1)
      else do
        let (rest, n) ← nodes t block (depth - 1) (i + 1)
        return (rest.prependText [c], n)
    else do
      let rest ← sliceFrom t i
      let size := (offsets (·.head?.any (!isPlain ·)) rest).head?.getD rest.size
      let content ← slice rest 0 size
      let ⟨_⟩ ← onward t i (i + size)
      let (rest, n) ← nodes t block depth (i + size)
      return (rest.prependText content, n)
termination_by t.size - i

def branches (t : Text) (brace : Nat) : Attempt Error ((Markup × Markup) × Nat) := do
  let ⟨_⟩ ← onward t brace (brace + 1)
  let (body, n) ← nodes t (some brace) 0 (brace + 1)
  let ⟨_⟩ ← onward t brace n
  let (alternate, n) ← alternate t n
  return ((body, alternate), n)
termination_by t.size - brace

def alternate (t : Text) (i : Nat) : Attempt Error (Markup × Nat) := do
  match ← elseAt t i with
  | none => return (.empty, i)
  | some n =>
    let next ← skipSpace t n
    match ← conditionAt t next with
    | some paren =>
      let (condition, brace) ← entry t paren
      let ⟨_⟩ ← onward t i brace
      let ((body, alternate), n) ← branches t brace
      return (.conditional condition body alternate .empty, n)
    | none =>
      if t.code? next = some '{' then
        let ⟨_⟩ ← onward t i (next + 1)
        nodes t (some next) 0 (next + 1)
      else throw ⟨.alternateExpected, next⟩
termination_by t.size - i

end

def parse (t : Text) : Attempt Error Markup := do
  let (m, _) ← nodes t none 0 0
  return m

def errorIn (t : Text) (failure : Failure) : Error :=
  ⟨failure.cause, t.offset failure.rest⟩

section Entry

variable {t u inside condition : Text} {block : Block} {failure : Failure} {i : Nat}

theorem else?_eq_none (h : ¬"@else".toList.isPrefixOf u.skipSpace) : else? u = none := by
  rw [Option.eq_none_iff_forall_ne_some]
  intro rest he
  simp only [else?, Option.bind_eq_bind, Option.bind_eq_some_iff] at he
  obtain ⟨v, hv, _⟩ := he
  exact h (List.isPrefixOf_iff_prefix.mpr ⟨v, (Text.stripStart?_eq_some_iff.mp hv).symm⟩)

theorem elseAt_eq (hs : t.suffix? i = some u) : else? u = none ∧ elseAt t i = .ok none ∨
    ∃ rest n, else? u = some rest ∧ elseAt t i = .ok (some n) ∧ i < n ∧
    t.suffix? n = some rest := by
  have hstart := suffix?_skipSpace hs
  rw [elseAt, skipSpace_eq, ok_bind, sliceFrom_eq hstart, ok_bind, pure_eq_ok]
  by_cases hword : "@else".toList.isPrefixOf u.skipSpace
  case neg =>
    exact .inl ⟨else?_eq_none hword, by rw [Bool.eq_false_of_not_eq_true hword]; rfl⟩
  case pos =>
    obtain ⟨rest, hrest⟩ := List.isPrefixOf_iff_prefix.mp hword
    have helse : else? u = if Identifier.continues rest then none else some rest := by
      simp only [else?, ← hrest, Text.stripStart?_append, Option.bind_eq_bind, Option.bind_some]
    have hafter : t.suffix? (skipSpaceAt t i + 5) = some rest :=
      Text.suffix?_add_size (hstart.trans (congrArg some hrest.symm))
    have hle := le_skipSpaceAt t i
    rw [hword, Text.any_code? onlyAscii_isPart hafter, ← Identifier.continues_eq_any, helse]
    cases Identifier.continues rest
    case true => exact .inl ⟨rfl, rfl⟩
    case false => exact .inr ⟨rest, _, rfl, rfl, by omega, hafter⟩

theorem entry_eq (hs : t.suffix? i = some ('(' :: u)) :
    (∃ failure, enter ('(' :: u) = .error failure ∧ entry t i = done (.error (errorIn t failure))) ∨
      ∃ condition inside brace, enter ('(' :: u) =
        .ok (condition, ⟨'{' :: inside, false, 0⟩, inside) ∧
        entry t i = done (.ok (condition, brace)) ∧ i < brace ∧
        t.suffix? brace = some ('{' :: inside) := by
  rw [entry, closer_eq, lift_bind, closer?_eq hs, enter]
  cases hg : group? ('(' :: u)
  case none => exact .inl ⟨_, rfl, by rw [errorIn, Text.offset_of_suffix? hs]; rfl⟩
  case some p =>
    obtain ⟨raw, rest⟩ := p
    obtain ⟨_, d, hd, rfl⟩ := exists_isCloser hg
    have hnext := Text.suffix?_succ (by decide) hs
    have hrest := Text.suffix?_succ (onlyAscii_isCloser.toNat_lt hd) (Text.suffix?_add_size hnext)
    have hbrace := suffix?_skipSpace hrest
    simp only [Option.map_some, slice_eq hnext, lift_bind, skipSpace_eq,
      Text.code?_eq_some_iff_head? hbrace (by decide : '{'.toNat < 128)]
    split_ifs with hempty hopen
    · exact .inl ⟨_, rfl, by rw [errorIn, Text.offset_of_suffix? hs]; rfl⟩
    · obtain ⟨inside, hinside⟩ := List.head?_eq_some_iff.mp hopen
      rw [hinside] at hbrace ⊢
      have hle := le_skipSpaceAt t (i + 1 + raw.size + 1)
      exact .inr ⟨_, inside, _, rfl, rfl, by omega, hbrace⟩
    · refine .inl ⟨⟨.blockExpected, rest.skipSpace⟩, ?_,
        by rw [errorIn, Text.offset_of_suffix? hbrace]; rfl⟩
      split
      case h_1 hinside => simp [hinside] at hopen
      case h_2 => rfl

end Entry

-- What reading a part of a text from an offset on comes to, in terms of the events of what follows:
-- it stops with the failure of the events, or it goes on after some of them, and those spell what
-- was read.
inductive Reads {α : Type} (t : Text) (i : Nat) (now : Except Failure (List Event))
    (later : Text → Except Failure (List Event)) (spells : α → List Event → Prop) :
    Except Error (α × Nat) → Prop
  | fails {failure} (h : now = .error failure) :
    Reads t i now later spells (.error (errorIn t failure))
  | reads {a n rest es} (hn : i ≤ n) (hs : t.suffix? n = some rest)
    (he : now = (later rest).map (es ++ ·)) (ha : spells a es) :
    Reads t i now later spells (.ok (a, n))

-- Events that spell the parts of a block, and those that spell a block from its parts to its end.
def SpellsParts (m : Markup) (es : List Event) : Prop :=
  ∀ alternate outer, es.foldr addEvent (⟨.empty, alternate⟩ :: outer) = ⟨m, alternate⟩ :: outer

def SpellsBlock (m : Markup × Markup) (es : List Event) : Prop :=
  ∀ outer, es.foldr addEvent outer = ⟨m.1, m.2⟩ :: outer

-- The events after the parts of a block: those of the brace that ends it, or none.
def ending : List Block → Text → Except Failure (List Event)
  | [], _ => .ok []
  | block :: outer, rest => events ({ block with depth := 0 } :: outer) ('}' :: rest)

-- What the cursor reads at an offset, in blocks of which the innermost has so many braces open.
def ReadsNodes (t : Text) (blocks : List Block) (depth i : Nat) (u : Text) : Prop :=
  ∃ r, nodes t (blocks.head?.map (t.offset ·.start)) depth i = done r ∧
    Reads t i (events blocks u) (ending blocks) SpellsParts r

structure Parses (t : Text) (i : Nat) : Prop where
  nodes : ∀ u blocks depth, t.suffix? i = some u → (∀ block ∈ blocks.head?, block.depth = depth) →
    ReadsNodes t blocks depth i u
  branches : ∀ inside blocks, t.suffix? i = some ('{' :: inside) → ∃ r, branches t i = done r ∧
    Reads t (i + 1) (events (⟨'{' :: inside, false, 0⟩ :: blocks) inside) (events blocks)
    SpellsBlock r
  alternate : ∀ u block outer, t.suffix? i = some u → block.isAlternate = false → block.depth = 0 →
    ∃ r, alternate t i = done r ∧
      Reads t i (events (block :: outer) ('}' :: u)) (events outer) (fun m =>
        SpellsBlock (.empty, m)) r

namespace Reads

variable {α β : Type} {t : Text} {i j : Nat} {now now' : Except Failure (List Event)}
  {later later' : Text → Except Failure (List Event)} {spells : α → List Event → Prop}
  {spells' : β → List Event → Prop} {es : List Event} {r : Except Error (α × Nat)}

theorem prepend (h : Reads t j now later spells r) (he : now' = now.map (es ++ ·)) (hi : i ≤ j)
    {f : α → β} (hf : ∀ a more, spells a more → spells' (f a) (es ++ more)) :
    Reads t i now' later spells' (r.map fun p => (f p.1, p.2)) := by
  cases h
  case fails hnow => exact .fails (by rw [he, hnow]; rfl)
  case reads a n rest more hn hs hnow ha =>
    refine .reads (Nat.le_trans hi hn) hs ?_ (hf a more ha)
    rw [he, hnow]
    cases later rest
    case error => rfl
    case ok => simp [Except.map]

theorem append (h : Reads t i now later spells r)
    (hl : ∀ rest, later rest = (later' rest).map (es ++ ·))
    {spells' : α → List Event → Prop} (hf : ∀ a more, spells a more → spells' a (more ++ es)) :
    Reads t i now later' spells' r := by
  cases h
  case fails hnow => exact .fails hnow
  case reads a n rest more hn hs hnow ha =>
    refine .reads hn hs ?_ (hf a more ha)
    rw [hnow, hl]
    cases later' rest
    case error => rfl
    case ok => simp [Except.map]

end Reads

-- What the cursor does at the start of each kind of part.
section Parts

variable {t u : Text} {c : Char} {i : Nat} (block : Option Nat) (depth : Nat)

theorem nodes_at_end (hs : t.suffix? i = some []) : nodes t block depth i =
    block.elim (pure (.empty, i)) fun start => throw ⟨.unterminatedBlock, start⟩ := by
  have hc : t.code? i = none := Text.code?_eq_none_iff.mpr (by
    have hsize := Text.add_size_of_suffix? hs
    simp at hsize
    omega)
  rw [nodes.eq_def]
  split
  case h_2 hc' => simp [hc'] at hc
  case h_1 => cases block <;> rfl

theorem nodes_at_open (hs : t.suffix? i = some ('{' :: u)) : nodes t block depth i =
    nodes t block (depth + 1) (i + 1) >>= fun p => pure (p.1.prependText ['{'], p.2) := by
  have hc : t.code? i = some '{' := (Text.code?_eq_some_iff (by decide)).mpr ⟨u, hs⟩
  rw [nodes.eq_def]
  split
  case h_1 hc' => simp [hc'] at hc
  case h_2 hc' =>
    cases hc'.symm.trans hc
    rw [if_neg (by decide), if_pos rfl]

theorem nodes_at_close (hs : t.suffix? i = some ('}' :: u)) : nodes t block depth i =
    if depth = 0 && block.isSome then pure (.empty, i + 1)
    else nodes t block (depth - 1) (i + 1) >>= fun p => pure (p.1.prependText ['}'], p.2) := by
  have hc : t.code? i = some '}' := (Text.code?_eq_some_iff (by decide)).mpr ⟨u, hs⟩
  rw [nodes.eq_def]
  split
  case h_1 hc' => simp [hc'] at hc
  case h_2 hc' =>
    cases hc'.symm.trans hc
    rw [if_neg (by decide), if_neg (by decide), if_pos rfl]

theorem exists_code_of_isPlain (hs : t.suffix? i = some (c :: u)) (hp : isPlain c) :
    ∃ d, t.code? i = some d ∧ isPlain d := by
  cases t.place i
  case past hi _ _ => exact absurd (Text.lt_size_of_suffix? hs) (Nat.not_lt_of_le hi)
  case inside hs' _ _ _ => simp [hs'] at hs
  case ascii hs' hc =>
    cases hs.symm.trans hs'
    exact ⟨c, hc, hp⟩
  case wide hc hd => exact ⟨_, hc, by simp [isPlain, hd.ne]⟩

theorem head?_offsets_run (p : Char → Bool) (u : Text) :
    (offsets (·.head?.any (!p ·)) u).head?.getD u.size = Text.size (u.takeWhile p) := by
  induction u
  case nil => rfl
  case cons c u ih =>
    rw [head?_offsets_cons]
    cases hc : p c
    case false => simp [hc]
    case true => simp [hc, ih]

theorem nodes_at_plain (hs : t.suffix? i = some (c :: u)) (hp : isPlain c) :
    ∃ j, i < j ∧ j ≤ t.size ∧ t.suffix? j = some (u.dropWhile isPlain) ∧
      nodes t block depth i = nodes t block depth j >>= fun p =>
        pure (p.1.prependText (c :: u.takeWhile isPlain), p.2) := by
  have ⟨d, hc, hplain⟩ := exists_code_of_isPlain hs hp
  simp only [isPlain, Bool.and_eq_true, decide_eq_true_eq, and_assoc] at hplain
  have hsize := head?_offsets_run isPlain (c :: u)
  rw [List.takeWhile_cons_of_pos hp] at hsize
  have hsplit : c :: u = (c :: u.takeWhile isPlain) ++ u.dropWhile isPlain := by simp
  have hslice : slice (c :: u) 0 (Text.size (c :: u.takeWhile isPlain)) =
      .ok (c :: u.takeWhile isPlain) := by
    have h := slice_eq ((Text.suffix?_zero (c :: u)).trans (congrArg some hsplit))
    rwa [Nat.zero_add] at h
  have hnext := Text.suffix?_add_size (hs.trans (congrArg some hsplit))
  have hle := Text.add_size_of_suffix? hnext
  have hpos := Text.size_pos_of_ne_nil (List.cons_ne_nil c (u.takeWhile isPlain))
  refine ⟨_, by omega, by omega, hnext, ?_⟩
  rw [nodes.eq_def]
  split
  case h_1 hc' => simp [hc'] at hc
  case h_2 hc' =>
    cases hc'.symm.trans hc
    rw [if_neg hplain.left, if_neg hplain.right.left, if_neg hplain.right.right, sliceFrom_eq hs]
    dsimp only [lift_bind]
    rw [hsize, hslice, lift_bind, onward_eq ⟨by omega, by omega⟩, lift_bind]

theorem nodes_at_sign {name rest : Text} (hs : t.suffix? i = some ('@' :: u))
    (hp : condition? ('@' :: u) = none) (hn : Identifier.split u = (name, rest)) :
    t.suffix? (i + 1 + name.size) = some rest ∧ nodes t block depth i =
      if name = [] || isReserved name then
        nodes t block depth (i + 1) >>= fun p => pure (p.1.prependText ['@'], p.2)
      else nodes t block depth (i + 1 + name.size) >>= fun p => pure (.name name p.1, p.2) := by
  have hc : t.code? i = some '@' := (Text.code?_eq_some_iff (by decide)).mpr ⟨u, hs⟩
  have hnext := Text.suffix?_succ (by decide) hs
  have hsplit := Identifier.split_append u
  rw [hn] at hsplit
  have hend : Code.identifierEnd t (i + 1) = i + 1 + name.size := by
    rw [Code.identifierEnd, hnext]
    simp only [hn]
  have hafter : t.suffix? (i + 1 + name.size) = some rest :=
    Text.suffix?_add_size (hnext.trans (congrArg some hsplit.symm))
  have hslice : (if i + 1 < i + 1 + name.size then slice t (i + 1) (i + 1 + name.size)
      else pure []) = .ok name := by
    by_cases hn : name = []
    case pos => simp [hn]
    case neg =>
      have hpos := Text.size_pos_of_ne_nil hn
      rw [if_pos (by omega), slice_eq (hnext.trans (congrArg some hsplit.symm))]
  have hle := Text.add_size_of_suffix? hafter
  refine ⟨hafter, ?_⟩
  rw [nodes.eq_def]
  split
  case h_1 hc' => simp [hc'] at hc
  case h_2 hc' =>
    cases hc'.symm.trans hc
    rw [if_pos rfl, conditionAt_eq, lift_bind, conditionAt?_eq hs, hp]
    dsimp only [Option.map_none]
    rw [identifierEnd_eq, lift_bind, hend, hslice, lift_bind, onward_eq ⟨by omega, by omega⟩,
      lift_bind]

theorem nodes_at_condition {paren : Text} (hs : t.suffix? i = some ('@' :: u))
    (hp : condition? ('@' :: u) = some paren) : nodes t block depth i = do
      let (condition, brace) ← entry t (t.offset paren)
      let ⟨_⟩ ← onward t i brace
      let ((body, alternate), n) ← branches t brace
      let ⟨_⟩ ← onward t i n
      let (rest, n) ← nodes t block depth n
      return (.conditional condition body alternate rest, n) := by
  have hc : t.code? i = some '@' := (Text.code?_eq_some_iff (by decide)).mpr ⟨u, hs⟩
  rw [nodes.eq_def]
  split
  case h_1 hc' => simp [hc'] at hc
  case h_2 hc' =>
    cases hc'.symm.trans hc
    rw [if_pos rfl, conditionAt_eq, lift_bind, conditionAt?_eq hs, hp]
    rfl

-- What follows the block of a conditional, and how it is read: no `@else`, an `@else` whose
-- condition cannot be read, another conditional, neither a conditional nor a block, or a block.
inductive AfterBlock (t : Text) (i : Nat) (u : Text) : Attempt Error (Markup × Nat) → Prop
  | ends (he : else? u = none) : AfterBlock t i u (done (.ok (.empty, i)))
  | fails {rest paren failure} (he : else? u = some rest)
    (hp : condition? rest.skipSpace = some paren)
    (henter : enter paren = .error failure) : AfterBlock t i u (done (.error (errorIn t failure)))
  | conditional {rest paren condition inside brace} (he : else? u = some rest)
    (hp : condition? rest.skipSpace = some paren)
    (henter : enter paren = .ok (condition, ⟨'{' :: inside, false, 0⟩, inside)) (hi : i < brace)
    (hs : t.suffix? brace = some ('{' :: inside)) : AfterBlock t i u (branches t brace >>= fun p =>
      pure (.conditional condition p.1.1 p.1.2 .empty, p.2))
  | missing {rest} (he : else? u = some rest) (hp : condition? rest.skipSpace = none)
    (hb : rest.skipSpace.head? ≠ some '{') :
    AfterBlock t i u (done (.error (errorIn t ⟨.alternateExpected, rest.skipSpace⟩)))
  | block {rest inside brace} (he : else? u = some rest) (hp : condition? rest.skipSpace = none)
    (hr : rest.skipSpace = '{' :: inside) (hi : i < brace)
    (hs : t.suffix? brace = some ('{' :: inside)) :
    AfterBlock t i u (nodes t (some brace) 0 (brace + 1))

theorem afterBlock (hs : t.suffix? i = some u) : AfterBlock t i u (alternate t i) := by
  rw [alternate]
  rcases elseAt_eq hs with ⟨he, hn⟩ | ⟨rest, n, he, hn, hlt, hrest⟩
  case inl =>
    rw [hn, lift_bind]
    exact .ends he
  case inr =>
  have hnext := suffix?_skipSpace hrest
  have hle := le_skipSpaceAt t n
  rw [hn, lift_bind]
  dsimp only
  rw [skipSpace_eq, lift_bind, conditionAt_eq, lift_bind, conditionAt?_eq hnext]
  cases hp : condition? rest.skipSpace
  case some paren =>
    obtain ⟨v, rfl, hparen, hsuffix⟩ := suffix?_paren hnext hp
    dsimp only [Option.map_some]
    rcases entry_eq hsuffix with ⟨failure, henter, hentry⟩ | ⟨condition, inside, brace, henter,
      hentry, hb⟩
    case inl =>
      rw [hentry, done_error_bind]
      exact .fails he hp henter
    case inr =>
      have hsize := Text.lt_size_of_suffix? hb.right
      rw [hentry, done_bind]
      dsimp only
      rw [onward_eq ⟨by omega, by omega⟩, lift_bind]
      exact .conditional he hp henter (by omega) hb.right
  case none =>
    dsimp only [Option.map_none]
    have hopen := Text.code?_eq_some_iff_head? hnext (by decide : '{'.toNat < 128)
    by_cases hbrace : rest.skipSpace.head? = some '{'
    case neg =>
      rw [if_neg (mt hopen.mp hbrace), throw_eq_done, ← Text.offset_of_suffix? hnext]
      exact .missing he hp hbrace
    case pos =>
      obtain ⟨inside, hinside⟩ := List.head?_eq_some_iff.mp hbrace
      rw [hinside] at hnext
      have hsize := Text.lt_size_of_suffix? hnext
      rw [if_pos (hopen.mpr hbrace), onward_eq ⟨by omega, by omega⟩, lift_bind]
      exact .block he hp hinside (by omega) hnext

end Parts

section Steps

variable {t u rest : Text} {blocks : List Block} {block : Block} {c : Char} {i depth : Nat}

theorem nodes_end (hs : t.suffix? i = some []) : ReadsNodes t blocks depth i [] := by
  rw [ReadsNodes, nodes_at_end _ depth hs, events.eq_def]
  cases blocks
  case nil =>
    have he : Except.ok [] = (ending [] []).map ([] ++ ·) := rfl
    exact ⟨_, rfl, .reads (Nat.le_refl i) hs he fun _ _ => rfl⟩
  case cons block outer => exact ⟨_, rfl, .fails rfl⟩

theorem ReadsNodes.cons {after : List Block} {event : Event} {f : Markup → Markup} {j d : Nat}
    (h : ReadsNodes t after d j rest) (hs : Step blocks u event after rest) (hi : i ≤ j)
    (hl : ending after = ending blocks)
    (hf : ∀ m alternate outer, addEvent event (⟨m, alternate⟩ :: outer) = ⟨f m, alternate⟩ :: outer)
    (hn : nodes t (blocks.head?.map (t.offset ·.start)) depth i =
      nodes t (after.head?.map (t.offset ·.start)) d j >>= fun p => pure (f p.1, p.2)) :
    ReadsNodes t blocks depth i u := by
  obtain ⟨r, hr, hreads⟩ := h
  refine ⟨r.map fun p => (f p.1, p.2), ?_, ?_⟩
  · rw [hn, hr]
    cases r <;> rfl
  · have he : events blocks u = (events after rest).map ([event] ++ ·) := hs.events_eq
    rw [← hl]
    refine hreads.prepend he hi ?_
    intro m more hm alternate outer
    simp [hm alternate outer, hf]

theorem nodes_plain (h : ∀ j, i < j → j ≤ t.size → Parses t j) (hs : t.suffix? i = some (c :: u))
    (hd : ∀ block ∈ blocks.head?, block.depth = depth) (hp : isPlain c) :
    ReadsNodes t blocks depth i (c :: u) := by
  obtain ⟨j, hj, hle, hnext, hnodes⟩ := nodes_at_plain _ depth hs hp
  exact ((h j hj hle).nodes _ blocks depth hnext hd).cons (.plain hp) (Nat.le_of_lt hj) rfl
    (fun _ _ _ => rfl) hnodes

theorem nodes_open (h : ∀ j, i < j → j ≤ t.size → Parses t j) (hs : t.suffix? i = some ('{' :: u))
    (hd : ∀ block ∈ blocks.head?, block.depth = depth) :
    ReadsNodes t blocks depth i ('{' :: u) := by
  have hnext := Text.suffix?_succ (by decide) hs
  have hlater := h (i + 1) (by omega) (Text.lt_size_of_suffix? hs)
  cases blocks
  case nil =>
    exact (hlater.nodes u [] (depth + 1) hnext (by simp)).cons (.outside (.inl rfl)) (by omega) rfl
      (fun _ _ _ => rfl) (nodes_at_open _ depth hs)
  case cons block outer =>
    obtain rfl := hd block rfl
    exact (hlater.nodes u ({ block with depth := block.depth + 1 } :: outer) _ hnext (by simp)).cons
      .deeper
      (by omega) rfl (fun _ _ _ => rfl) (nodes_at_open _ block.depth hs)

theorem nodes_close (h : ∀ j, i < j → j ≤ t.size → Parses t j) (hs : t.suffix? i = some ('}' :: u))
    (hd : ∀ block ∈ blocks.head?, block.depth = depth) :
    ReadsNodes t blocks depth i ('}' :: u) := by
  have hnext := Text.suffix?_succ (by decide) hs
  have hlater := h (i + 1) (by omega) (Text.lt_size_of_suffix? hs)
  cases blocks
  case nil =>
    refine (hlater.nodes u [] (depth - 1) hnext (by simp)).cons (.outside (.inr rfl)) (by omega) rfl
      (fun _ _ _ => rfl) ((nodes_at_close _ depth hs).trans (if_neg (by simp)))
  case cons block outer =>
    obtain rfl := hd block rfl
    by_cases hzero : block.depth = 0
    case pos =>
      have hblock : { block with depth := 0 } = block := by rw [← hzero]
      have he : events (block :: outer) ('}' :: u) = (ending (block :: outer) u).map ([] ++ ·) := by
        rw [ending, hblock]
        cases events (block :: outer) ('}' :: u) <;> rfl
      exact ⟨_, (nodes_at_close _ block.depth hs).trans (if_pos (by simp [hzero])),
        .reads (Nat.le_succ i) hnext he fun _ _ => rfl⟩
    case neg =>
      exact (hlater.nodes u ({ block with depth := block.depth - 1 } :: outer)
        _ hnext (by simp)).cons
        (.shallower hzero) (by omega) rfl (fun _ _ _ => rfl)
        ((nodes_at_close _ block.depth hs).trans (if_neg (by simp [hzero])))

theorem nodes_sign (h : ∀ j, i < j → j ≤ t.size → Parses t j) (hs : t.suffix? i = some ('@' :: u))
    (hd : ∀ block ∈ blocks.head?, block.depth = depth) (hp : condition? ('@' :: u) = none) :
    ReadsNodes t blocks depth i ('@' :: u) := by
  have hnext := Text.suffix?_succ (by decide) hs
  have hi := Text.lt_size_of_suffix? hs
  obtain ⟨name, rest, hsplit⟩ : ∃ name rest, Identifier.split u = (name, rest) := ⟨_, _, rfl⟩
  obtain ⟨hafter, hnodes⟩ := nodes_at_sign (blocks.head?.map (t.offset ·.start)) depth hs hp hsplit
  by_cases hn : name = [] || isReserved name
  case pos =>
    have hs : Step blocks ('@' :: u) (.text ['@']) blocks u := .sign hp (by simpa [hsplit] using hn)
    exact ((h _ (by omega) hi).nodes u blocks depth hnext hd).cons hs (by omega)
      rfl (fun _ _ _ => rfl)
      (hnodes.trans (if_pos hn))
  case neg =>
    have hle := Text.add_size_of_suffix? hafter
    have hs : Step blocks ('@' :: u) (.name name) blocks rest := by
      simp only [Bool.or_eq_true, decide_eq_true_eq, not_or, Bool.not_eq_true] at hn
      exact .name hp hsplit hn.left hn.right
    refine ((h _ (by omega) (by omega)).nodes rest blocks depth hafter hd).cons hs (by omega) rfl
      (fun _ _ _ => rfl) ?_
    rw [hnodes, if_neg hn]

theorem nodes_conditional (h : ∀ j, i < j → j ≤ t.size → Parses t j)
    (hs : t.suffix? i = some ('@' :: u))
    (hd : ∀ block ∈ blocks.head?, block.depth = depth) {paren : Text}
    (hp : condition? ('@' :: u) = some paren) : ReadsNodes t blocks depth i ('@' :: u) := by
  have hnodes := nodes_at_condition (blocks.head?.map (t.offset ·.start)) depth hs hp
  obtain ⟨v, rfl, hi, hparen⟩ := suffix?_paren hs hp
  rcases entry_eq hparen with ⟨failure, henter, hentry⟩ | ⟨condition, inside, brace,
    henter, hentry, hlt, hb⟩
  case inl =>
    rw [hentry, done_error_bind] at hnodes
    exact ⟨_, hnodes, .fails (events_of_error (by simp [nextEvent, hp, henter]))⟩
  case inr =>
    have hstep : Step blocks ('@' :: u) (.opens condition) _ inside := .opens hp henter
    have hsize := Text.lt_size_of_suffix? hb
    rw [hentry, done_bind] at hnodes
    dsimp only at hnodes
    rw [onward_eq ⟨by omega, by omega⟩, lift_bind] at hnodes
    obtain ⟨r, hr, hreads⟩ := (h brace (by omega) (by omega)).branches inside blocks hb
    rw [hr] at hnodes
    cases hreads
    case fails hnow => exact ⟨_, hnodes, .fails (by rw [hstep.events_eq, hnow]; rfl)⟩
    case reads m n rest es hn hrest hnow hm =>
      have hle := Text.add_size_of_suffix? hrest
      obtain ⟨r, hr, hreads⟩ := (h n (by omega) (by omega)).nodes rest blocks depth hrest hd
      have hevents : events blocks ('@' :: u) =
          (events blocks rest).map ((.opens condition :: es) ++ ·) := by
        rw [hstep.events_eq, hnow]
        cases events blocks rest <;> rfl
      refine ⟨r.map fun p => (.conditional condition m.1 m.2 p.1, p.2), ?_, ?_⟩
      · rw [hnodes, done_bind]
        dsimp only
        rw [onward_eq ⟨by omega, by omega⟩, lift_bind, hr]
        cases r <;> rfl
      · refine hreads.prepend hevents (by omega) ?_
        intro parts more hmore alternate outer
        simp [hmore alternate outer, hm (⟨parts, alternate⟩ :: outer), addEvent]

theorem nodes_of (h : ∀ j, i < j → j ≤ t.size → Parses t j) (hs : t.suffix? i = some u)
    (hd : ∀ block ∈ blocks.head?, block.depth = depth) : ReadsNodes t blocks depth i u := by
  cases u
  case nil => exact nodes_end hs
  case cons c u =>
    by_cases hat : c = '@'
    case pos =>
      subst hat
      cases hp : condition? ('@' :: u)
      case none => exact nodes_sign h hs hd hp
      case some paren => exact nodes_conditional h hs hd hp
    by_cases hopen : c = '{'
    case pos => exact hopen ▸ nodes_open h (hopen ▸ hs) hd
    by_cases hclose : c = '}'
    case pos => exact hclose ▸ nodes_close h (hclose ▸ hs) hd
    exact nodes_plain h hs hd (by simp [isPlain, hat, hopen, hclose])

theorem branches_of {inside : Text} (h : ∀ j, i < j → j ≤ t.size → Parses t j)
    (hs : t.suffix? i = some ('{' :: inside)) (blocks : List Block) : ∃ r, branches t i = done r ∧
      Reads t (i + 1) (events (⟨'{' :: inside, false, 0⟩ :: blocks) inside) (events blocks)
        SpellsBlock r := by
  have hi := Text.lt_size_of_suffix? hs
  have hnext := Text.suffix?_succ (by decide) hs
  obtain ⟨r, hr, hreads⟩ :=
    (h (i + 1) (by omega) hi).nodes inside (⟨'{' :: inside, false, 0⟩ :: blocks) 0
    hnext (by simp)
  simp only [List.head?_cons, Option.map_some, Text.offset_of_suffix? hs] at hr
  rw [branches, onward_eq ⟨by omega, hi⟩, lift_bind, hr]
  cases hreads
  case fails hnow => exact ⟨_, rfl, .fails hnow⟩
  case reads body n rest es hn hrest hnow hbody =>
    have hle := Text.add_size_of_suffix? hrest
    obtain ⟨r, hr, hreads⟩ :=
      (h n (by omega) (by omega)).alternate rest ⟨'{' :: inside, false, 0⟩ blocks
      hrest rfl rfl
    refine ⟨r.map fun p => ((body, p.1), p.2), ?_, ?_⟩
    · rw [done_bind]
      dsimp only
      rw [onward_eq ⟨by omega, by omega⟩, lift_bind, hr]
      cases r <;> rfl
    · refine hreads.prepend hnow hn ?_
      intro alternate more hmore outer
      simp [hmore outer, hbody alternate outer]

theorem reads_closes {outer : List Block} (hs : t.suffix? i = some u) (hd : block.depth = 0)
    (he : else? u = none) : Reads t i (events (block :: outer) ('}' :: u)) (events outer)
      (fun m => SpellsBlock (.empty, m)) (.ok (.empty, i)) := by
  have hstep : Step (block :: outer) ('}' :: u) .closes outer u := .closes hd (.inr he)
  have hevents : events (block :: outer) ('}' :: u) = (events outer u).map ([.closes] ++ ·) :=
    hstep.events_eq
  exact .reads (Nat.le_refl i) hs hevents fun _ => rfl

theorem reads_alternate {outer : List Block} {inside : Text} {j : Nat} (h : Parses t (j + 1))
    (hs : t.suffix? j = some ('{' :: inside)) (hi : i ≤ j)
    (hstep : Step (block :: outer) ('}' :: u) .orElse (⟨'{' :: inside, true, 0⟩ :: outer) inside) :
    ∃ r, nodes t (some j) 0 (j + 1) = done r ∧ Reads t i (events (block :: outer) ('}' :: u))
    (events outer)
      (fun m => SpellsBlock (.empty, m)) r := by
  obtain ⟨r, hr, hreads⟩ := h.nodes inside (⟨'{' :: inside, true, 0⟩ :: outer) 0
    (Text.suffix?_succ (by decide) hs) (by simp)
  simp only [List.head?_cons, Option.map_some, Text.offset_of_suffix? hs] at hr
  have hevents : events (block :: outer) ('}' :: u) =
      (events (⟨'{' :: inside, true, 0⟩ :: outer) inside).map ([.orElse] ++ ·) := hstep.events_eq
  have hend (rest : Text) : ending (⟨'{' :: inside, true, 0⟩ :: outer) rest =
      (events outer rest).map ([.closes] ++ ·) :=
    (Step.closes rfl (.inl rfl)).events_eq
  have hblock : Reads t (j + 1) (events (⟨'{' :: inside, true, 0⟩ :: outer) inside) (events outer)
      (fun m => SpellsBlock (m, .empty)) r := by
    refine hreads.append hend ?_
    intro m more hm outer
    simp [addEvent, hm .empty outer]
  refine ⟨r.map fun p => (p.1, p.2), by rw [hr]; cases r <;> rfl, ?_⟩
  refine hblock.prepend (f := fun m => m) hevents (by omega) ?_
  intro m more hm outer
  simp [hm outer, addEvent]

theorem alternate_of {outer : List Block} (h : ∀ j, i < j → j ≤ t.size → Parses t j)
    (hs : t.suffix? i = some u) (ha : block.isAlternate = false) (hd : block.depth = 0) :
    ∃ r, alternate t i = done r ∧ Reads t i (events (block :: outer) ('}' :: u)) (events outer)
      (fun m => SpellsBlock (.empty, m)) r := by
  have hafter := afterBlock hs
  generalize alternate t i = attempt at hafter ⊢
  cases hafter
  case ends he => exact ⟨_, rfl, reads_closes hs hd he⟩
  case fails he hp henter =>
    exact ⟨_, rfl, .fails (events_of_error (by
      simp [nextEvent, hd, leaveBlock, ha, he, hp, henter]))⟩
  case conditional rest paren condition inside brace he hp henter hi hb =>
    have hsize := Text.lt_size_of_suffix? hb
    obtain ⟨r, hr, hreads⟩ := (h brace hi (by omega)).branches inside outer hb
    have hevents : events (block :: outer) ('}' :: u) =
        (events (⟨'{' :: inside, false, 0⟩ :: outer) inside).map ([.orElseIf condition] ++ ·) :=
      (Step.orElseIf hd ha he hp henter).events_eq
    refine ⟨r.map fun p => (.conditional condition p.1.1 p.1.2 .empty, p.2),
      by rw [hr]; cases r <;> rfl, ?_⟩
    refine hreads.prepend (f := fun m => Markup.conditional condition m.1 m.2 .empty)
      hevents (by omega) ?_
    intro m more hm outer
    simp [hm outer, addEvent]
  case missing rest he hp hbrace =>
    have hleave : leaveBlock block outer u = .error ⟨.alternateExpected, rest.skipSpace⟩ := by
      simp only [leaveBlock, ha, he, hp, Bool.false_eq_true, if_false]
      split
      case h_1 hinside => simp [hinside] at hbrace
      case h_2 => rfl
    exact ⟨_, rfl, .fails (events_of_error (by simp [nextEvent, hd, hleave]))⟩
  case block rest inside brace he hp hinside hi hb =>
    have hstep :
        Step (block :: outer) ('}' :: u) .orElse (⟨'{' :: inside, true, 0⟩ :: outer) inside :=
      .orElse hd ha he hinside
    exact reads_alternate (h _ (by omega) (Text.lt_size_of_suffix? hb)) hb (Nat.le_of_lt hi) hstep

end Steps

theorem parses (t : Text) (i : Nat) : Parses t i := by
  induction hn : t.size - i using Nat.strongRecOn generalizing i
  case ind n ih =>
  have hlater (j : Nat) (hj : i < j) (hle : j ≤ t.size) : Parses t j := ih _ (by omega) j rfl
  exact ⟨fun _ _ _ => nodes_of hlater, fun _ blocks hs => branches_of hlater hs blocks,
    fun _ _ _ => alternate_of hlater⟩

-- The markup of a text, or its error, is what the cursor finds, and no check fails.
theorem parse_eq (t : Text) : parse t = done (Markup.parse t) := by
  obtain ⟨r, hr, hreads⟩ := (parses t 0).nodes t [] 0 t.suffix?_zero (by simp)
  simp only [List.head?_nil, Option.map_none] at hr
  rw [parse, Markup.parse, hr]
  cases hreads
  case fails hnow => rw [hnow]; rfl
  case reads hnow hm =>
    rw [hnow, ending]
    simp [Except.map, ofEvents, hm .empty []]

end Componentry.Cursor
