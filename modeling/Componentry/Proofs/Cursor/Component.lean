import Componentry.Proofs.Component.Declaration
import Componentry.Proofs.Cursor.Body
import Componentry.Proofs.Cursor.Lines
import Componentry.Proofs.Text.Matches

/-!
A component read by a cursor, from the words of its declaration to its markup. No check of an offset
fails on the way, whatever the text of the file.
-/
namespace Componentry.Cursor

open Code

def headerAt (source : Text) (kind : Kind) (name : Text) (start stop : Nat) :
    Checked (Option Header) := do
  if ← isCodeAt source start then
    let paren ← minus stop 1
    match ← closer source paren with
    | none => return none
    | some close =>
      let brace ← skipSpace source (close + 1)
      if source.code? brace = some '{' then
        let parameters ← slice source (paren + 1) close
        return some ⟨kind, name, parameters, brace + 1⟩
      else return none
  else return none

def firstHeader (source : Text) : List (Text × Kind × Text × Text) → Checked (Option Header)
  | [] => return none
  | (t, kind, name, paren) :: more => do
    match ← headerAt source kind name (source.offset t) (source.offset paren + 1) with
    | some header => return some header
    | none => firstHeader source more

def extract (source : Text) : Attempt Problem Header := do
  match ← firstHeader source (source.occurrences Header.words?) with
  | some header => return header
  | none => throw ⟨.invalidHeader, 0, none⟩

def read (source : Text) : Attempt Problem Component := do
  let header ← extract source
  let body ← split source header.bodyStart
  let argument ← trimBlankLines body.argument
  let markup ← (parse argument).adapt fun e =>
    ⟨.malformedRender, body.renderOffset, some e.cause.message⟩
  return ⟨header, body, markup⟩

def analyze (file source : Text) : Attempt CompileError Component := do
  match ← (read source).run with
  | .ok component => return component
  | .error problem =>
    let place ← location source problem.offset
    throw ⟨problem.fault, file, place, problem.context⟩

section Header

variable {source rest name : Text} {kind : Kind}

theorem headerAt_eq (t : Text) (h : '(' :: rest <:+ source) :
    headerAt source kind name (source.offset t) (source.offset ('(' :: rest) + 1) =
      .ok (Header.complete? source (t, kind, name, '(' :: rest)) := by
  have hparen := Text.suffix?_offset h
  rw [headerAt, isCodeAt_eq, ok_bind, Header.complete?]
  split_ifs
  case neg => rfl
  rw [minus_eq (by omega), ok_bind, Nat.add_sub_cancel, closer_eq, ok_bind, closer?_eq hparen]
  cases hgroup : group? ('(' :: rest)
  case none => rfl
  case some p =>
    obtain ⟨parameters, after⟩ := p
    obtain ⟨_, d, hd, rfl⟩ := exists_isCloser hgroup
    have hinside := Text.suffix?_succ (by decide) hparen
    have hcloser := Text.suffix?_add_size hinside
    have hbrace := suffix?_skipSpace (Text.suffix?_succ (onlyAscii_isCloser.toNat_lt hd) hcloser)
    simp only [Option.map_some, skipSpace_eq, ok_bind, slice_eq hinside,
      Text.code?_eq_some_iff_head? hbrace (by decide : '{'.toNat < 128), Option.bind_eq_bind,
      Option.bind_some]
    by_cases hhead : (Text.skipSpace after).head? = some '{'
    case pos =>
      obtain ⟨statements, hspace⟩ := List.head?_eq_some_iff.mp hhead
      rw [hspace] at hbrace ⊢
      rw [List.head?_cons, if_pos rfl, ← Text.offset_of_suffix?
        (Text.suffix?_succ (by decide) hbrace)]
      rfl
    case neg =>
      rw [if_neg hhead, pure_eq_ok]
      split
      case h_1 hspace => simp [hspace] at hhead
      case h_2 => rfl

theorem firstHeader_eq {l : List (Text × Kind × Text × Text)}
    (h : ∀ w ∈ l, ∃ rest, w.2.2.2 = '(' :: rest ∧ '(' :: rest <:+ source) :
    firstHeader source l = .ok (l.findSome? (Header.complete? source)) := by
  induction l
  case nil => rfl
  case cons w l ih =>
    obtain ⟨⟨rest, hparen, hs⟩, hl⟩ := List.forall_mem_cons.mp h
    obtain ⟨t, kind, name, paren⟩ := w
    dsimp only at hparen
    subst hparen
    rw [firstHeader, headerAt_eq t hs, ok_bind, List.findSome?_cons]
    cases Header.complete? source (t, kind, name, '(' :: rest)
    case none => exact ih hl
    case some => rfl

theorem extract_eq (source : Text) : extract source = done (Header.extract source) := by
  have hwords : ∀ w ∈ source.occurrences Header.words?, ∃ rest, w.2.2.2 = '(' :: rest ∧
      '(' :: rest <:+ source := by
    intro w hw
    obtain ⟨before, u, length, hs, hp⟩ := Text.exists_of_mem_occurrences hw
    obtain ⟨kind, name, lead, rest, _, rfl, rfl, _⟩ := Header.exists_lead_of_words? hp
    exact ⟨rest, rfl, (List.suffix_append _ _).trans ⟨before, hs.symm⟩⟩
  have hfirst : (source.occurrences Header.words?).findSome? (Header.complete? source) =
      Header.find? source :=
    Header.findSome?_occurrences [] source (by simp)
  rw [extract, firstHeader_eq hwords, lift_bind, hfirst, Header.extract]
  cases Header.find? source <;> rfl

theorem suffix?_bodyStart {header : Header} (h : Header.extract source = .ok header) :
    ∃ statements, source.suffix? header.bodyStart = some statements := by
  obtain ⟨_, before, after, lead, closer, space, statements, hd, _⟩ :=
    Header.exists_candidate_of_extract h
  refine ⟨statements, ?_⟩
  rw [hd.bodyStart_eq]
  apply Text.suffix?_offset
  rw [hd.source_eq, hd.after_eq]
  refine ⟨before ++ lead ++ '(' :: (header.parameters ++ closer :: (space ++ ['{'])), ?_⟩
  simp

end Header

theorem done_bind_eq {ε α β : Type} {r : Except ε α} {f : α → Attempt ε β} {g : α → Except ε β}
    (h : ∀ a, r = .ok a → f a = done (g a)) : (done r >>= f) = done (r >>= g) := by
  cases r
  case error e => rfl
  case ok a => exact h a rfl

theorem read_eq (source : Text) : read source = done (Component.read source) := by
  rw [read, extract_eq, Component.read]
  refine done_bind_eq fun header hheader => ?_
  obtain ⟨statements, hs⟩ := suffix?_bodyStart hheader
  rw [split_eq hs]
  refine done_bind_eq fun body _ => ?_
  rw [trimBlankLines_eq, lift_bind, parse_eq]
  cases Markup.parse body.argument.trimBlankLines <;> rfl

theorem analyze_eq (file source : Text) : analyze file source =
    done (Component.analyze file source) := by
  rw [analyze, read_eq, Component.analyze]
  cases Component.read source
  case ok component => rfl
  case error problem =>
    rw [done, ExceptT.run_mk, lift_bind]
    dsimp only
    rw [location_eq, lift_bind]
    rfl

-- The operations at an offset, which may be past the end of the text or inside a character. Each of
-- them finds what there is without a failed check, and what it finds is in the text.
structure InBounds (t : Text) (i : Nat) : Prop where
  space : skipSpace t i = .ok (skipSpaceAt t i)
  identifier : identifierEnd t i = .ok (Code.identifierEnd t i)
  code : isCodeAt t i = .ok (Code.isCodeAt t i)
  literal : literalEnd t i = .ok (literalEnd? t i)
  literal_end : ∀ n, literalEnd? t i = some n → i < n ∧ n ≤ t.size ∧ (t.suffix? n).isSome
  group : closer t i = .ok (closer? t i)
  group_end : ∀ n, closer? t i = some n → i < n ∧ n < t.size ∧ ∃ c, t.code? n = some c ∧ isCloser c
  condition : conditionAt t i = .ok (Markup.conditionAt? t i)
  condition_start : ∀ n, Markup.conditionAt? t i = some n → i < n ∧ t.code? n = some '('
  block : ∀ accept : Nat → Bool, closeAt t i (fun n => .ok (accept n)) =
    .ok (Markup.closeAt? t i accept)
  block_end : ∀ (accept : Nat → Bool) n, Markup.closeAt? t i accept = some n → t.code? n = some '}'

theorem inBounds (t : Text) (i : Nat) : InBounds t i where
  space := skipSpace_eq t i
  identifier := identifierEnd_eq t i
  code := isCodeAt_eq t i
  literal := literalEnd_eq t i
  literal_end _ := lt_of_literalEnd?
  group := closer_eq t i
  group_end _ := lt_of_closer?
  condition := conditionAt_eq t i
  condition_start _ := code?_conditionAt?
  block accept := by
    have hclose := @closeAt_eq t (fun brace => accept (t.offset brace)) (fun n => .ok (accept n)) i
      fun j rest _ hs => by rw [Text.offset_of_suffix? hs]
    rw [hclose, Markup.closeAt?]
    cases Markup.close? (fun brace => accept (t.offset brace)) 0 (t.dropBytes i) <;> rfl
  block_end _ _ := code?_closeAt?

-- No offset goes wrong in the analysis of a file: not one of its slices is out of range or inside a
-- character, no count gets below zero, and every loop moves on. What the cursor finds is the
-- component of the file.
theorem analyze_checked : (∀ t i, InBounds t i) ∧
    ∀ file source, analyze file source = done (Component.analyze file source) :=
  ⟨inBounds, analyze_eq⟩

end Componentry.Cursor
