import Componentry.Proofs.Cursor.Body
import Componentry.Proofs.Cursor.Lines
import Componentry.Proofs.Cursor.Places
import Componentry.Proofs.Static.Sums

/-!
Expressions evaluated by byte offset. The text is cut at offsets of its top level, and each part is
evaluated in turn. Every byte that is looked at, every slice and every part is checked on the way: a
part has to be shorter than its text. No check fails on any text, and the value is the value of the
expression.
-/
namespace Componentry.Cursor

open Code Static

def previous (t : Text) (i : Nat) : Checked Char := do
  let n ← minus i 1
  index t n

def isQuestion (t : Text) (i : Nat) : Checked Bool := do
  let c ← index t i
  if c ≠ '?' || t.code? (i + 1) = some '?' || t.code? (i + 1) = some '.' then return false
  else if i = 0 then return true
  else
    let d ← previous t i
    return d ≠ '?'

def isColon (t : Text) (question i : Nat) : Checked Bool := do
  if question < i then
    let c ← index t i
    return c = ':'
  else return false

def ternary (t : Text) : Checked (Option (Text × Text × Text)) := do
  let offsets ← topLevel t 0 0
  match ← firstAccepted (isQuestion t) offsets with
  | none => return none
  | some question =>
    match ← firstAccepted (isColon t question) offsets with
    | none => return none
    | some colon =>
      let condition ← slice t 0 question
      let yes ← slice t (question + 1) colon
      let no ← sliceFrom t (colon + 1)
      return some (condition, yes, no)

def operandsAt (t : Text) (operator : Operator) (i : Nat) : Checked (Option (Text × Text)) := do
  let rest ← sliceFrom t i
  if !operator.symbol.isPrefixOf rest || i = 0 then return none
  else
    let c ← previous t i
    let next := t.code? (i + operator.symbol.size)
    if c = '=' || c = '!' || c = '<' || c = '>' || next = some '=' then return none
    else if (operator.symbol = ['>'] || operator.symbol = ['<']) && next = some '>' then return none
    else
      let left ← slice t 0 i
      let right ← sliceFrom t (i + operator.symbol.size)
      if left.trim = [] || right.trim = [] then return none else return some (left, right)

def firstFound {α β : Type} (look : α → Checked (Option β)) : List α → Checked (Option β)
  | [] => return none
  | a :: more => do
    match ← look a with
    | some b => return some b
    | none => firstFound look more

def binary (t : Text) (row : List Operator) : Checked (Option (Operator × Text × Text)) := do
  let offsets ← topLevel t 0 0
  firstFound (fun i => firstFound (fun operator => do
    let operands ← operandsAt t operator i
    return operands.map (operator, ·)) row) offsets.reverse

def loosest (t : Text) : Checked (Option (Operator × Text × Text)) :=
  firstFound (binary t) Operator.rows

def withoutEnds (t : Text) : Checked Text := do
  let stop ← minus t.size 1
  slice t 1 stop

def content (t : Text) : Checked (Option Text) := do
  let s := t.trim
  if s.size < 2 then return none
  else if isBetween s '"' || isBetween s '\'' then
    let inner ← withoutEnds s
    return some (unescape inner)
  else if isBetween s '`' then
    let inner ← withoutEnds s
    if hasSubstitution inner then return none else return some (unescape inner)
  else return none
where
  isBetween (s : Text) (quote : Char) : Bool :=
    s.head? = some quote && s.getLast? = some quote

def pluses (t : Text) : List Nat → Checked (List Nat)
  | [] => return []
  | i :: more => do
    let c ← index t i
    let later ← pluses t more
    return if c = '+' then i :: later else later

def add (total : Total) (operand value : Text) : Checked Total :=
  match total with
  | .text joined => return .text (joined ++ value)
  | .number sum isEmpty =>
    let joined := (if isEmpty then [] else Decimal.write sum) ++ value
    match Decimal.read? value with
    | none => return .text joined
    | some x => do
      match ← content operand with
      | none => return .number (sum + x) false
      | some _ => return .text joined

section Values

-- `inner` evaluates the parts.
variable (inner : Text → Checked (Option Text))

def choice (t : Text) : Checked (Option Text) := do
  match ← ternary t with
  | none => return none
  | some (condition, yes, no) =>
    match ← inner condition with
    | none => return none
    | some value => if isTruthy value then inner yes else inner no

def operation (operator : Operator) (left right : Text) : Checked (Option Text) := do
  match ← inner left with
  | none => return none
  | some l =>
    match operator with
    | .or => if isTruthy l then return some l else inner right
    | .and => if isTruthy l then inner right else return some l
    | .comparison _ kind =>
      let r ← inner right
      return r.map fun r => ofBool (kind.holds l r)

def sumFrom (t : Text) (last : Nat) (total : Total) : List Nat → Checked (Option Total)
  | [] => return some total
  | i :: more => do
    let operand ← slice t last i
    match ← inner operand with
    | none => return none
    | some value =>
      let total ← add total operand value
      sumFrom t (i + 1) total more

def sum (t : Text) : Checked (Option Text) := do
  let offsets ← topLevel t 0 0
  let cuts ← pluses t offsets
  if cuts = [] then return none
  else
    let total ← sumFrom inner t 0 (.number 0 true) (cuts ++ [t.size])
    return total.map Total.value

def leaf (scope : Scope) (t : Text) : Checked (Option Text) := do
  match ← content t with
  | some text => return some text
  | none =>
    match Decimal.read? t with
    | some x => return some (Decimal.write x)
    | none =>
      if keywords.contains t then return some t
      else if isName t then return scope.get? t
      else return none

def evalWith (scope : Scope) (t : Text) : Checked (Option Text) :=
  match statement t with
  | [] => return some []
  | c :: rest =>
    match parenthesized? (c :: rest) with
    | some u => inner u
    | none => do
      match ← choice inner (c :: rest) with
      | some value => return some value
      | none =>
        match ← loosest (c :: rest) with
        | some (operator, left, right) => operation inner operator left right
        | none =>
          match ← sum inner (c :: rest) with
          | some value => return some value
          | none =>
            if c = '!' then
              let value ← inner rest
              return value.map fun value => ofBool (!isTruthy value)
            else leaf scope (c :: rest)

end Values

def eval (scope : Scope) (t : Text) : Checked (Option Text) :=
  evalWith (fun u => if _ : u.length < t.length then eval scope u else throw .stuck) scope t
termination_by t.length

section Searches

variable {α β γ : Type} {f : α → γ} {l : List α}

theorem firstFound_map {look : γ → Checked (Option β)} {g : α → Option β}
    (h : ∀ a ∈ l, look (f a) = .ok (g a)) : firstFound look (l.map f) = .ok (l.findSome? g) := by
  induction l
  case nil => rfl
  case cons a l ih =>
    obtain ⟨ha, hl⟩ := List.forall_mem_cons.mp h
    rw [List.map_cons, firstFound, ha, ok_bind, ih hl, List.findSome?_cons]
    cases g a <;> rfl

theorem firstFound_eq {look : α → Checked (Option β)} {g : α → Option β}
    (h : ∀ a ∈ l, look a = .ok (g a)) :
    firstFound look l = .ok (l.findSome? g) := by
  simpa using firstFound_map (f := id) h

theorem firstAccepted_map {accept : Nat → Checked Bool} {f : α → Nat} {test : α → Bool}
    (h : ∀ a ∈ l, accept (f a) = .ok (test a)) :
    firstAccepted accept (l.map f) = .ok ((l.find? test).map f) := by
  induction l
  case nil => rfl
  case cons a l ih =>
    obtain ⟨ha, hl⟩ := List.forall_mem_cons.mp h
    rw [List.map_cons, firstAccepted, ha, ok_bind, ih hl]
    cases ht : test a <;> simp [ht]

end Searches

section Bytes

variable {t : Text} {p : Place} {x : Char}

theorem index_offset (hp : p ∈ places t) : ∃ d, index t p.offset = .ok d ∧
    ∀ x : Char, x.toNat < 128 → (d = x ↔ p.after.head? = some x) := by
  cases hd : t.code? p.offset
  case none => exact absurd (offset_lt_size hp) (Nat.not_lt_of_le (Text.code?_eq_none_iff.mp hd))
  case some d =>
    refine ⟨d, index_eq hd, fun x hx => ?_⟩
    rw [← Text.code?_eq_some_iff_head? (suffix?_offset hp) hx, hd, Option.some.injEq]

theorem previous_offset (hp : p ∈ places t) (h : p.offset ≠ 0) : ∃ d, previous t p.offset = .ok d ∧
    ∀ x : Char, x.toNat < 128 → (d = x ↔ p.before.head? = some x) := by
  have hpos : 0 < p.offset := Nat.pos_of_ne_zero h
  have hlt := offset_lt_size hp
  cases hd : t.code? (p.offset - 1)
  case none =>
    have hle := Text.code?_eq_none_iff.mp hd
    omega
  case some d =>
    refine ⟨d, by rw [previous, minus_eq hpos, ok_bind, index_eq hd], fun x hx => ?_⟩
    have hclass : OnlyAscii (· = x) := fun c hc => decide_eq_false (hc.ne hx)
    have hpred := Text.any_code?_pred hclass p.before.reverse p.after
    rw [before_append_after hp, ← Place.offset, if_pos hpos, hd, List.getLast?_reverse] at hpred
    cases hb : p.before.head? <;> simp_all

end Bytes

section Forms

variable {t : Text} {p question : Place}

theorem isQuestion_eq (hp : p ∈ places t) :
    isQuestion t p.offset = .ok (ternary?.isQuestion p) := by
  obtain ⟨d, hd, hhere⟩ := index_offset hp
  rw [isQuestion, hd, ok_bind, ternary?.isQuestion]
  by_cases hc : p.after.head? = some '?'
  case neg => simp [hc, mt (hhere '?' (by decide)).mp hc]
  case pos =>
    obtain rfl := (hhere '?' (by decide)).mpr hc
    have hcode (x : Char) (hx : x.toNat < 128) :=
      Text.code?_eq_some_iff_head? (suffix?_tail hp (by decide) hc) hx
    simp only [hcode '?' (by decide), hcode '.' (by decide)]
    generalize p.after.tail.head? = next
    by_cases hjoined : next = some '?' ∨ next = some '.'
    case pos => rcases hjoined with hj | hj <;> simp [hj]
    case neg =>
    obtain ⟨hfirst, hsecond⟩ := not_or.mp hjoined
    by_cases hzero : p.offset = 0
    case pos => simp [hc, hfirst, hsecond, hzero, offset_eq_zero_iff.mp hzero]
    case neg =>
      obtain ⟨e, he, hbefore⟩ := previous_offset hp hzero
      simp [hc, hfirst, hsecond, hzero, he, hbefore]

theorem isColon_eq (hp : p ∈ places t) : isColon t question.offset p.offset =
    .ok (question.offset < p.offset && p.after.head? = some ':') := by
  obtain ⟨d, hd, hhere⟩ := index_offset hp
  rw [isColon, hd, ok_bind]
  by_cases hlt : question.offset < p.offset
  case neg => simp [hlt]
  case pos => simp [hlt, hhere ':' (by decide)]

theorem slice_before (hp : p ∈ places t) : slice t 0 p.offset = .ok p.before.reverse := by
  refine slice_eq_ok_iff.mpr ⟨p.after, ?_, (Nat.zero_add _).symm⟩
  rw [before_append_after hp]
  exact Text.suffix?_zero t

theorem find?_colon {earlier later : List Place} (h : places t = earlier ++ question :: later) :
    (places t).find? (fun p => question.offset < p.offset && p.after.head? = some ':') =
      later.find? (·.after.head? = some ':') := by
  obtain ⟨hearlier, hlater⟩ := precedes_of_places h
  have hnone : (earlier ++ [question]).find?
      (fun p => question.offset < p.offset && p.after.head? = some ':') = none := by
    refine List.find?_eq_none.mpr fun p hp => ?_
    rcases List.mem_append.mp hp with hp | hp
    case inl =>
      have hlt := (hearlier p hp).offset_lt
      simp [Nat.not_lt_of_lt hlt]
    case inr => simp [List.mem_singleton.mp hp]
  rw [h, List.append_cons, List.find?_append, hnone, Option.none_or]
  refine List.find?_congr fun p hp => ?_
  simp [(hlater p hp).offset_lt]

theorem slice_between {colon : Place} (hq : question ∈ places t)
    (hmark : question.after.head? = some '?')
    (h : question.Precedes colon) : slice t (question.offset + 1) colon.offset =
      .ok (colon.before.take (colon.before.length - question.before.length - 1)).reverse := by
  obtain ⟨c, between, hafter, hbefore⟩ := h
  have hnext := suffix?_tail hq (by decide) hmark
  rw [hafter, List.tail_cons] at hnext
  obtain rfl : c = '?' := by simpa [hafter] using hmark
  have hlength : colon.before.length - question.before.length - 1 = between.reverse.length := by
    simp only [hbefore, List.length_append, List.length_cons]
    omega
  rw [hlength, hbefore, List.take_left, List.reverse_reverse]
  refine slice_eq_ok_iff.mpr ⟨colon.after, hnext, ?_⟩
  simp [Place.offset, hbefore, Nat.add_assoc]
  rfl

theorem ternary_eq (t : Text) : ternary t = .ok (ternary? t) := by
  rw [ternary, topLevel_places, ok_bind, firstAccepted_map fun p hp => isQuestion_eq hp,
    ok_bind, ternary?]
  cases hfind : (places t).find? ternary?.isQuestion
  case none =>
    have hdrop : (places t).dropWhile (fun p => !ternary?.isQuestion p) = [] :=
      List.dropWhile_eq_nil_iff.mpr (by simpa using hfind)
    rw [hdrop]
    rfl
  case some question =>
    obtain ⟨hquestion, earlier, later, hplaces, hearlier⟩ := List.find?_eq_some_iff_append.mp hfind
    have hdrop : (places t).dropWhile (fun p => !ternary?.isQuestion p) = question :: later := by
      rw [hplaces, List.dropWhile_append_of_pos hearlier,
        List.dropWhile_cons_of_neg (by simpa using hquestion)]
    have hq : question ∈ places t := List.mem_of_find?_eq_some hfind
    simp only [hdrop, Option.map_some]
    rw [firstAccepted_map fun p hp => isColon_eq hp, ok_bind, find?_colon hplaces]
    cases hcolon : later.find? (·.after.head? = some ':')
    case none => rfl
    case some colon =>
      have hc : colon ∈ later := List.mem_of_find?_eq_some hcolon
      have hmember : colon ∈ places t := by simp [hplaces, hc]
      have hprecedes := (precedes_of_places hplaces).2 colon hc
      have hmark : question.after.head? = some '?' := by
        simp only [ternary?.isQuestion, Bool.and_eq_true, decide_eq_true_eq] at hquestion
        exact hquestion.1.1.1
      have hsign : colon.after.head? = some ':' := by simpa using List.find?_some hcolon
      simp only [Option.map_some, slice_before hq, slice_between hq hmark hprecedes,
        sliceFrom_eq (suffix?_tail hmember (by decide) hsign), ok_bind, pure_eq_ok]

theorem operandsAt_eq (hp : p ∈ places t) (operator : Operator) :
    operandsAt t operator p.offset = .ok (operandsAt? p operator) := by
  have hs := suffix?_offset hp
  rw [operandsAt, sliceFrom_eq hs, ok_bind, operandsAt?]
  cases hstrip : p.after.stripStart? operator.symbol
  case none =>
    have hstart : operator.symbol.isPrefixOf p.after = false := by
      rw [← Bool.not_eq_true, List.isPrefixOf_iff_prefix]
      rintro ⟨right, hright⟩
      simp [Text.stripStart?_eq_some_iff.mpr hright.symm] at hstrip
    simp [hstart]
  case some right =>
    have hafter := Text.stripStart?_eq_some_iff.mp hstrip
    have hstart : operator.symbol.isPrefixOf p.after := by simp [hafter]
    have hright : t.suffix? (p.offset + operator.symbol.size) = some right :=
      Text.suffix?_add_size (hafter ▸ hs)
    by_cases hzero : p.offset = 0
    case pos => simp [hzero, offset_eq_zero_iff.mp hzero]
    case neg =>
      obtain ⟨d, hd, hbefore⟩ := previous_offset hp hzero
      have hne := mt offset_eq_zero_iff.mpr hzero
      have hjoined : (d = '=' || d = '!' || d = '<' || d = '>') =
          p.before.head?.any fun c => c = '=' || c = '!' || c = '<' || c = '>' := by
        cases hhead : p.before.head? <;> simp_all
      have hleft : Text.trim p.before.reverse = [] ↔ p.before.all isBlank := by
        simp [Text.trim_eq_nil_iff]
      have hrest : right.trim = [] ↔ right.all isBlank := by simp [Text.trim_eq_nil_iff]
      have hcode (x : Char) (hx : x.toNat < 128) := Text.code?_eq_some_iff_head? hright hx
      simp only [hstart, hzero, hd, hjoined, hcode '=' (by decide), hcode '>' (by decide),
        slice_before hp, sliceFrom_eq hright, hleft, hrest, ok_bind, Option.bind_eq_bind,
        Option.bind_some]
      generalize (p.before.head?.any fun c => c = '=' || c = '!' || c = '<' || c = '>') = joined
      generalize p.before.all isBlank = leftBlank, right.all isBlank = rightBlank
      split_ifs <;> simp_all

theorem binary_eq (t : Text) (row : List Operator) : binary t row = .ok (binary? row t) := by
  rw [binary, topLevel_places, ok_bind, ← List.map_reverse]
  refine firstFound_map fun p hp => firstFound_eq fun operator _ => ?_
  rw [operandsAt_eq (List.mem_reverse.mp hp), ok_bind]
  rfl

theorem loosest_eq (t : Text) : loosest t = .ok (loosest? t) :=
  firstFound_eq fun row _ => binary_eq t row

theorem isBetween_concat (c d quote : Char) (inner : Text) :
    content.isBetween (c :: (inner ++ [d])) quote = (c = quote && d = quote) := by
  have hlast : (c :: (inner ++ [d])).getLast? = some d := by
    rw [← List.cons_append, List.getLast?_concat]
  simp [content.isBetween, hlast]

theorem withoutEnds_quoted {quote : Char} (hq : isQuote quote) (inner : Text) :
    withoutEnds (quote :: (inner ++ [quote])) = .ok inner := by
  have hx := onlyAscii_isQuote.toNat_lt hq
  rw [withoutEnds, minus_eq (by simp [utf8Size_of_ascii hx]), ok_bind]
  refine slice_eq_ok_iff.mpr ⟨[quote], Text.suffix?_succ hx (Text.suffix?_zero _), ?_⟩
  simp [utf8Size_of_ascii hx, Nat.add_comm]

theorem content_eq (t : Text) : content t = .ok (string? t) := by
  rw [content, string?]
  cases t.trim
  case nil => rfl
  case cons c rest =>
    rcases rest.eq_nil_or_concat' with rfl | ⟨inner, d, rfl⟩
    case inl =>
      -- One character has two bytes or more only if it is no quote.
      by_cases hx : c.toNat < 128
      case pos => simp [utf8Size_of_ascii hx]
      case neg =>
        have hw : IsWide c := Nat.le_of_not_lt hx
        simp [content.isBetween, hw.ne]
    case inr =>
      have hsize : ¬ Text.size (c :: (inner ++ [d])) < 2 := by
        have hpos := c.utf8Size_pos
        have hpos' := d.utf8Size_pos
        simp
        omega
      simp only [if_neg hsize, isBetween_concat, List.getLast?_concat, List.dropLast_concat]
      by_cases hq : isQuote c ∧ d = c
      case neg =>
        have hno (q : Char) (h : isQuote q) : (decide (c = q) && decide (d = q)) = false := by
          by_contra hb
          obtain ⟨rfl, rfl⟩ : c = q ∧ d = q := by simpa using hb
          exact hq ⟨h, rfl⟩
        have hneither : (isQuote c && decide (some d = some c)) = false := by simpa using hq
        rw [hno '"' rfl, hno '\'' rfl, hno '`' rfl, hneither]
        rfl
      case pos =>
        obtain ⟨hc, rfl⟩ := hq
        simp only [withoutEnds_quoted hc, ok_bind]
        simp only [isQuote, Bool.or_eq_true, decide_eq_true_eq] at hc
        rcases hc with (rfl | rfl) | rfl
        · simp [isQuote]
        · simp [isQuote]
        · cases hasSubstitution inner <;> simp [isQuote]

theorem pluses_eq {ps : List Place} (h : ∀ p ∈ ps, p ∈ places t) : pluses t (ps.map Place.offset) =
    .ok ((ps.filter (·.after.head? = some '+')).map Place.offset) := by
  induction ps
  case nil => rfl
  case cons p ps ih =>
    obtain ⟨hp, hps⟩ := List.forall_mem_cons.mp h
    obtain ⟨d, hd, hhere⟩ := index_offset hp
    rw [List.map_cons, pluses, hd, ok_bind, ih hps, ok_bind, List.filter_cons]
    by_cases hplus : p.after.head? = some '+'
    case pos => simp [hplus, (hhere '+' (by decide)).mpr hplus]
    case neg => simp [hplus, mt (hhere '+' (by decide)).mp hplus]

theorem add_eq (total : Total) (operand value : Text) :
    add total operand value = .ok (total.add operand value) := by
  unfold add Total.add
  cases total
  case text joined => rfl
  case number sum isEmpty =>
    cases Decimal.read? value
    case none => rfl
    case some x =>
      simp only [content_eq, ok_bind]
      cases string? operand <;> rfl

end Forms

section Values

variable {inner : Text → Checked (Option Text)} {scope : Scope} {t : Text}

theorem choice_eq (h : ∀ u, u.length < t.length → inner u = .ok (Static.eval scope u)) :
    choice inner t = .ok (chosen? scope (ternary? t)) := by
  rw [choice, ternary_eq, ok_bind]
  cases ht : ternary? t
  case none => rfl
  case some parts =>
    obtain ⟨condition, yes, no⟩ := parts
    obtain ⟨hc, hy, hn⟩ := length_ternary?_lt ht
    simp only [h condition hc, h yes hy, h no hn, ok_bind, chosen?]
    cases Static.eval scope condition
    case none => rfl
    case some value => simp only [apply_ite Except.ok]

theorem operation_eq {operator : Operator} {left right : Text}
    (hl : inner left = .ok (Static.eval scope left))
    (hr : inner right = .ok (Static.eval scope right)) :
    operation inner operator left right = .ok ((Static.eval scope left).bind fun l =>
      operator.combine? l (Static.eval scope right)) := by
  rw [operation, hl, ok_bind]
  cases Static.eval scope left
  case none => rfl
  case some l =>
    cases operator
    case or => simp [hr, Operator.combine?, apply_ite Except.ok]
    case and => simp [hr, Operator.combine?, apply_ite Except.ok]
    case comparison => simp [hr, Operator.combine?]

def added? (scope : Scope) (total : Total) : List Text → Option Total
  | [] => some total
  | operand :: more =>
    (Static.eval scope operand).bind fun value => added? scope (total.add operand value) more

theorem added?_eq (scope : Scope) (total : Total) (operands : List Text) :
    added? scope total operands =
    (allKnown (operands.map (Static.eval scope))).map fun values =>
      (operands.zip values).foldl (fun total o => total.add o.1 o.2) total := by
  induction operands generalizing total
  case nil => rfl
  case cons operand more ih =>
    rw [added?, List.map_cons]
    cases Static.eval scope operand
    case none => rfl
    case some value => simp [allKnown, ih, Function.comp_def]

-- A piece of a sum is cut out from the offset after the last plus sign, which is `start` characters
-- in.
theorem slice_piece {p : Place} {start last : Nat} (hp : p ∈ places t)
    (hstart : start ≤ p.before.length)
    (hlast : t.suffix? last = some (t.drop start)) :
    slice t last p.offset = .ok (p.before.take (p.before.length - start)).reverse := by
  have hpiece : (p.before.take (p.before.length - start)).reverse =
      p.before.reverse.drop start := by
    rw [List.reverse_take, Nat.sub_sub_self hstart]
  have hdrop : t.drop start = p.before.reverse.drop start ++ p.after := by
    rw [← List.drop_append_of_le_length (by simpa using hstart), before_append_after hp]
  rw [hpiece]
  refine slice_eq_ok_iff.mpr ⟨p.after, hdrop ▸ hlast, ?_⟩
  have hsize := Text.add_size_of_suffix? hlast
  have hend := Text.add_size_of_suffix? (suffix?_offset hp)
  rw [hdrop, Text.size_append] at hsize
  omega

-- The plus signs that are left are all behind the start of the next piece.
theorem sumFrom_eq {ps : List Place} {start last : Nat} (total : Total)
    (h : ∀ u ∈ cutAt t start ps, inner u = .ok (Static.eval scope u))
    (hlast : t.suffix? last = some (t.drop start))
    (hp : ∀ p ∈ ps, p ∈ Static.pluses t ∧ start ≤ p.before.length)
    (horder : ps.Pairwise Place.Precedes) :
    sumFrom inner t last total (ps.map Place.offset ++ [t.size]) =
      .ok (added? scope total (cutAt t start ps)) := by
  induction ps generalizing start last total
  case nil =>
    have hend := sliceFrom_eq hlast
    rw [sliceFrom] at hend
    simp only [List.map_nil, List.nil_append, sumFrom, hend, h _ List.mem_cons_self,
      ok_bind, cutAt, added?]
    cases Static.eval scope (t.drop start) <;> simp [add_eq]
  case cons p ps ih =>
    rw [cutAt] at h
    obtain ⟨hfirst, hmore⟩ := List.forall_mem_cons.mp h
    obtain ⟨⟨hplus, hstart⟩, hplaces⟩ := List.forall_mem_cons.mp hp
    obtain ⟨hbefore, hlater⟩ := List.pairwise_cons.mp horder
    have hmember : p ∈ places t := (List.mem_filter.mp hplus).1
    have hsign : p.after.head? = some '+' := by simpa using (List.mem_filter.mp hplus).2
    have hnext := suffix?_tail hmember (by decide) hsign
    rw [tail_after hmember] at hnext
    simp only [List.map_cons, List.cons_append, sumFrom, slice_piece hmember hstart hlast, hfirst,
      ok_bind, cutAt, added?]
    cases Static.eval scope (p.before.take (p.before.length - start)).reverse
    case none => rfl
    case some value =>
      simp only [add_eq, ok_bind, Option.bind_some]
      exact ih _ hmore hnext (fun q hq => ⟨(hplaces q hq).1, (hbefore q hq).length_lt⟩) hlater

theorem sum_eq (h : ∀ u, u.length < t.length → inner u = .ok (Static.eval scope u)) :
    sum inner t = .ok (Static.total? scope (summands? t)) := by
  rw [sum, topLevel_places, ok_bind, pluses_eq fun p hp => hp, ok_bind, ← Static.pluses]
  by_cases hnone : Static.pluses t = []
  case pos => simp [summands?_eq, hnone, Static.total?]
  case neg =>
    have hs : summands? t = some (pieces t) := by rw [summands?_eq, if_neg hnone]
    have hsum :=
      sumFrom_eq (.number 0 true) (fun u hu => h u (length_summands?_lt hs hu))
        (Text.suffix?_zero t)
      (fun p hp => ⟨hp, Nat.zero_le _⟩) ((pairwise_places t).filter _)
    rw [if_neg (mt List.map_eq_nil_iff.mp hnone), hsum, ok_bind, hs, added?_eq, ← pieces]
    simp only [Static.total?, sumOf, Option.map_map, Function.comp_def, pure_eq_ok]

theorem leaf_eq (scope : Scope) (t : Text) : leaf scope t = .ok (Static.leaf scope t) := by
  unfold leaf Static.leaf
  rw [content_eq, ok_bind]
  cases string? t
  case some text => rfl
  case none =>
    cases Decimal.read? t
    case some x => rfl
    case none => simp only [pure_eq_ok, apply_ite Except.ok]

-- The forms are tried in the order of the evaluation of texts, and each takes shorter parts out of
-- the text.
theorem evalWith_eq (h : ∀ u, u.length < t.length → inner u = .ok (Static.eval scope u)) :
    evalWith inner scope t = .ok (Static.eval scope t) := by
  have hle := length_statement_le t
  rw [evalWith]
  cases hs : statement t
  case nil => simp [eval_of_statement_nil hs]
  case cons c rest =>
    rw [hs] at hle
    have hpart u (hu : u.length < (c :: rest).length) := h u (Nat.lt_of_lt_of_le hu hle)
    cases hp : parenthesized? (c :: rest)
    case some u =>
      simp only [hp, eval_parenthesized hs hp]
      exact hpart u (length_parenthesized?_lt hp)
    case none =>
      simp only [hp, Static.eval_eq hs hp, choice_eq hpart, loosest_eq, sum_eq hpart,
        leaf_eq, ok_bind]
      cases chosen? scope (ternary? (c :: rest))
      case some value => rfl
      case none =>
        cases hl : loosest? (c :: rest)
        case some parts =>
          obtain ⟨operator, left, right⟩ := parts
          obtain ⟨hleft, hright⟩ := length_loosest?_lt hl
          exact operation_eq (hpart left hleft) (hpart right hright)
        case none =>
          cases Static.total? scope (summands? (c :: rest))
          case some value => rfl
          case none =>
            simp only [hpart rest (Nat.lt_succ_self _), ok_bind]
            split_ifs <;> simp

theorem eval_eq (scope : Scope) (t : Text) : eval scope t = .ok (Static.eval scope t) := by
  induction hn : t.length using Nat.strongRecOn generalizing t
  case ind n ih =>
  rw [eval]
  refine evalWith_eq fun u hu => ?_
  rw [dif_pos hu]
  exact ih _ (hn ▸ hu) u rfl

end Values

def part (scope : Scope) (t u : Text) : Checked (Option Text) :=
  if u.length < t.length then eval scope u else throw .stuck

theorem part_eq {scope : Scope} {t u : Text} (h : u.length < t.length) :
    part scope t u = .ok (Static.eval scope u) := by
  rw [part, if_pos h, eval_eq]

-- A text is taken apart by offsets as it is by its places, each of which is between two characters.
structure PartsInBounds (t : Text) : Prop where
  offsets : topLevel t 0 0 = .ok ((places t).map Place.offset)
  offset_between : ∀ p ∈ places t, p.offset < t.size ∧ t.suffix? p.offset = some p.after
  operands : ∀ row, binary t row = .ok (binary? row t)
  string : content t = .ok (string? t)
  chosen : ∀ scope, choice (part scope t) t = .ok (chosen? scope (ternary? t))
  total : ∀ scope, sum (part scope t) t = .ok (Static.total? scope (summands? t))

theorem partsInBounds (t : Text) : PartsInBounds t where
  offsets := topLevel_places t
  offset_between _ hp := ⟨offset_lt_size hp, suffix?_offset hp⟩
  operands := binary_eq t
  string := content_eq t
  chosen _ := choice_eq fun _ => part_eq
  total _ := sum_eq fun _ => part_eq

-- No offset goes wrong in the evaluation of a text, whatever its characters, quotes and brackets:
-- no byte that is looked at and no slice is out of range or inside a character, every loop moves
-- on, and every part that is evaluated is shorter than the text it is a part of. The value found is
-- that of the expression.
theorem eval_checked : (∀ t, PartsInBounds t) ∧ ∀ scope t,
    eval scope t = .ok (Static.eval scope t) :=
  ⟨partsInBounds, eval_eq⟩

end Componentry.Cursor
