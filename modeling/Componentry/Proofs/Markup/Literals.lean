import Componentry.Markup.Preview
import Componentry.Proofs.Json.Quoted
import Componentry.Proofs.Markup.Structure

/-!
The values of string literals and of templates without substitutions, as the host language defines
them. A value is a list of UTF-16 code units, since an escape sequence can denote half of a
surrogate pair. Main statement: text alone becomes a template with the value of the text where each
carriage return, or carriage return and line feed, is a line feed, while the same text in a
conditional becomes a string with the value of the text itself, which is also the preview. So the
three agree if and only if the text has no carriage return.
-/
namespace Componentry.Literal

open Markup
open Text (quotedChar hexDigit)

def units (n : Nat) : List Nat :=
  if n < 0x10000 then [n] else [0xD800 + (n - 0x10000) / 0x400, 0xDC00 + (n - 0x10000) % 0x400]

def utf16 (t : Text) : List Nat :=
  t.flatMap fun c => units c.toNat

def number? (digits : Text) : Option Nat :=
  digits.foldlM (fun n d => (Json.hexValue? d).map (16 * n + ·)) 0

def fixed? (size : Nat) (t : Text) : Option (List Nat × Text) :=
  if t.length < size then none else (number? (t.take size)).map fun n => ([n], t.drop size)

def braced? (t : Text) : Option (List Nat × Text) :=
  let digits := t.takeWhile (· ≠ '}')
  let rest := t.dropWhile (· ≠ '}')
  if digits = [] || rest = [] then none
  else (number? digits).bind fun n => if n ≤ 0x10FFFF then some (units n, rest.tail) else none

def control (c : Char) : List Nat :=
  if c = 'b' then [0x08]
  else if c = 't' then [0x09]
  else if c = 'n' then [0x0A]
  else if c = 'v' then [0x0B]
  else if c = 'f' then [0x0C]
  else if c = 'r' then [0x0D]
  else units c.toNat

def isLineBreak (c : Char) : Bool :=
  c = '\n' || c = '\r' || c = '\u2028' || c = '\u2029'

-- What an escape sequence denotes, given by the character after its backslash and the text after
-- that, and what follows the sequence. A line break denotes nothing, and of the digits only a zero
-- that stands alone is allowed.
def sequence? (c : Char) (t : Text) : Option (List Nat × Text) :=
  if c = 'u' then if t.head? = some '{' then braced? t.tail else fixed? 4 t
  else if c = 'x' then fixed? 2 t
  else if c.isDigit then if c = '0' && !t.head?.any Char.isDigit then some ([0], t) else none
  else if isLineBreak c then some ([], if c = '\r' && t.head? = some '\n' then t.tail else t)
  else some (control c, t)

theorem length_fixed?_le {size : Nat} {t rest : Text} {value : List Nat}
    (h : fixed? size t = some (value, rest)) : rest.length ≤ t.length := by
  unfold fixed? at h
  split at h
  case isTrue => cases h
  case isFalse =>
    obtain ⟨n, _, he⟩ := Option.map_eq_some_iff.mp h
    rw [← (Prod.mk.inj he).right, List.length_drop]
    exact Nat.sub_le _ _

theorem length_braced?_le {t rest : Text} {value : List Nat} (h : braced? t = some (value, rest)) :
    rest.length ≤ t.length := by
  unfold braced? at h
  dsimp only at h
  split at h
  case isTrue => cases h
  case isFalse =>
    obtain ⟨n, _, he⟩ := Option.bind_eq_some_iff.mp h
    split at he
    case isFalse => cases he
    case isTrue =>
      rw [← (Prod.mk.inj (Option.some.inj he)).right, List.length_tail]
      exact (Nat.sub_le _ _).trans (List.dropWhile_sublist _).length_le

theorem length_sequence?_le {c : Char} {t rest : Text} {value : List Nat}
    (h : sequence? c t = some (value, rest)) : rest.length ≤ t.length := by
  have htail : t.tail.length ≤ t.length := by simp
  unfold sequence? at h
  split at h
  · split at h
    · exact (length_braced?_le h).trans htail
    · exact length_fixed?_le h
  split at h
  · exact length_fixed?_le h
  split at h
  · grind
  split at h
  · grind
  · grind

-- The value of what follows the opening quote, where the closing quote is the last character. A
-- string does not go over the end of a line; a template may, but a substitution is not part of its
-- text.
def content? (quote : Char) : Text → Option (List Nat)
  | [] => none
  | c :: t =>
    if c = quote then if t = [] then some [] else none
    else if c = '\\' then
      match t with
      | [] => none
      | d :: t =>
        match _ : sequence? d t with
        | none => none
        | some (value, rest) => (content? quote rest).map (value ++ ·)
    else if quote = '\x60' && c = '$' && t.head? = some '{' then none
    else if quote ≠ '\x60' && (c = '\n' || c = '\r') then none
    else (content? quote t).map (units c.toNat ++ ·)
termination_by t => t.length
decreasing_by
  · have := length_sequence?_le ‹_›
    simp only [List.length_cons]
    omega
  · simp

-- In a template a line ends with a line feed, however it is written.
def lineFeeds : Text → Text
  | [] => []
  | c :: t =>
    if c = '\r' then if t.head? = some '\n' then lineFeeds t else '\n' :: lineFeeds t
    else c :: lineFeeds t

def value? : Text → Option (List Nat)
  | [] => none
  | quote :: t =>
    if quote = '\x60' then content? quote (lineFeeds t)
    else if quote = '"' || quote = '\'' then content? quote t
    else none

section Units

variable {c d : Char} {s t : Text}

theorem units_append_inj {u v : List Nat} (h : units c.toNat ++ u = units d.toNat ++ v) :
    c = d ∧ u = v := by
  have hvalid (c : Char) : c.toNat < 0xD800 ∨ 0xDFFF < c.toNat ∧ c.toNat < 0x110000 := c.valid
  have hc := hvalid c
  have hd := hvalid d
  unfold units at h
  split at h <;> split at h <;> simp only [List.cons_append, List.nil_append, List.cons.injEq] at h
  · exact ⟨Char.toNat_inj.mp h.left, h.right⟩
  · omega
  · omega
  · exact ⟨Char.toNat_inj.mp (by omega), h.right.right⟩

theorem utf16_cons (c : Char) (t : Text) : utf16 (c :: t) = units c.toNat ++ utf16 t :=
  List.flatMap_cons

theorem units_ne_nil (n : Nat) : units n ≠ [] := by
  unfold units
  split <;> simp

theorem utf16_inj : utf16 s = utf16 t ↔ s = t := by
  refine ⟨fun h => ?_, congrArg utf16⟩
  induction s generalizing t <;> cases t
  case nil.nil => rfl
  case nil.cons d t => simp [utf16, units_ne_nil] at h
  case cons.nil c s _ => simp [utf16, units_ne_nil] at h
  case cons.cons c s ih d t =>
    rw [utf16_cons, utf16_cons] at h
    obtain ⟨rfl, hu⟩ := units_append_inj h
    rw [ih hu]

end Units

section Lines

variable {t : Text}

theorem lineFeeds_eq_self_iff : lineFeeds t = t ↔ '\r' ∉ t := by
  constructor
  case mp =>
    have hreturn (t : Text) : '\r' ∉ lineFeeds t := by
      induction t <;> grind [lineFeeds]
    intro h
    exact h ▸ hreturn t
  case mpr =>
    intro h
    induction t
    case nil => rfl
    case cons c t ih =>
      have hc := List.ne_of_not_mem_cons h
      rw [lineFeeds, if_neg hc.symm, ih (List.not_mem_of_not_mem_cons h)]

theorem head?_lineFeeds (t : Text) : (lineFeeds t).head? = some '{' ↔ t.head? = some '{' := by
  induction t <;> grind [lineFeeds]

theorem lineFeeds_escape (t : Text) :
    lineFeeds (escape t ++ ['\x60']) = escape (lineFeeds t) ++ ['\x60'] := by
  induction t
  case nil => rfl
  case cons c t ih =>
    by_cases hc : c = '\r'
    case pos =>
      have hescape {s : Text} : escape ('\n' :: s) = '\n' :: escape s := rfl
      have hfirst : escape ('\r' :: t) = '\r' :: escape t := rfl
      have hhead : (escape t ++ ['\x60']).head? = some '\n' ↔ t.head? = some '\n' := by
        cases t <;> grind [escape]
      simp only [hc, hfirst, List.cons_append, lineFeeds, if_true, hhead, ih]
      split <;> simp [hescape]
    case neg =>
      have hline {s : Text} : lineFeeds (c :: s) = c :: lineFeeds s := if_neg hc
      simp only [hline, escape, head?_lineFeeds]
      split
      · simp [lineFeeds, hc, ih]
      · simp [hline, ih]

end Lines

section Content

variable {quote c : Char} {t : Text}

theorem content?_end (quote : Char) : content? quote [quote] = some [] := by
  rw [content?, if_pos rfl, if_pos rfl]

theorem content?_escaped {rest : Text} {value : List Nat} (hq : quote ≠ '\\')
    (h : sequence? c t = some (value, rest)) :
    content? quote ('\\' :: c :: t) = (content? quote rest).map (value ++ ·) := by
  rw [content?, if_neg hq.symm, if_pos rfl]
  split
  case h_1 hn => simp [hn] at h
  case h_2 hs =>
    obtain ⟨rfl, rfl⟩ := Prod.mk.inj (Option.some.inj (hs.symm.trans h))
    rfl

theorem content?_plain (hq : c ≠ quote) (hb : c ≠ '\\')
    (hs : quote = '\x60' → c = '$' → t.head? ≠ some '{')
    (hl : quote ≠ '\x60' → c ≠ '\n' ∧ c ≠ '\r') :
    content? quote (c :: t) = (content? quote t).map (units c.toNat ++ ·) := by
  rw [content?.eq_def]
  dsimp only
  rw [if_neg hq, if_neg hb, if_neg (by simpa using hs), if_neg (by simpa using hl)]

theorem sequence?_self (hc : c ∉ ['b', 't', 'n', 'v', 'f', 'r', 'u', 'x']) (hd : c.isDigit = false)
    (hl : isLineBreak c = false) : sequence? c t = some (units c.toNat, t) := by
  simp only [List.mem_cons, List.not_mem_nil, not_or, not_false_eq_true, and_true] at hc
  simp [sequence?, control, hc, hd, hl]

theorem content?_escape (t : Text) : content? '\x60' (escape t ++ ['\x60']) = some (utf16 t) := by
  have hquote : '\x60' ≠ '\\' := by decide
  induction t
  case nil => exact content?_end _
  case cons c t ih =>
    rw [escape]
    split
    case isTrue hc =>
      have hself : sequence? c (escape t ++ ['\x60']) =
          some (units c.toNat, escape t ++ ['\x60']) := by
        simp only [Bool.or_eq_true, Bool.and_eq_true, decide_eq_true_eq] at hc
        rcases hc with (rfl | rfl) | ⟨rfl, _⟩ <;> exact sequence?_self (by decide) rfl rfl
      rw [List.cons_append, List.cons_append, content?_escaped hquote hself, ih, utf16_cons]
      rfl
    case isFalse hc =>
      simp only [Bool.or_eq_true, Bool.and_eq_true, decide_eq_true_eq, not_or, not_and] at hc
      have hhead (he : c = '$') : (escape t ++ ['\x60']).head? ≠ some '{' :=
        head?_escape_append (hc.right he) (by simp)
      rw [List.cons_append, content?_plain hc.left.right hc.left.left (fun _ => hhead) (absurd rfl),
        ih, utf16_cons]
      rfl

-- Whatever a backslash and one character denote in a quoted text, they denote in a literal.
theorem sequence?_of_escaped? {d : Char} (h : Json.escaped? d = some c) :
    sequence? d t = some (units c.toNat, t) := by
  unfold Json.escaped? at h
  split at h
  case isTrue hd =>
    obtain rfl := Option.some.inj h
    simp only [Bool.or_eq_true, decide_eq_true_eq] at hd
    rcases hd with (rfl | rfl) | rfl <;> exact sequence?_self (by decide) rfl rfl
  iterate 5
    split at h
    case isTrue hd =>
      obtain rfl := Option.some.inj h
      rw [hd]
      rfl
  cases h

theorem sequence?_hexDigit (h : c.toNat < 0x20) : sequence? 'u'
    ('0' :: '0' :: hexDigit (c.toNat / 16) :: hexDigit (c.toNat % 16) :: t) =
      some (units c.toNat, t) := by
  have hzero : Json.hexValue? '0' = some 0 := by decide
  have hhigh := Json.hexValue?_hexDigit (show c.toNat / 16 < 16 by omega)
  have hlow := Json.hexValue?_hexDigit (show c.toNat % 16 < 16 by omega)
  have hunits : units c.toNat = [c.toNat] := if_pos (by omega)
  simp [sequence?, fixed?, number?, hzero, hhigh, hlow, hunits, Nat.div_add_mod]

theorem content?_quotedChar (c : Char) (t : Text) :
    content? '"' (quotedChar c ++ t) = (content? '"' t).map (units c.toNat ++ ·) := by
  have hquote : '"' ≠ '\\' := by decide
  rcases Json.quotedChar_cases c with ⟨he, hq, hb, hc⟩ | ⟨d, he, hd, hc⟩ | ⟨he, hc⟩ <;> rw [he]
  case inl =>
    have hline : c ≠ '\n' ∧ c ≠ '\r' := by
      constructor <;> rintro rfl <;> exact hc (by decide)
    exact content?_plain hq hb (fun h => absurd h (by decide)) fun _ => hline
  case inr.inl => exact content?_escaped hquote (sequence?_of_escaped? hc)
  case inr.inr => exact content?_escaped hquote (sequence?_hexDigit hc)

theorem content?_quoted (t : Text) : content? '"' (t.flatMap quotedChar ++ ['"']) =
    some (utf16 t) := by
  induction t
  case nil => exact content?_end _
  case cons c t ih =>
    rw [List.flatMap_cons, List.append_assoc, content?_quotedChar, ih, utf16_cons]
    rfl

end Content

theorem value?_template (t : Text) : value? (template (.text t .empty)) =
    some (utf16 (lineFeeds t)) := by
  have hparts : templateParts (.text t .empty) = escape t := List.append_nil _
  rw [template, hparts, List.cons_append, value?, if_pos rfl, lineFeeds_escape, content?_escape]

theorem value?_quoted (t : Text) : value? (Text.quoted t) = some (utf16 t) := by
  rw [Text.quoted, List.cons_append, value?, if_neg (by decide), if_pos (by decide),
    content?_quoted]

theorem sum_operands_text (t : Text) : sum (operands (.text t .empty)) = Text.quoted t := by
  rw [operands]
  split
  case isTrue hn =>
    rw [hn]
    rfl
  case isFalse => rfl

-- What text yields, outside and inside a conditional, and what is shown of it beforehand.
theorem value?_text (scope : Scope) (t : Text) :
    value? (template (.text t .empty)) = some (utf16 (lineFeeds t)) ∧
      value? (sum (operands (.text t .empty))) = some (utf16 t) ∧
      preview scope (.text t .empty) = some t ∧
      (value? (template (.text t .empty)) = some (utf16 t) ↔ '\r' ∉ t) := by
  refine ⟨value?_template t, ?_, ?_, ?_⟩
  · rw [sum_operands_text, value?_quoted]
  · simp [preview]
  · rw [value?_template, Option.some_inj, utf16_inj, lineFeeds_eq_self_iff]

-- The carriage return at the end of a line is lost.
theorem value?_text_carriageReturn :
    value? (template (.text "a\r\nb".toList .empty)) = some (utf16 "a\nb".toList) ∧
      value? (template (.text "a\r\nb".toList .empty)) ≠ some (utf16 "a\r\nb".toList) := by
  decide +kernel

end Componentry.Literal
