import Componentry.Proofs.Static.Cutting

/-!
Precedence. An expression is written with no parentheses but those that its operators need, and its
text has the value that follows from the values of its parts.
-/
namespace Componentry.Static

-- The value of an operator's operands together. The logical operators give one of their operands.
def Operator.combine : Operator → Text → Text → Text
  | .or, l, r => if isTruthy l then l else r
  | .and, l, r => if isTruthy l then r else l
  | .comparison _ kind, l, r => ofBool (kind.holds l r)

def Operator.combine? : Operator → Text → Option Text → Option Text
  | .or, l, r => if isTruthy l then some l else r
  | .and, l, r => if isTruthy l then r else some l
  | .comparison _ kind, l, r => r.map fun r => ofBool (kind.holds l r)

theorem Operator.combine?_some (operator : Operator) (l r : Text) :
    operator.combine? l (some r) = some (operator.combine l r) := by
  cases operator
  case or | and =>
    simp only [combine?, combine]
    split <;> rfl
  case comparison => rfl

def chosen? (scope : Scope) : Option (Text × Text × Text) → Option Text
  | some (condition, yes, no) =>
    match eval scope condition with
    | some value => if isTruthy value then eval scope yes else eval scope no
    | none => none
  | none => none

def total? (scope : Scope) : Option (List Text) → Option Text
  | some operands =>
    (allKnown (operands.map (eval scope))).map fun values => sumOf (operands.zip values)
  | none => none

section Steps

variable {scope : Scope} {t s rest condition yes no left right value l r : Text}
variable {operator : Operator} {c : Char}

theorem eval_parenthesized {inner : Text} (ht : statement t = c :: rest)
    (hp : parenthesized? (c :: rest) = some inner) : eval scope t = eval scope inner := by
  rw [eval]
  split
  case h_1 heq _ => simp [heq] at ht
  case h_2 heq _ =>
    obtain ⟨rfl, rfl⟩ := List.cons.inj (ht.symm.trans heq)
    split
    case h_1 he => rw [Option.some.inj (hp.symm.trans he)]
    case h_2 he => simp [hp] at he

-- The forms of an expression without parentheses around it, in the order in which they are tried.
theorem eval_eq (ht : statement t = c :: rest) (hp : parenthesized? (c :: rest) = none) :
    eval scope t = (chosen? scope (ternary? (c :: rest))).or
      ((loosest? (c :: rest)).elim
        ((total? scope (summands? (c :: rest))).or
          (if c = '!' then (eval scope rest).map fun value => ofBool (!isTruthy value)
          else leaf scope (c :: rest)))
        fun parts => (eval scope parts.2.1).bind fun l =>
        parts.1.combine? l (eval scope parts.2.2)) := by
  rw [eval]
  split
  case h_1 heq _ => simp [heq] at ht
  case h_2 heq _ =>
    obtain ⟨rfl, rfl⟩ := List.cons.inj (ht.symm.trans heq)
    split
    case h_1 he => simp [hp] at he
    case h_2 =>
      dsimp only
      split
      case h_1 value he =>
        have hchosen : chosen? scope (ternary? (c :: rest)) = some value := by
          split at he
          case h_1 hs => exact hs ▸ he
          case h_2 => cases he
        rw [hchosen, Option.some_or]
      case h_2 he =>
        have hchosen : chosen? scope (ternary? (c :: rest)) = none := by
          split at he
          case h_1 hs => exact hs ▸ he
          case h_2 hs => exact hs ▸ he
        rw [hchosen, Option.none_or]
        split
        case h_1 operator left right hs =>
          simp only [hs, Option.elim_some]
          cases eval scope left
          case none => rfl
          case some l =>
            cases operator
            case or | and => rfl
            case comparison => cases eval scope right <;> rfl
        case h_2 hs =>
          rw [hs, Option.elim_none]
          split
          case h_1 value he =>
            have htotal : total? scope (summands? (c :: rest)) = some value := by
              split at he
              case h_1 operands hs => simpa [hs, total?] using he
              case h_2 => cases he
            rw [htotal, Option.some_or]
          case h_2 he =>
            have htotal : total? scope (summands? (c :: rest)) = none := by
              split at he
              case h_1 operands hs => simpa [hs, total?] using he
              case h_2 hs => exact hs ▸ he
            rw [htotal, Option.none_or]
            cases eval scope rest <;> rfl

theorem eval_ternary (ht : statement t = s) (hp : parenthesized? s = none)
    (hs : ternary? s = some (condition, yes, no)) (hc : eval scope condition = some value)
    (hv : eval scope (if isTruthy value then yes else no) = some r) : eval scope t = some r := by
  rw [apply_ite (eval scope)] at hv
  cases s
  case nil => cases hs
  case cons c rest =>
    rw [eval_eq ht hp, hs]
    simp only [chosen?, hc, hv, Option.some_or]

theorem eval_binary (ht : statement t = s) (hp : parenthesized? s = none) (hn : ternary? s = none)
    (hs : loosest? s = some (operator, left, right)) (hl : eval scope left = some l)
    (hr : eval scope right = some r) : eval scope t = some (operator.combine l r) := by
  cases s
  case nil => cases hs
  case cons c rest =>
    rw [eval_eq ht hp, hn, hs]
    simp only [chosen?, Option.none_or, Option.elim_some, hl, hr, Option.bind_some]
    exact operator.combine?_some l r

theorem eval_tight (ht : statement t = c :: rest) (hp : parenthesized? (c :: rest) = none)
    (hlevel : Level 5 (c :: rest)) : eval scope t =
      if c = '!' then (eval scope rest).map fun value => ofBool (!isTruthy value)
      else leaf scope (c :: rest) := by
  have hn := (hlevel.mono (Nat.le_add_left 1 4)).ternary?_eq_none
  rw [eval_eq ht hp, hn, hlevel.loosest?_eq_none, hlevel.summands?_eq_none]
  simp only [chosen?, total?, Option.elim_none, Option.none_or]

end Steps

def grouped (level own : Nat) (t : Text) : Text :=
  if own < level then '(' :: (t ++ [')']) else t

section Texts

variable {level own : Nat} {s t u : Text}

theorem IsText.grouped (h : IsText own t) : IsText level (grouped level own t) := by
  unfold Static.grouped
  split
  case isFalse hl => exact h.mono (Nat.le_of_not_lt hl)
  case isTrue =>
    exact ⟨h.level.parenthesized, h.isEven.parenthesized, ⟨'(', _, rfl, by decide, by decide⟩,
      ⟨')', List.getLast?_concat (l := '(' :: t), by decide⟩, fun _ => ⟨t, [], rfl, h.isEven⟩⟩

theorem IsText.append (hs : IsText level s) (hl : Level level u) (he : IsEven u)
    (ht : IsText level t) :
    IsText level (s ++ (u ++ t)) := by
  have ⟨c, v, hv, hc, hne⟩ := hs.start
  refine ⟨hs.level.append (hl.append ht.level), hs.isEven.append (he.append ht.isEven),
    ⟨c, v ++ (u ++ t), by simp [hv], hc, hne⟩, ?_, fun hg => ?_⟩
  · have ⟨d, hd, hstop⟩ := ht.stop
    refine ⟨d, ?_, hstop⟩
    rw [Option.mem_def] at hd ⊢
    simp [List.getLast?_append, hd]
  · have ⟨inner, rest, hi, heven⟩ := hs.group (by simpa [hv] using hg)
    exact ⟨inner, rest ++ (u ++ t), by simp [hi], heven⟩

theorem IsText.not (h : IsText 5 t) (hl : level ≤ 5) : IsText level ('!' :: t) := by
  have ⟨c, u, he, hc, hne⟩ := h.start
  have ⟨d, hd, hstop⟩ := h.stop
  refine ⟨.cons rfl (fun rest => ?_) (h.level.mono hl), ?_,
    ⟨'!', t, rfl, by decide, by decide⟩, ?_, by simp⟩
  · rw [he]
    simp [isAllowed, marks, List.isPrefixOf, hne.symm]
  · exact IsEven.append (.of_not_mem (t := ['!']) (by decide) (by decide)) h.isEven
  · refine ⟨d, ?_, hstop⟩
    rw [Option.mem_def] at hd ⊢
    simp [List.getLast?_cons, hd]

theorem IsText.spaced {o : Binary} (hs : IsText o.level s) (ht : IsText (o.level + 1) t) :
    IsText o.level (s ++ (o.spaced ++ t)) :=
  hs.append o.level_spaced o.isEven_spaced (ht.mono (Nat.le_succ o.level))

theorem IsText.choice (hs : IsText 1 s) (ht : IsText 1 t) (hu : IsText 0 u) :
    IsText 0 (s ++ ' ' :: '?' :: ' ' :: (t ++ ' ' :: ':' :: ' ' :: u)) := by
  have hquestion : Level 0 [' ', '?', ' '] :=
    .cons rfl (fun _ => rfl) (.cons rfl (fun _ => rfl) (.cons rfl (fun _ => rfl) .nil))
  have hcolon : Level 0 [' ', ':', ' '] :=
    .cons rfl (fun _ => rfl) (.cons rfl (fun _ => rfl) (.cons rfl (fun _ => rfl) .nil))
  have hlater := (ht.mono (Nat.zero_le 1)).append hcolon (.of_not_mem (by decide) (by decide)) hu
  exact (hs.mono (Nat.zero_le 1)).append hquestion (.of_not_mem (by decide) (by decide)) hlater

end Texts

structure Name where
  text : Text
  isName : isName text
  not_keyword : text ∉ keywords
  not_number : (Decimal.read? text).isNone

structure Content where
  text : Text
  no_quote : '"' ∉ text
  no_backslash : '\\' ∉ text
  no_opener : '(' ∉ text
  no_closer : ')' ∉ text

def isWord (c : Char) : Bool :=
  isLetter c || isNumeric c || c = '_' || c = '$'

section Words

variable {level : Nat} {c : Char} {t : Text}

theorem isWord_of_isName (h : isName t) : t ≠ [] ∧ ∀ c ∈ t, isWord c := by
  cases t
  case nil => simp [isName] at h
  case cons c t =>
    simp only [isName, Bool.and_eq_true, List.all_eq_true] at h
    refine ⟨List.cons_ne_nil c t, List.forall_mem_cons.mpr ⟨?_, h.right⟩⟩
    have hc := h.left
    simp only [Bool.or_eq_true] at hc
    rcases hc with (hc | hc) | hc <;> simp [isWord, hc]

def signs : List Char :=
  ['(', ')', '[', ']', '\x7b', '\x7d', '"', '\'', '\x60', '+', '?', ':', '|', '&',
    '=', '!', '>', '<', ';']

def blanks : List Char :=
  [0x9, 0xA, 0xB, 0xC, 0xD, 0x20, 0x85, 0xA0, 0x1680, 0x2000, 0x2001, 0x2002, 0x2003, 0x2004,
    0x2005, 0x2006, 0x2007, 0x2008, 0x2009, 0x200A, 0x2028, 0x2029, 0x202F, 0x205F,
    0x3000].map Char.ofNat

theorem mem_blanks (h : isBlank c) : c ∈ blanks := by
  rw [← Char.ofNat_toNat c]
  apply List.mem_map_of_mem
  simp only [isBlank, Bool.or_eq_true, Bool.and_eq_true, decide_eq_true_eq] at h
  simp only [List.mem_cons, List.not_mem_nil, or_false]
  omega

theorem isWord_eq_false : (signs ++ blanks).all fun c => !isWord c := by
  decide +kernel

theorem ne_of_isWord (h : isWord c) : ∀ d ∈ signs, c ≠ d := by
  rintro d hd rfl
  simpa [h] using List.all_eq_true.mp isWord_eq_false c (List.mem_append_left blanks hd)

theorem isBlank_eq_false_of_isWord (h : isWord c) : isBlank c = false := by
  rw [Bool.eq_false_iff]
  intro hb
  simpa [h] using List.all_eq_true.mp isWord_eq_false c
    (List.mem_append_right signs (mem_blanks hb))

theorem isBare_of_isWord (h : isWord c) : isBare c := by
  have hne := ne_of_isWord h
  simp only [signs, List.forall_mem_cons] at hne
  simp [isBare, Code.isOpener, Code.isCloser, isQuote, hne]

theorem Level.of_isWord (h : ∀ c ∈ t, isWord c) : Level level t := by
  induction t
  case nil => exact .nil
  case cons c t ih =>
    have ⟨hc, ht⟩ := List.forall_mem_cons.mp h
    have hne := ne_of_isWord hc
    refine .cons (isBare_of_isWord hc) (fun rest => ?_) (ih ht)
    have hne : ∀ d ∈ signs, d ≠ c := fun d hd => (hne d hd).symm
    simp only [signs, List.forall_mem_cons] at hne
    simp [isAllowed, marks, List.isPrefixOf, hne]

theorem IsText.of_isName (h : isName t) : IsText level t := by
  have ⟨hn, hw⟩ := isWord_of_isName h
  have hne (d : Char) (hd : d ∈ signs) : d ∉ t := fun hm => ne_of_isWord (hw d hm) d hd rfl
  have ⟨c, u, he⟩ := List.exists_cons_of_ne_nil hn
  have hc := hw c (by simp [he])
  have ⟨d, hd⟩ : ∃ d, t.getLast? = some d := Option.isSome_iff_exists.mp (by simp [hn])
  have hwd := hw d (List.mem_of_getLast? hd)
  refine ⟨.of_isWord hw, .of_not_mem (hne _ (by decide)) (hne _ (by decide)),
    ⟨c, u, he, isBlank_eq_false_of_isWord hc, ne_of_isWord hc _ (by decide)⟩,
    ⟨d, hd, ?_⟩, fun hg => ?_⟩
  · simp [isBlank_eq_false_of_isWord hwd, ne_of_isWord hwd ';' (by decide)]
  · exact absurd (List.mem_of_head? hg) (hne '(' (by decide))

theorem IsText.quoted (content : Content) : IsText level ('"' :: (content.text ++ ['"'])) :=
  ⟨.quoted content.no_quote content.no_backslash,
    .of_not_mem (by simp [content.no_opener]) (by simp [content.no_closer]),
    ⟨'"', _, rfl, by decide, by decide⟩,
    ⟨'"', List.getLast?_concat (l := '"' :: content.text), by decide⟩, by simp⟩

end Words

section Leaves

variable {level : Nat} {scope : Scope} {t content : Text}

theorem IsText.trim_eq (h : IsText level t) : t.trim = t := by
  have ⟨c, u, he, hc, _⟩ := h.start
  have ⟨d, hd, hstop⟩ := h.stop
  refine Text.trim_eq_self (by simp [he, hc]) ?_
  rw [Option.mem_def.mp hd, Option.any_some]
  exact (Bool.or_eq_false_iff.mp hstop).left

theorem unescape_eq (h : '\\' ∉ content) : unescape content = content := by
  induction content
  case nil => rfl
  case cons c content ih =>
    have ⟨hc, h⟩ : c ≠ '\\' ∧ '\\' ∉ content := by simpa [eq_comm] using h
    unfold unescape
    split
    case h_1 heq => cases heq
    case h_2 heq => exact absurd (List.cons.inj heq).left hc
    case h_3 heq =>
      obtain ⟨rfl, rfl⟩ := List.cons.inj heq
      rw [ih h]

theorem leaf_quoted (content : Content) :
    leaf scope ('"' :: (content.text ++ ['"'])) = some content.text := by
  have htext : IsText 0 ('"' :: (content.text ++ ['"'])) := .quoted content
  have hs : string? ('"' :: (content.text ++ ['"'])) = some content.text := by
    rw [string?, htext.trim_eq]
    simp [isQuote, unescape_eq content.no_backslash]
  rw [leaf, hs]

theorem string?_eq_none (h : isName t) : string? t = none := by
  have ⟨hn, hw⟩ := isWord_of_isName h
  have ⟨c, u, he⟩ := List.exists_cons_of_ne_nil hn
  have hne := ne_of_isWord (hw c (by simp [he]))
  simp only [signs, List.forall_mem_cons] at hne
  have htext : IsText 0 t := .of_isName h
  rw [string?, htext.trim_eq, he]
  simp [isQuote, hne]

theorem leaf_name (n : Name) : leaf scope n.text = scope.get? n.text := by
  rw [leaf, string?_eq_none n.isName, Option.isNone_iff_eq_none.mp n.not_number]
  simp [n.not_keyword, n.isName]

theorem isName_of_mem_keywords (h : t ∈ keywords) : isName t := by
  have hall : keywords.all isName := by decide +kernel
  exact List.all_eq_true.mp hall t h

theorem leaf_keyword (h : t ∈ keywords) : leaf scope t = some t := by
  have hall : keywords.all fun word => (Decimal.read? word).isNone := by decide +kernel
  have hd := List.all_eq_true.mp hall t h
  rw [leaf, string?_eq_none (isName_of_mem_keywords h), Option.isNone_iff_eq_none.mp hd]
  simp [h]

end Leaves

def HasValue (scope : Scope) (t value : Text) : Prop :=
  ∀ u, statement u = t → eval scope u = some value

namespace HasValue

variable {scope : Scope} {level own : Nat} {t l r c y n v w x : Text}

theorem eval_eq (h : HasValue scope t v) (ht : IsText level t) : eval scope t = some v :=
  h t (by simpa using ht.statement_eq (s := []) (u := []) rfl rfl)

theorem leaf (h : Static.leaf scope t = some v) (ht : IsText 5 t) (hg : t.head? ≠ some '(')
    (hn : t.head? ≠ some '!') : HasValue scope t v := by
  have ⟨c, u, he, _⟩ := ht.start
  subst he
  intro u hu
  have hc : c ≠ '!' := by simpa using hn
  rw [eval_tight hu (parenthesized?_eq_none (by simpa using hg)) ht.level, if_neg hc, h]

theorem word (h : Static.leaf scope t = some v) (ht : isName t) : HasValue scope t v := by
  have hne (d : Char) (hd : d ∈ signs) : t.head? ≠ some d := fun hm =>
    ne_of_isWord ((isWord_of_isName ht).right d (List.mem_of_head? hm)) d hd rfl
  exact leaf h (.of_isName ht) (hne '(' (by decide)) (hne '!' (by decide))

theorem not (h : HasValue scope t v) (ht : IsText 5 t) :
    HasValue scope ('!' :: t) (ofBool (!isTruthy v)) := by
  intro u hu
  have hlevel := (ht.not (Nat.le_refl 5)).level
  rw [eval_tight hu (parenthesized?_eq_none (by decide)) hlevel, if_pos rfl, h.eval_eq ht,
    Option.map_some]

theorem grouped (h : HasValue scope t v) (ht : IsText own t) :
    HasValue scope (grouped level own t) v := by
  intro u hu
  unfold Static.grouped at hu
  split at hu
  case isTrue => rw [eval_parenthesized hu (parenthesized?_eq_some ht.isEven), h.eval_eq ht]
  case isFalse => exact h u hu

theorem spaced {o : Binary} (hl : HasValue scope l v) (hr : HasValue scope r w)
    (htl : IsText o.level l)
    (htr : IsText (o.level + 1) r) : HasValue scope (l ++ (o.spaced ++ r))
    (o.operator.combine v w) := by
  intro u hu
  have hlevel : Level 1 (l ++ (o.spaced ++ r)) :=
    (Binary.level_append htl.level htr.level).mono (by cases o <;> decide)
  refine eval_binary hu (htl.parenthesized?_append (by simp [Binary.spaced]))
    hlevel.ternary?_eq_none
    (loosest?_spaced htl.level htr.level htl.all_isBlank htr.all_isBlank) (hl _ ?_) (hr _ ?_)
  · exact htl.statement_eq (s := []) (u := [' ']) rfl rfl
  · simpa using htr.statement_eq (s := [' ']) (u := []) rfl rfl

theorem choice (hc : HasValue scope c v) (hy : HasValue scope y w) (hn : HasValue scope n x)
    (htc : IsText 1 c) (hty : IsText 1 y) (htn : IsText 0 n) :
    HasValue scope (c ++ ' ' :: '?' :: ' ' :: (y ++ ' ' :: ':' :: ' ' :: n))
      (if isTruthy v then w else x) := by
  intro u hu
  refine eval_ternary hu (htc.parenthesized?_append (by simp)) (ternary?_eq htc.level hty.level)
    (hc _ ?_) ?_
  · exact htc.statement_eq (s := []) (u := [' ']) rfl rfl
  · split
    case isTrue => exact hy _ (hty.statement_eq (s := [' ']) (u := [' ']) rfl rfl)
    case isFalse => exact hn _ (by simpa using htn.statement_eq (s := [' ']) (u := []) rfl rfl)

end HasValue

inductive Expression
  | name (name : Name)
  | keyword (word : Text) (mem : word ∈ keywords)
  | text (content : Content)
  | not (operand : Expression)
  | binary (operator : Binary) (left right : Expression)
  | choice (condition yes no : Expression)

namespace Expression

-- The text of an expression where one of some level is needed: 5 is the level of operands of a
-- negation, 0 that of the whole and of the last part of a choice. Operators of one level associate
-- to the left.
def print (level : Nat) : Expression → Text
  | .name n => n.text
  | .keyword word _ => word
  | .text content => '"' :: (content.text ++ ['"'])
  | .not operand => '!' :: operand.print 5
  | .binary o left right =>
    grouped level o.level (left.print o.level ++ (o.spaced ++ right.print (o.level + 1)))
  | .choice condition yes no =>
    grouped level 0
      (condition.print 1 ++ ' ' :: '?' :: ' ' :: (yes.print 1 ++ ' ' :: ':' :: ' ' :: no.print 0))

def value (scope : Scope) : Expression → Text
  | .name n => (scope.get? n.text).getD []
  | .keyword word _ => word
  | .text content => content.text
  | .not operand => ofBool (!isTruthy (operand.value scope))
  | .binary o left right => o.operator.combine (left.value scope) (right.value scope)
  | .choice condition yes no =>
    if isTruthy (condition.value scope) then yes.value scope else no.value scope

def names : Expression → List Text
  | .name n => [n.text]
  | .keyword .. | .text _ => []
  | .not operand => operand.names
  | .binary _ left right => left.names ++ right.names
  | .choice condition yes no => condition.names ++ yes.names ++ no.names

def IsBound (scope : Scope) (e : Expression) : Prop :=
  ∀ name ∈ e.names, (scope.get? name).isSome

instance (scope : Scope) (e : Expression) : Decidable (e.IsBound scope) :=
  inferInstanceAs (Decidable (∀ name ∈ e.names, (scope.get? name).isSome))

theorem isText_print (e : Expression) {level : Nat} (h : level ≤ 5) :
    IsText level (e.print level) := by
  induction e generalizing level
  case name n => exact .of_isName n.isName
  case keyword word mem => exact .of_isName (isName_of_mem_keywords mem)
  case text content => exact .quoted content
  case not operand ih => exact (ih (Nat.le_refl 5)).not h
  case binary o left right ihl ihr =>
    exact (IsText.spaced (ihl (Nat.le_of_lt o.level_lt)) (ihr o.level_lt)).grouped
  case choice condition yes no ihc ihy ihn =>
    exact (IsText.choice (ihc (by decide)) (ihy (by decide)) (ihn (by decide))).grouped

theorem hasValue_print {scope : Scope} (e : Expression) (hb : e.IsBound scope) (level : Nat) :
    HasValue scope (e.print level) (e.value scope) := by
  induction e generalizing level
  case name n =>
    have ⟨v, hv⟩ := Option.isSome_iff_exists.mp (hb n.text (List.mem_singleton_self n.text))
    have hvalue : value scope (.name n) = v := by simp [value, hv]
    rw [hvalue]
    exact .word ((leaf_name n).trans hv) n.isName
  case keyword word mem => exact .word (leaf_keyword mem) (isName_of_mem_keywords mem)
  case text content =>
    exact .leaf (leaf_quoted content) (.quoted content) (by simp [print]) (by simp [print])
  case not operand ih => exact (ih hb 5).not (operand.isText_print (Nat.le_refl 5))
  case binary o left right ihl ihr =>
    have ⟨hbl, hbr⟩ := List.forall_mem_append.mp hb
    have htl := left.isText_print (Nat.le_of_lt o.level_lt)
    have htr := right.isText_print o.level_lt
    have hspaced := HasValue.spaced (ihl hbl o.level) (ihr hbr (o.level + 1)) htl htr
    exact hspaced.grouped (htl.spaced htr)
  case choice condition yes no ihc ihy ihn =>
    have ⟨hb, hbn⟩ := List.forall_mem_append.mp hb
    have ⟨hbc, hby⟩ := List.forall_mem_append.mp hb
    have htc := @isText_print condition 1 (by decide)
    have hty := @isText_print yes 1 (by decide)
    have htn := @isText_print no 0 (by decide)
    have hchoice := HasValue.choice (ihc hbc 1) (ihy hby 1) (ihn hbn 0) htc hty htn
    exact hchoice.grouped (htc.choice hty htn)

-- The text of an expression has the value of the expression: it is cut as its operators bind.
theorem eval_print (scope : Scope) (e : Expression) (h : e.IsBound scope) :
    eval scope (e.print 0) = some (e.value scope) :=
  (hasValue_print e h 0).eval_eq (isText_print e (Nat.zero_le 5))

def nested : Expression :=
  let a := .name ⟨['a'], by decide, by decide, by decide⟩
  let b := .name ⟨['b'], by decide, by decide, by decide⟩
  let text := .text ⟨"y || z".toList, by decide, by decide, by decide, by decide⟩
  .choice
    (.binary .and
      (.binary .notIdentical (.choice a b a) text)
      (.not (.binary .or (.binary .identical a b) (.keyword "null".toList (by decide)))))
    (.binary .identical (.binary .atLeast a b) (.binary .identical b (.not (.not a))))
    (.keyword "undefined".toList (by decide))

theorem eval_print_nested :
    eval [(['a'], ['x']), (['b'], [])]
      ("(a ? b : a) !== \"y || z\" && !(a === b || null) ? ".toList ++
        "a >= b === (b === !!a) : undefined".toList) = some falseText := by
  have hprint : nested.print 0 = "(a ? b : a) !== \"y || z\" && !(a === b || null) ? ".toList ++
      "a >= b === (b === !!a) : undefined".toList := by
    decide +kernel
  have hvalue : nested.value [(['a'], ['x']), (['b'], [])] = falseText := by
    decide +kernel
  rw [← hprint, ← hvalue]
  exact eval_print [(['a'], ['x']), (['b'], [])] nested (by decide +kernel)

end Expression
end Componentry.Static
