import Componentry.Markup.Tree
import Componentry.Proofs.Cursor.Directive
import Componentry.Proofs.Markup.Reading

/-!
Why markup cannot be read. Wherever reading stops, the text shows the reason at the place that the
error names, and there is an `@if` in it: a text without directives can always be read.
-/
namespace Componentry.Markup

open Code

def Asks (s paren : Text) : Prop :=
  ∃ t, t <:+ s ∧ condition? t = some paren

inductive Fault (s : Text) : Failure → Prop
  | unterminatedCondition {paren} (hp : Asks s paren) (hg : group? paren = none) :
    Fault s ⟨.unterminatedCondition, paren⟩
  | emptyCondition {paren raw rest} (hp : Asks s paren) (hg : group? paren = some (raw, rest))
    (ht : raw.trim = []) : Fault s ⟨.emptyCondition, paren⟩
  | blockExpected {paren raw rest} (hp : Asks s paren) (hg : group? paren = some (raw, rest))
    (hs : rest.skipSpace.head? ≠ some '{') : Fault s ⟨.blockExpected, rest.skipSpace⟩
  | alternateExpected {paren rest : Text} (hp : Asks s paren) (he : "@else".toList ++ rest <:+ s)
    (hs : rest.skipSpace.head? ≠ some '{') : Fault s ⟨.alternateExpected, rest.skipSpace⟩
  | unterminatedBlock {paren start : Text} (hp : Asks s paren) (hb : start.head? = some '{')
    (hs : start <:+ s) : Fault s ⟨.unterminatedBlock, start⟩

-- Where reading a text can get to: blocks are opened by braces of the text, and only after an
-- `@if`.
structure Reached (s : Text) (blocks : List Block) (t : Text) : Prop where
  suffix : t <:+ s
  starts : ∀ start ∈ blocks.map Block.start, start.head? = some '{' ∧ start <:+ s
  asks : blocks ≠ [] → ∃ paren, Asks s paren

section Suffixes

variable {s t paren rest : Text}

theorem Asks.suffix (h : Asks s paren) : paren <:+ s := by
  obtain ⟨t, ht, hp⟩ := h
  obtain ⟨space, rest, rfl, _, rfl⟩ := condition?_eq_some_iff.mp hp
  exact (List.suffix_append ('@' :: 'i' :: 'f' :: space) ('(' :: rest)).trans ht

theorem Asks.suffix_group (h : Asks s paren) {raw : Text} (hg : group? paren = some (raw, rest)) :
    rest <:+ s := by
  obtain ⟨taken, rfl, _⟩ := group?_inside hg
  exact (List.suffix_append taken rest).trans h.suffix

theorem suffix_skipSpace (t : Text) : t.skipSpace <:+ t :=
  List.dropWhile_suffix isSpace

theorem suffix_of_else? (h : else? t = some rest) : "@else".toList ++ rest <:+ t := by
  obtain ⟨before, rfl, _⟩ := else?_eq_some_iff.mp h
  exact List.suffix_append before _

end Suffixes

section Reached

variable {s t rest : Text} {blocks after : List Block} {event : Event}

theorem Reached.start (s : Text) : Reached s [] s :=
  ⟨List.suffix_refl s, by simp, by simp⟩

theorem Reached.on (h : Reached s blocks t) (hs : rest <:+ t)
    (hb : after.map Block.start ⊆ blocks.map Block.start) : Reached s after rest := by
  refine ⟨hs.trans h.suffix, fun start hm => h.starts start (hb hm), fun hn => h.asks ?_⟩
  rintro rfl
  simp_all

theorem Reached.enter {paren condition inside : Text} {block : Block} (h : Reached s blocks t)
    (hp : Asks s paren) (he : enter paren = .ok (condition, block, inside)) :
    Reached s (block :: blocks) inside := by
  obtain ⟨raw, rest, hg, _, hs, _, rfl⟩ := enter_eq_ok_iff.mp he
  have hbrace : '{' :: inside <:+ s := hs ▸ (suffix_skipSpace rest).trans (hp.suffix_group hg)
  refine ⟨(List.suffix_cons '{' inside).trans hbrace, ?_, fun _ => ⟨paren, hp⟩⟩
  exact List.forall_mem_cons.mpr ⟨⟨rfl, hbrace⟩, h.starts⟩

theorem Reached.leave {block : Block} {outer : List Block}
    (h : Reached s (block :: outer) ('}' :: t)) :
    Reached s outer t :=
  h.on (List.suffix_cons '}' t) (List.subset_cons_self _ _)

theorem Step.reached (hs : Step blocks t event after rest) (h : Reached s blocks t) :
    Reached s after rest := by
  cases hs
  case opens t paren condition block hp he => exact h.enter ⟨_, h.suffix, hp⟩ he
  case name t identifier hp hn hr hsplit =>
    have ht := Identifier.split_append t
    rw [hsplit] at ht
    refine h.on ?_ (List.Subset.refl _)
    exact ht ▸ (List.suffix_append identifier rest).trans (List.suffix_cons '@' _)
  case sign => exact h.on (List.suffix_cons '@' rest) (List.Subset.refl _)
  case outside c _ => exact h.on (List.suffix_cons c rest) (List.Subset.refl _)
  case deeper => exact h.on (List.suffix_cons '{' rest) (List.Subset.refl _)
  case shallower => exact h.on (List.suffix_cons '}' rest) (List.Subset.refl _)
  case closes => exact h.leave
  case orElseIf block outer t after paren condition next hd ha he hp hn =>
    have hafter := (List.suffix_append "@else".toList after).trans (suffix_of_else? he)
    have hask := (suffix_skipSpace after).trans (hafter.trans h.leave.suffix)
    exact h.leave.enter ⟨_, hask, hp⟩ hn
  case orElse block outer t after hd ha he hs =>
    have hafter := (List.suffix_append "@else".toList after).trans (suffix_of_else? he)
    have hbrace : '{' :: rest <:+ s :=
      hs ▸ (suffix_skipSpace after).trans (hafter.trans h.leave.suffix)
    refine ⟨(List.suffix_cons '{' rest).trans hbrace, ?_, fun _ => h.asks (by simp)⟩
    exact List.forall_mem_cons.mpr ⟨⟨rfl, hbrace⟩, h.leave.starts⟩
  case plain c t hc =>
    refine h.on ?_ (List.Subset.refl _)
    exact (List.dropWhile_suffix isPlain).trans (List.suffix_cons c t)

end Reached

section Fault

variable {s t : Text} {blocks : List Block} {failure : Failure}

theorem Fault.of_enter {paren : Text} (hp : Asks s paren) (h : enter paren = .error failure) :
    Fault s failure := by
  unfold enter at h
  split at h
  case h_1 hg =>
    cases h
    exact .unterminatedCondition hp hg
  case h_2 raw rest hg =>
    split at h
    case isTrue ht =>
      cases h
      exact .emptyCondition hp hg ht
    case isFalse =>
      split at h
      case h_1 => simp at h
      case h_2 hs =>
        cases h
        refine .blockExpected hp hg fun hb => ?_
        obtain ⟨inside, hinside⟩ := List.head?_eq_some_iff.mp hb
        exact hs inside hinside

theorem Fault.of_leaveBlock {block : Block} {outer : List Block}
    (hr : Reached s (block :: outer) ('}' :: t))
    (h : leaveBlock block outer t = .error failure) : Fault s failure := by
  unfold leaveBlock at h
  split at h
  case isTrue => simp at h
  case isFalse =>
    split at h
    case h_1 => simp at h
    case h_2 rest he =>
      have helse := (suffix_of_else? he).trans hr.leave.suffix
      split at h
      case h_1 paren hp =>
        split at h
        case h_2 => simp at h
        case h_1 hn =>
          cases h
          have hask :=
            (suffix_skipSpace rest).trans ((List.suffix_append "@else".toList rest).trans helse)
          exact .of_enter ⟨_, hask, hp⟩ hn
      case h_2 =>
        split at h
        case h_1 => simp at h
        case h_2 hs =>
          cases h
          obtain ⟨paren, hp⟩ := hr.asks (by simp)
          refine .alternateExpected hp helse fun hb => ?_
          obtain ⟨inside, hinside⟩ := List.head?_eq_some_iff.mp hb
          exact hs inside hinside

theorem Fault.of_nextEvent {c : Char} (hr : Reached s blocks (c :: t))
    (h : nextEvent blocks c t = .error failure) : Fault s failure := by
  unfold nextEvent at h
  split at h
  case isTrue hc =>
    split at h
    case h_1 paren hp =>
      split at h
      case h_2 => simp at h
      case h_1 he =>
        cases h
        exact .of_enter ⟨_, hr.suffix, hp⟩ he
    case h_2 =>
      dsimp only at h
      split at h <;> simp at h
  case isFalse =>
    split at h
    case isTrue => split at h <;> simp at h
    case isFalse =>
      split at h
      case isFalse => simp at h
      case isTrue hc =>
        subst hc
        split at h
        case h_1 => simp at h
        case h_2 =>
          split at h
          case isTrue => exact .of_leaveBlock hr h
          case isFalse => simp at h

theorem Fault.of_events (hr : Reached s blocks t) (h : events blocks t = .error failure) :
    Fault s failure := by
  fun_induction events blocks t
  case case1 => simp at h
  case case2 block outer =>
    cases h
    obtain ⟨hb, hs⟩ := hr.starts block.start (by simp)
    obtain ⟨paren, hp⟩ := hr.asks (by simp)
    exact .unterminatedBlock hp hb hs
  case case3 hn =>
    cases h
    exact .of_nextEvent hr hn
  case case4 blocks c t event after rest hn ih =>
    cases he : events after rest <;> rw [he] at h <;> cases h
    exact ih ((Step.of_nextEvent hn).reached hr) he

end Fault

section Places

variable {s t : Text} {i n : Nat}

-- The first place from an offset on that holds no space. It may be the end of the text.
structure IsNext (t : Text) (i n : Nat) : Prop where
  le : i ≤ n
  space : ∀ j, i ≤ j → j < n → ∃ c, t.code? j = some c ∧ isSpace c
  stop : ∀ c, t.code? n = some c → isSpace c = false

theorem isNext_append {space rest : Text} (hs : t.suffix? i = some (space ++ rest))
    (h : ∀ c ∈ space, isSpace c) (hr : rest.head?.any isSpace = false) :
    IsNext t i (i + space.size) := by
  induction space generalizing i
  case nil =>
    refine ⟨Nat.le_refl i, fun j hi hj => absurd hj (Nat.not_lt_of_le hi),
      fun c (hc : t.code? i = _) => ?_⟩
    have hany := Text.any_code? onlyAscii_isSpace hs
    simpa [hc, hr] using hany
  case cons c space ih =>
    obtain ⟨hc, hspace⟩ := List.forall_mem_cons.mp h
    have hascii := onlyAscii_isSpace.toNat_lt hc
    have hnext := ih (Text.suffix?_succ hascii hs) hspace
    have hsize : i + Text.size (c :: space) = i + 1 + Text.size space := by
      rw [Text.size_cons, utf8Size_of_ascii hascii, Nat.add_assoc]
    rw [hsize]
    refine ⟨by omega, fun j hi hj => ?_, hnext.stop⟩
    by_cases he : j = i
    case pos => exact ⟨c, (Text.code?_eq_some_iff hascii).mpr ⟨_, he ▸ hs⟩, hc⟩
    case neg => exact hnext.space j (by omega) hj

theorem isNext_skipSpace {rest : Text} (h : t.suffix? i = some rest) :
    IsNext t i (t.offset rest.skipSpace) := by
  obtain ⟨space, hrest, hspace⟩ := rest.exists_skipSpace
  have hs := hrest ▸ h
  rw [Text.offset_of_suffix? (Text.suffix?_add_size hs)]
  exact isNext_append hs hspace (Text.head?_dropWhile isSpace rest)

-- Why an error at a place of a text has its message.
inductive Reason (t : Text) (n : Nat) : (message : Text) → Prop
  | unterminatedCondition (hp : t.code? n = some '(') (hc : closer? t n = none) :
    Reason t n "unterminated @if condition".toList
  | emptyCondition {raw rest : Text} (hp : t.code? n = some '(')
    (hs : t.suffix? (n + 1) = some (raw ++ rest)) (hc : closer? t n = some (n + 1 + raw.size))
    (hb : ∀ c ∈ raw, isBlank c) : Reason t n "empty @if condition".toList
  | blockExpected {i paren close} (hi : conditionAt? t i = some paren)
    (hc : closer? t paren = some close)
    (hn : IsNext t (close + 1) n) (hb : t.code? n ≠ some '{') :
    Reason t n "expected `\x7b` after @if condition".toList
  | alternateExpected {i rest} (hs : t.suffix? i = some ("@else".toList ++ rest))
    (hn : IsNext t (i + 5) n)
    (hb : t.code? n ≠ some '{') : Reason t n "expected `\x7b` after @else".toList
  | unterminatedBlock (hb : t.code? n = some '{') : Reason t n "unterminated @if block".toList

theorem Asks.exists_conditionAt? {paren : Text} (h : Asks s paren) :
    ∃ i, conditionAt? s i = some (s.offset paren) := by
  obtain ⟨t, ht, hp⟩ := h
  exact ⟨s.offset t, by rw [Cursor.conditionAt?_eq (Text.suffix?_offset ht), hp]; rfl⟩

theorem Asks.exists_cons {paren : Text} (h : Asks s paren) : ∃ rest, paren = '(' :: rest := by
  obtain ⟨t, _, hp⟩ := h
  obtain ⟨_, rest, _, _, rfl⟩ := condition?_eq_some_iff.mp hp
  exact ⟨rest, rfl⟩

theorem Fault.exists_asks {failure : Failure} (h : Fault s failure) :
    failure.rest <:+ s ∧ ∃ paren, Asks s paren := by
  cases h
  case unterminatedCondition hp _ => exact ⟨hp.suffix, _, hp⟩
  case emptyCondition hp _ _ => exact ⟨hp.suffix, _, hp⟩
  case blockExpected hp hg _ => exact ⟨(suffix_skipSpace _).trans (hp.suffix_group hg), _, hp⟩
  case alternateExpected rest hp he _ =>
    exact ⟨(suffix_skipSpace rest).trans ((List.suffix_append "@else".toList rest).trans he), _, hp⟩
  case unterminatedBlock hp _ hs => exact ⟨hs, _, hp⟩

theorem Fault.reason {failure : Failure} (h : Fault s failure) :
    Reason s (s.offset failure.rest) failure.cause.message := by
  have hplace := Text.suffix?_offset h.exists_asks.left
  cases h
  case unterminatedCondition paren hp hg =>
    obtain ⟨rest, rfl⟩ := hp.exists_cons
    refine .unterminatedCondition ((Text.code?_eq_some_iff (by decide)).mpr ⟨rest, hplace⟩) ?_
    rw [Cursor.closer?_eq hplace, hg]
    rfl
  case emptyCondition paren raw rest hp hg ht =>
    obtain ⟨inside, rfl⟩ := hp.exists_cons
    obtain ⟨closer, rfl, _⟩ := exists_closer hg
    have hinside := Text.suffix?_succ (by decide) hplace
    refine .emptyCondition ((Text.code?_eq_some_iff (by decide)).mpr ⟨_, hplace⟩) hinside ?_ ?_
    · rw [Cursor.closer?_eq hplace, hg]
      rfl
    · by_contra hb
      have hall : raw.all isBlank = false := by simpa using hb
      exact Text.trim_ne_nil hall ht
  case blockExpected paren raw rest hp hg hs =>
    obtain ⟨i, hi⟩ := hp.exists_conditionAt?
    have hparen := Text.suffix?_offset hp.suffix
    obtain ⟨inside, rfl⟩ := hp.exists_cons
    obtain ⟨_, closer, hcloser, rfl⟩ := Cursor.exists_isCloser hg
    have hclose := Text.suffix?_add_size (Text.suffix?_succ (by decide) hparen)
    have hrest := Text.suffix?_succ (Cursor.onlyAscii_isCloser.toNat_lt hcloser) hclose
    refine .blockExpected hi ?_ (isNext_skipSpace hrest) ?_
    · rw [Cursor.closer?_eq hparen, hg]
      rfl
    · exact mt (Text.code?_eq_some_iff_head? hplace (by decide)).mp hs
  case alternateExpected paren rest hp he hs =>
    have helse := Text.suffix?_offset he
    refine .alternateExpected helse (isNext_skipSpace (Text.suffix?_add_size helse)) ?_
    exact mt (Text.code?_eq_some_iff_head? hplace (by decide)).mp hs
  case unterminatedBlock hb _ =>
    exact .unterminatedBlock ((Text.code?_eq_some_iff_head? hplace (by decide)).mpr hb)

end Places

-- An error of reading names a place in the text that shows the reason for it, and there is none
-- without a directive.
theorem reason_of_parse_error (t : Text) :
    (∀ e, parse t = .error e → e.offset ≤ t.size ∧ (t.suffix? e.offset).isSome ∧
      (∃ i, (conditionAt? t i).isSome) ∧ Reason t e.offset e.cause.message) ∧
    ((∀ i, conditionAt? t i = none) → ∃ m, parse t = .ok m) := by
  have hfault (e : Error) (h : parse t = .error e) : ∃ failure, Fault t failure ∧
      e = ⟨failure.cause, t.offset failure.rest⟩ := by
    unfold parse at h
    cases he : events [] t <;> rw [he] at h <;> cases h
    exact ⟨_, .of_events (.start t) he, rfl⟩
  have hdirective (failure : Failure) (h : Fault t failure) : ∃ i, (conditionAt? t i).isSome := by
    obtain ⟨_, paren, hp⟩ := h.exists_asks
    obtain ⟨i, hi⟩ := hp.exists_conditionAt?
    exact ⟨i, by rw [hi]; rfl⟩
  constructor
  · intro e h
    obtain ⟨failure, hf, rfl⟩ := hfault e h
    have hplace := Text.suffix?_offset hf.exists_asks.left
    have hsize := Text.add_size_of_suffix? hplace
    exact ⟨by dsimp only; omega, by rw [hplace]; rfl, hdirective failure hf, hf.reason⟩
  · intro hnone
    cases h : parse t
    case ok m => exact ⟨m, rfl⟩
    case error e =>
      obtain ⟨failure, hf, _⟩ := hfault e h
      obtain ⟨i, hi⟩ := hdirective failure hf
      simp [hnone i] at hi

theorem reason_of_parse_error_else :
    parse "a @if (b) \x7b\x7b\x7d\x7d \n@else c".toList = .error ⟨.alternateExpected, 22⟩ ∧
    Reason "a @if (b) \x7b\x7b\x7d\x7d \n@else c".toList 22 "expected `\x7b` after @else".toList ∧
    ∃ m, parse "Don't \x7b".toList = .ok m := by
  have herror : parse "a @if (b) \x7b\x7b\x7d\x7d \n@else c".toList =
      .error ⟨.alternateExpected, 22⟩ := by
    cbv
  have hnone (i : Nat) : conditionAt? "Don't \x7b".toList i = none := by
    rw [Option.eq_none_iff_forall_ne_some]
    intro n hn
    obtain ⟨u, hs, hu⟩ := Option.bind_eq_some_iff.mp hn
    obtain ⟨paren, hp, _⟩ := Option.bind_eq_some_iff.mp hu
    obtain ⟨space, rest, rfl, _⟩ := condition?_eq_some_iff.mp hp
    obtain ⟨before, ht, _⟩ := Text.suffix?_eq_some_iff.mp hs
    have hmem : '@' ∈ "Don't \x7b".toList := by
      simp only [ht, List.mem_append, List.mem_cons, true_or, or_true]
    exact absurd hmem (by decide)
  have hreason := (reason_of_parse_error _).left _ herror
  exact ⟨herror, hreason.right.right.right, (reason_of_parse_error _).right hnone⟩

end Componentry.Markup
