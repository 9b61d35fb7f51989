import Componentry.Proofs.Markup.Spelling

/-!
The template of markup as a literal: where the code around it goes on. The text and the names cannot
end a template or run on past it. A condition can, if it was trimmed of the line feed that ended a
comment or a string in it.
-/
namespace Componentry.Markup

open Code Context

section Template

variable (outer : List Context) {t u rest : Text}

theorem leave_dollar (h : rest.head? ≠ some '{') :
    leave (.dollar :: outer) rest = leave (.template :: outer) rest := by
  cases rest
  case nil => rfl
  case cons c rest =>
    have hc : c ≠ '{' := by simpa using h
    simp [leave, after, hc]

-- A `$` at the end of the text must not meet a brace.
theorem leave_escape (h : rest.head? ≠ some '{') :
    leave (.template :: outer) (escape t ++ rest) =
      (leave (.template :: outer) rest).map fun p => (escape t ++ p.1, p.2) := by
  induction t
  case nil => simp [escape]
  case cons c t ih =>
    simp only [escape]
    split
    case isTrue => simp [leave, after, afterTemplate, ih, Function.comp_def]
    case isFalse hc =>
      simp only [Bool.or_eq_true, Bool.and_eq_true, decide_eq_true_eq, not_or, not_and] at hc
      obtain ⟨⟨hb, hbt⟩, hd⟩ := hc
      have hstep : leave (after (.template :: outer) c) (escape t ++ rest) =
          leave (.template :: outer) (escape t ++ rest) := by
        by_cases he : c = '$'
        case pos =>
          subst he
          exact leave_dollar outer (head?_escape_append (hd rfl) h)
        case neg => simp [after, afterTemplate, hb, hbt, he]
      rw [List.cons_append, leave, hstep, ih]
      simp [Function.comp_def]

theorem reads_substitution (h : Neutral t) :
    Reads (.template :: outer) ('$' :: '{' :: t ++ ['}']) (.template :: outer) := by
  apply Reads.cons
  apply Reads.cons
  apply (h (.template :: outer)).append
  apply Reads.cons
  exact .nil

end Template

section Neutral

theorem neutral_choice {condition yes no : Text} (hc : Delimited condition) (hyes : Neutral yes)
    (hno : Neutral no) : Neutral (choice condition yes no) := by
  have hif : Neutral " if ".toList := .of_all (by decide)
  have hspace : Neutral " ".toList := .of_all (by decide)
  have hreturn : Neutral " return ".toList := .of_all (by decide)
  have hend : Neutral "; ".toList := .of_all (by decide)
  have harrow : Neutral " => ".toList := .of_all (by decide)
  have hcall : Neutral ['(', ')'] := .group (by decide) (by decide) .nil
  have hthen : Neutral ('{' :: (" return ".toList ++ yes ++ "; ".toList) ++ ['}']) :=
    .group (by decide) (by decide) ((hreturn.append hyes).append hend)
  have hbody := (((((hif.append hc.neutral).append hspace).append hthen).append hreturn).append
    hno).append hend
  have hfunction := (hcall.append harrow).append
    (hbody.group (by decide : isOpener '{') (by decide : isCloser '}'))
  have hall := (hfunction.group (by decide : isOpener '(') (by decide : isCloser ')')).append hcall
  have he := choice_append condition yes no []
  simp only [String.reduceToList, List.append_assoc, List.cons_append, List.nil_append,
    List.append_nil] at he hall
  rwa [he]

theorem neutral_sum {ts : List Text} (h : ∀ t ∈ ts, Neutral t) : Neutral (sum ts) := by
  have hempty : Neutral ['"', '"'] := neutral_quoted []
  have hplus : Neutral " + ".toList := .of_all (by decide)
  unfold sum
  split
  case h_1 => exact hempty
  case h_2 =>
    split
    · exact hplus.joinWith h
    · exact hplus.joinWith (List.forall_mem_cons.mpr ⟨hempty, h⟩)

theorem neutral_name {identifier : Text} (h : Identifier.IsName identifier) : Neutral identifier :=
  .of_isOrdinary fun _ hc => isOrdinary_of_isPart (h.isPart_of_mem hc)

theorem neutral_operands {m : Markup} (hn : ∀ identifier ∈ m.names, Identifier.IsName identifier)
    (hc : ∀ condition ∈ m.conditions, Delimited condition) : ∀ t ∈ m.operands, Neutral t := by
  induction m
  case empty => simp [operands]
  case text content rest ih =>
    simp only [operands]
    split
    · exact ih hn hc
    · exact List.forall_mem_cons.mpr ⟨neutral_quoted content, ih hn hc⟩
  case name identifier rest ih =>
    obtain ⟨hi, hn⟩ := List.forall_mem_cons.mp hn
    exact List.forall_mem_cons.mpr
      ⟨(neutral_name hi).group (by decide) (by decide), ih hn hc⟩
  case conditional condition body alternate rest ihb iha ihr =>
    simp only [names, conditions, List.forall_mem_append, List.cons_append,
      List.forall_mem_cons] at hn hc
    obtain ⟨⟨hnb, hna⟩, hnr⟩ := hn
    obtain ⟨hd, ⟨hcb, hca⟩, hcr⟩ := hc
    have hchoice := neutral_choice hd (neutral_sum (ihb hnb hcb)) (neutral_sum (iha hna hca))
    exact List.forall_mem_cons.mpr ⟨hchoice, ihr hnr hcr⟩

end Neutral

theorem leave_templateParts {m : Markup} (ht : m.textsApart)
    (hn : ∀ identifier ∈ m.names, Identifier.IsName identifier)
    (hc : ∀ condition ∈ m.conditions, Delimited condition) (t : Text) :
    leave [.template] (m.templateParts ++ '`' :: t) = some (m.templateParts ++ ['`'], t) := by
  induction m
  case empty => simp [templateParts, leave, after, afterTemplate]
  case text content rest ih =>
    simp only [textsApart, Bool.and_eq_true, Bool.not_eq_true'] at ht
    rw [templateParts, List.append_assoc, leave_escape [] (head?_templateParts ht.left t),
      ih ht.right hn hc]
    simp
  case name identifier rest ih =>
    obtain ⟨hi, hn⟩ := List.forall_mem_cons.mp hn
    have hr := reads_substitution [] (neutral_name hi) (rest.templateParts ++ '`' :: t)
    rw [ih ht hn hc] at hr
    simpa [templateParts] using hr
  case conditional condition body alternate rest _ _ ih =>
    have hops := neutral_operands hn hc
    simp only [operands, List.forall_mem_cons] at hops
    simp only [names, conditions, List.forall_mem_append, List.cons_append,
      List.forall_mem_cons] at hn hc
    have hr := reads_substitution [] hops.left (rest.templateParts ++ '`' :: t)
    rw [ih ht hn.right hc.right.right] at hr
    simpa [templateParts] using hr

theorem literalEnd?_template (m : Markup) (t : Text) : literalEnd? (m.template ++ t) 0 =
    some (literal?.through .template ['`'] (m.templateParts ++ '`' :: t)).1.size := by
  simp [literalEnd?, template, Text.suffix?, literal?]

theorem literalEnd?_template_append {m : Markup} (ht : m.textsApart)
    (hn : ∀ identifier ∈ m.names, Identifier.IsName identifier)
    (hc : ∀ condition ∈ m.conditions, Delimited condition) (t : Text) :
    literalEnd? (m.template ++ t) 0 = some m.template.size := by
  rw [literalEnd?_template, literal?.through, leave_templateParts ht hn hc t]
  rfl

def single (condition : Text) : Markup :=
  .conditional condition .empty .empty .empty

section Single

variable {condition : Text}

theorem templateParts_single (t : Text) : (single condition).templateParts ++ '`' :: t =
    "$\x7b(() => \x7b if (".toList ++ (condition ++
      (") \x7b return \"\"; \x7d return \"\"; \x7d)()\x7d`".toList ++ t)) := by
  have he := choice_append condition ['"', '"'] ['"', '"'] ('}' :: '`' :: t)
  simp only [String.reduceToList, List.cons_append, List.nil_append] at he
  simp [single, templateParts, operands, sum, he]

-- No line ends after the condition, so what is left open stays so.
theorem advance_single (h : Dangling (advance [.group] condition)) :
    advance [.template] ((single condition).templateParts ++ ['`', ';']) ≠ [] := by
  have hn : advance [.group] condition ≠ [] := by
    intro he
    rw [he] at h
    cases h
  have hbefore : advance [.template] "$\x7b(() => \x7b if (".toList =
      [.group] ++ [.group, .group, .group, .template] := by
    decide
  rw [templateParts_single, advance_append, hbefore, advance_append,
    advance_append_left (by simp [SelfContained]) _ hn]
  generalize advance [.group] condition = within at h
  cases h
  case line => decide
  case quoted hq => rcases hq with rfl | rfl <;> decide
  case escape hq => rcases hq with rfl | rfl <;> decide

theorem literalEnd?_single (h : Dangling (advance [.group] condition)) :
    literalEnd? ((single condition).template ++ [';']) 0 =
      some ((single condition).template.size + 1) := by
  rw [literalEnd?_template, literal?.through, leave_eq_none (advance_single h)]
  have hsize : ';'.utf8Size = 1 := rfl
  simp [template, hsize, Nat.add_assoc]

theorem parse_single {raw : Text} (hd : Delimited raw) (hn : raw.trim ≠ []) :
    parse (Text.trimBlankLines ("@if (".toList ++ raw ++ ") \x7b\x7d".toList)) =
      .ok (single raw.trim) := by
  have hlast : ("@if (".toList ++ raw ++ ") \x7b\x7d".toList).getLast?.any isBlank = false := by
    rw [List.getLast?_append]
    rfl
  rw [Text.trimBlankLines_eq_self rfl hlast, List.append_assoc, parse_eq_ok_iff]
  refine ⟨[.opens raw.trim, .closes], .step (.opens_delimited hd hn [] ['}']) ?_, rfl⟩
  exact .step (.closes rfl (.inr rfl)) .done

end Single

-- The conditions of a text decide whether templates are closed. If all of them are delimited, every
-- text with no other conditions has a closed template, this text among them. If one is not, the
-- text with that condition alone has a template that runs on; longer texts may happen to close what
-- the condition leaves open.
theorem delimited_conditions_iff_closed {s : Text} {m : Markup}
    (h : parse s.trimBlankLines = .ok m) :
    (∀ condition ∈ m.conditions, Delimited condition) ↔
      ∀ s' m', parse (Text.trimBlankLines s') = .ok m' → m'.conditions ⊆ m.conditions →
        ∃ e, expressionOf s' = .ok e ∧ ∀ t, literalEnd? (e ++ t) 0 = some e.size := by
  constructor
  case mp =>
    intro hd s' m' h' hm
    have ⟨ht, hn, _⟩ := isSpelled_of_parse h'
    exact ⟨m'.template, by rw [expressionOf, h']; rfl,
      literalEnd?_template_append ht hn fun condition hc => hd condition (hm hc)⟩
  case mpr =>
    intro hall condition hc
    have ⟨raw, hraw, htrim, hne⟩ := (isSpelled_of_parse h).conditions condition hc
    subst htrim
    rcases hraw.trim with hd | hd
    case inl => exact hd
    case inr =>
      have hparse := parse_single hraw hne
      have ⟨e, he, hclosed⟩ := hall _ _ hparse (by simpa [single, conditions] using hc)
      rw [expressionOf, hparse] at he
      cases he
      have hend := literalEnd?_single hd
      rw [hclosed] at hend
      simp at hend

theorem closed_of_quoted_parenthesis :
    parse (Text.trimBlankLines "`$\x7b Don't @if (a[\")\"] /) \x7bx\x7d".toList) =
        .ok (.text "`$\x7b Don't ".toList
          (.conditional "a[\")\"] /".toList (.text ['x'] .empty) .empty .empty)) ∧
      ∃ e, expressionOf "`$\x7b Don't @if (a[\")\"] /) \x7bx\x7d".toList = .ok e ∧
        ∀ t, literalEnd? (e ++ t) 0 = some e.size := by
  have h : parse (Text.trimBlankLines "`$\x7b Don't @if (a[\")\"] /) \x7bx\x7d".toList) =
      .ok (.text "`$\x7b Don't ".toList
        (.conditional "a[\")\"] /".toList (.text ['x'] .empty) .empty .empty)) := by
    refine parse_eq_ok_iff.mpr ⟨_, .step (.plain rfl)
      (.step (.outside (.inl rfl)) (.step (.plain rfl)
      (.step (.opens rfl rfl) (.step (.plain rfl) (.step (.closes rfl (.inr rfl)) .done))))), rfl⟩
  exact ⟨h, (delimited_conditions_iff_closed h).mp (by decide) _ _ h (List.Subset.refl _)⟩

-- Trimming takes away the end of the comment, and the template takes in the semicolon after it.
theorem not_closed_of_line_comment :
    ∃ e, expressionOf "@if (a //\n) \x7b\x7d".toList = .ok e ∧
      literalEnd? (e ++ [';']) 0 = some (e.size + 1) := by
  have hparse : parse (Text.trimBlankLines "@if (a //\n) \x7b\x7d".toList) =
      .ok (single "a //".toList) :=
    parse_single (by decide : Delimited "a //\n".toList) (by decide)
  have hdangling : Dangling (advance [.group] "a //".toList) := .line
  exact ⟨(single "a //".toList).template, by rw [expressionOf, hparse]; rfl,
    literalEnd?_single hdangling⟩

end Componentry.Markup
