import Mathlib
import Componentry.Component.Compile
import Componentry.Proofs.Text.Runs

/-!
The blank lines around the markup of a component. To drop them is to cut the text into lines, drop
the blank ones at both ends and join the others again. What is left starts where a line starts, and
nothing but blanks is lost, so that a text without blanks at its ends stays as it is.
-/
namespace Componentry

namespace Text

section Lines

variable {s t : Text} {lines : List Text}

theorem dropBlankLines_go (hs : ∀ c ∈ s, isBlank c) (hn : '\n' ∉ s) (line t : Text) :
    dropBlankLines.go line (s ++ t) = dropBlankLines.go line t := by
  induction s
  case nil => rfl
  case cons c s ih =>
    have ⟨hc, hs⟩ := List.forall_mem_cons.mp hs
    have ⟨hne, hn⟩ : '\n' ≠ c ∧ '\n' ∉ s := by simpa using hn
    rw [List.cons_append, dropBlankLines.go, hc]
    simp [hne.symm, ih hs hn]

theorem dropBlankLines_blank (hs : ∀ c ∈ s, isBlank c) (hn : '\n' ∉ s) (t : Text) :
    dropBlankLines (s ++ '\n' :: t) = dropBlankLines t := by
  rw [dropBlankLines, dropBlankLines_go hs hn, dropBlankLines.go]
  rfl

theorem dropBlankLines_content (hs : ¬∀ c ∈ s, isBlank c) (hn : '\n' ∉ s) (t : Text) :
    dropBlankLines (s ++ t) = s ++ t := by
  obtain ⟨blanks, hblanks, hall⟩ := exists_dropWhile isBlank s
  have hrest : s.dropWhile isBlank ≠ [] := fun h => hs (List.dropWhile_eq_nil_iff.mp h)
  obtain ⟨c, rest, hc⟩ := List.exists_cons_of_ne_nil hrest
  have hblank := head?_dropWhile isBlank s
  rw [hc] at hblanks hblank
  have hfirst : isBlank c = false := by simpa using hblank
  have hno : '\n' ∉ blanks := fun h => hn (hblanks ▸ List.mem_append_left _ h)
  rw [dropBlankLines, hblanks, List.append_assoc, dropBlankLines_go hall hno, List.cons_append,
    dropBlankLines.go, hfirst]
  rfl

theorem dropBlankLines_last (hs : ∀ c ∈ s, isBlank c) (hn : '\n' ∉ s) : dropBlankLines s = [] := by
  simpa [dropBlankLines, dropBlankLines.go] using dropBlankLines_go hs hn s []

theorem not_mem_of_mem_splitOn {c : Char} (h : s ∈ t.splitOn c) : c ∉ s := by
  induction t generalizing s
  case nil => simp_all
  case cons d t ih =>
    rw [List.splitOn_cons_eq_if_modifyHead] at h
    split at h
    case isTrue =>
      rcases List.mem_cons.mp h with rfl | h
      case inl => simp
      case inr => exact ih h
    case isFalse hd =>
      obtain ⟨line, lines, hl⟩ := List.exists_cons_of_ne_nil (List.splitOn_ne_nil c t)
      rw [hl] at h ih
      rcases List.mem_cons.mp h with rfl | h
      case inl =>
        have hline : c ∉ line := ih (List.mem_cons_self ..)
        have hne : c ≠ d := by
          rintro rfl
          simp at hd
        simp [hline, hne]
      case inr => exact ih (List.mem_cons_of_mem _ h)

theorem intercalate_concat (c : Char) (hn : lines ≠ []) (line : Text) :
    [c].intercalate (lines ++ [line]) = [c].intercalate lines ++ c :: line := by
  induction lines
  case nil => exact absurd rfl hn
  case cons first lines ih =>
    cases lines
    case nil => simp
    case cons second lines =>
      rw [List.cons_append, List.cons_append, List.intercalate_cons_cons,
        List.intercalate_cons_cons, ← List.cons_append, ih (by simp),
        List.append_assoc _ _ (c :: line)]

theorem reverse_intercalate (c : Char) (lines : List Text) :
    ([c].intercalate lines).reverse = [c].intercalate (lines.map List.reverse).reverse := by
  induction lines
  case nil => rfl
  case cons line lines ih =>
    cases lines
    case nil => simp
    case cons second lines =>
      rw [List.intercalate_cons_cons, List.map_cons, List.reverse_cons,
        intercalate_concat c (by simp), ← ih]
      simp

def contentLines (t : Text) : List Text :=
  ((t.splitOn '\n').dropWhile (·.all isBlank)).rdropWhile (·.all isBlank)

theorem dropBlankLines_intercalate (h : ∀ line ∈ lines, '\n' ∉ line) :
    dropBlankLines (['\n'].intercalate lines) =
      ['\n'].intercalate (lines.dropWhile (·.all isBlank)) := by
  induction lines
  case nil => rfl
  case cons line lines ih =>
    obtain ⟨hno, hlines⟩ := List.forall_mem_cons.mp h
    by_cases hblank : ∀ c ∈ line, isBlank c
    case pos =>
      rw [List.dropWhile_cons_of_pos (by simpa using hblank), ← ih hlines]
      cases lines
      case nil => exact List.intercalate_singleton ▸ dropBlankLines_last hblank hno
      case cons =>
        rw [List.intercalate_cons_cons, List.append_assoc]
        exact dropBlankLines_blank hblank hno _
    case neg =>
      rw [List.dropWhile_cons_of_neg (by simpa using hblank)]
      cases lines
      case nil => simpa using dropBlankLines_content hblank hno []
      case cons =>
        rw [List.intercalate_cons_cons, List.append_assoc]
        exact dropBlankLines_content hblank hno _

-- From the end the same lines are dropped as from the start of the reversed text.
theorem trimBlankLines_eq_intercalate (t : Text) :
    t.trimBlankLines = (['\n'].intercalate t.contentLines).rdropWhile (· = '\r') := by
  have hno : ∀ line ∈ t.splitOn '\n', '\n' ∉ line := fun _ => not_mem_of_mem_splitOn
  have hstart := dropBlankLines_intercalate hno
  rw [List.intercalate_splitOn] at hstart
  rw [trimBlankLines, contentLines, hstart]
  generalize hkept : (t.splitOn '\n').dropWhile (·.all isBlank) = kept
  have hlines : ∀ line ∈ (kept.map List.reverse).reverse, '\n' ∉ line := by
    intro line hline
    obtain ⟨line, hmem, rfl⟩ := List.mem_map.mp (List.mem_reverse.mp hline)
    rw [List.mem_reverse]
    exact hno line ((List.dropWhile_sublist _).mem (hkept ▸ hmem))
  have hend : (['\n'].intercalate (kept.rdropWhile (·.all isBlank))).reverse =
      dropBlankLines (['\n'].intercalate kept).reverse := by
    rw [reverse_intercalate, reverse_intercalate, dropBlankLines_intercalate hlines,
      List.rdropWhile, ← List.map_reverse, List.reverse_reverse, ← List.map_reverse,
      List.dropWhile_map]
    simp [Function.comp_def]
  rw [← hend]
  rfl

end Lines

def HasContent (t : Text) : Prop :=
  ∃ indentation c rest, t = indentation ++ c :: rest ∧ (∀ d ∈ indentation, isBlank d) ∧
    '\n' ∉ indentation ∧
    isBlank c = false

section Content

variable {s t u : Text}

theorem exists_of_append_blanks {c : Char} {rest : Text} (h : t ++ u = s ++ c :: rest)
    (hu : ∀ d ∈ u, isBlank d) (hc : isBlank c = false) : ∃ more, t = s ++ c :: more := by
  rcases List.append_eq_append_iff.mp h with ⟨a, rfl, ha⟩ | ⟨a, rfl, ha⟩
  case inl =>
    have hblank := hu c (by simp [ha])
    simp [hblank] at hc
  case inr =>
    cases a
    case nil =>
      have hblank := hu c (by simp at ha; simp [← ha])
      simp [hblank] at hc
    case cons d a =>
      obtain ⟨rfl, _⟩ := List.cons.inj ha
      exact ⟨a, rfl⟩

namespace HasContent

theorem of_append (h : HasContent (t ++ u)) (hu : ∀ c ∈ u, isBlank c) : HasContent t := by
  obtain ⟨indentation, c, rest, ht, hblank, hno, hc⟩ := h
  obtain ⟨more, hmore⟩ := exists_of_append_blanks ht hu hc
  exact ⟨indentation, c, more, hmore, hblank, hno, hc⟩

theorem of_prepend (h : HasContent (u ++ t)) (hu : ∀ c ∈ u, isBlank c) : HasContent t := by
  obtain ⟨indentation, c, rest, ht, hblank, hno, hc⟩ := h
  rcases List.append_eq_append_iff.mp ht with ⟨a, rfl, ha⟩ | ⟨a, rfl, ha⟩
  case inl =>
    rw [List.forall_mem_append] at hblank
    exact ⟨a, c, rest, ha, hblank.right, fun h => hno (List.mem_append_right _ h), hc⟩
  case inr =>
    cases a
    case nil => exact ⟨[], c, rest, by simpa using ha.symm, by simp, by simp, hc⟩
    case cons d a =>
      obtain ⟨rfl, _⟩ := List.cons.inj ha
      have hblank := hu c (by simp)
      simp [hblank] at hc

theorem dropBlankLines_eq (h : HasContent t) : dropBlankLines t = t := by
  obtain ⟨indentation, c, rest, rfl, _, hno, hc⟩ := h
  have hne : '\n' ≠ c := by
    rintro rfl
    cases hc
  have hcontent : ¬∀ d ∈ indentation ++ [c], isBlank d :=
    fun hall => by simp [hall c (by simp)] at hc
  simpa using dropBlankLines_content hcontent (by simp [hno, hne]) rest

theorem not_blank (h : HasContent t) : ¬∀ c ∈ t, isBlank c := by
  obtain ⟨indentation, c, rest, rfl, _, _, hc⟩ := h
  intro hall
  simp [hall c (by simp)] at hc

end HasContent

theorem exists_dropBlankLines_go (hs : ∀ c ∈ s, isBlank c) (hno : '\n' ∉ s) :
    ∃ lost, s ++ t = lost ++ dropBlankLines.go (s ++ t) t ∧ (∀ c ∈ lost, isBlank c) ∧
      (dropBlankLines.go (s ++ t) t = [] ∨ HasContent (dropBlankLines.go (s ++ t) t)) := by
  induction t generalizing s
  case nil => exact ⟨s, by simp [dropBlankLines.go], hs, .inl rfl⟩
  case cons c t ih =>
    rw [dropBlankLines.go]
    cases hc : isBlank c
    case false => exact ⟨[], by simp, by simp, .inr ⟨s, c, t, by simp, hs, hno, hc⟩⟩
    case true =>
      by_cases hline : c = '\n'
      case pos =>
        obtain ⟨lost, ht, hlost, hkept⟩ := @ih [] (by simp) (by simp)
        rw [List.nil_append] at ht hkept
        refine ⟨s ++ c :: lost, ?_, ?_, ?_⟩
        · simpa [hline] using ht
        · simpa [or_imp, forall_and, hc] using ⟨hs, hlost⟩
        · simpa [hline] using hkept
      case neg =>
        have hnext :=
          @ih (s ++ [c]) (by simpa [or_imp, forall_and, hc] using hs) (by simp [hno, Ne.symm hline])
        simpa [hline] using hnext

theorem exists_dropBlankLines (t : Text) : ∃ lost, t = lost ++ dropBlankLines t ∧
    (∀ c ∈ lost, isBlank c) ∧
    (dropBlankLines t = [] ∨ HasContent (dropBlankLines t)) :=
  @exists_dropBlankLines_go [] t (by simp) (by simp)

theorem isBlank_of_isReturn {c : Char} (h : decide (c = '\r')) : isBlank c := by
  rw [of_decide_eq_true h]
  decide

theorem exists_trimBlankLines (t : Text) :
    ∃ before after, t = before ++ t.trimBlankLines ++ after ∧ (∀ c ∈ before, isBlank c) ∧
      (∀ c ∈ after, isBlank c) ∧ (t.trimBlankLines = [] ∨ HasContent t.trimBlankLines ∧
        HasContent t.trimBlankLines.reverse ∧
        t.trimBlankLines.getLast?.any (· = '\r') = false) := by
  obtain ⟨before, hbefore, hblank, hstart⟩ := t.exists_dropBlankLines
  obtain ⟨lost, hlost, hend, hkept⟩ := exists_dropBlankLines (dropBlankLines t).reverse
  obtain ⟨returns, hreturns, hcr⟩ :=
    exists_dropWhile (· = '\r') (dropBlankLines (dropBlankLines t).reverse)
  have hlast := head?_dropWhile (· = '\r') (dropBlankLines (dropBlankLines t).reverse)
  rw [trimBlankLines]
  generalize dropBlankLines (dropBlankLines t).reverse = backward at *
  generalize backward.dropWhile (· = '\r') = rest at *
  have hblanks : ∀ c ∈ returns, isBlank c := fun c hc => isBlank_of_isReturn (hcr c hc)
  have hafter : ∀ c ∈ (lost ++ returns).reverse, isBlank c := by
    simpa [or_imp, forall_and] using ⟨hblanks, hend⟩
  have hforward : dropBlankLines t = rest.reverse ++ (lost ++ returns).reverse := by
    rw [← List.reverse_append, List.append_assoc, ← hreturns, ← hlost, List.reverse_reverse]
  refine ⟨before, (lost ++ returns).reverse,
    by rw [List.append_assoc, ← hforward, ← hbefore], hblank, hafter, ?_⟩
  by_cases hnil : rest = []
  case pos => exact .inl (by rw [hnil]; rfl)
  case neg =>
    rw [hforward] at hstart
    rw [hreturns] at hkept
    refine .inr ⟨(hstart.resolve_left (by simp [hnil])).of_append hafter, ?_, ?_⟩
    · rw [List.reverse_reverse]
      exact (hkept.resolve_left (by simp [hnil])).of_prepend hblanks
    · rw [List.getLast?_reverse]
      exact hlast

theorem trimBlankLines_trimBlankLines (t : Text) :
    t.trimBlankLines.trimBlankLines = t.trimBlankLines := by
  obtain ⟨_, _, _, _, _, hnil | ⟨hstart, hend, hlast⟩⟩ := t.exists_trimBlankLines
  case inl =>
    rw [hnil]
    rfl
  case inr =>
    generalize t.trimBlankLines = rest at *
    rw [← List.head?_reverse] at hlast
    have hreturn : rest.reverse.dropWhile (· = '\r') = rest.reverse :=
      dropWhile_append_run (s := []) (by simp) hlast
    rw [trimBlankLines, hstart.dropBlankLines_eq, hend.dropBlankLines_eq, hreturn,
      List.reverse_reverse]

theorem trimBlankLines_eq_nil_iff : t.trimBlankLines = [] ↔ ∀ c ∈ t, isBlank c := by
  obtain ⟨before, after, ht, hbefore, hafter, hrest⟩ := t.exists_trimBlankLines
  constructor
  case mp =>
    intro hnil
    rw [ht, hnil]
    simpa [or_imp, forall_and] using ⟨hbefore, hafter⟩
  case mpr =>
    intro hall
    refine hrest.resolve_right fun ⟨hcontent, _⟩ => hcontent.not_blank fun c hc => hall c ?_
    rw [ht]
    simp [hc]

theorem filter_trimBlankLines (t : Text) :
    t.trimBlankLines.filter (!isBlank ·) = t.filter (!isBlank ·) := by
  obtain ⟨before, after, ht, hbefore, hafter, _⟩ := t.exists_trimBlankLines
  have hnone {s : Text} (hs : ∀ c ∈ s, isBlank c) : s.filter (!isBlank ·) = [] := by
    rw [List.filter_eq_nil_iff]
    intro c hc
    simp [hs c hc]
  conv_rhs => rw [ht, List.filter_append, List.filter_append, hnone hbefore, hnone hafter]
  simp

-- The first line that is kept is not blank, so that its indentation is all of the blanks at the
-- start.
theorem takeWhile_trimBlankLines {line : Text} (h : line ∈ t.contentLines.head?) :
    t.trimBlankLines.takeWhile isBlank = line.takeWhile isBlank := by
  obtain ⟨more, hlines⟩ := List.head?_eq_some_iff.mp h
  have hcontent : line.all isBlank = false := by
    have hfirst := List.head?_dropWhile_not (·.all isBlank) (t.splitOn '\n')
    obtain ⟨lost, hkept⟩ :=
      List.rdropWhile_prefix (·.all isBlank) ((t.splitOn '\n').dropWhile (·.all isBlank))
    rw [← contentLines, hlines, List.cons_append] at hkept
    rw [← hkept] at hfirst
    simpa using hfirst
  obtain ⟨indentation, hline, _⟩ := exists_dropWhile isBlank line
  have hstop := head?_dropWhile isBlank line
  cases hrest : line.dropWhile isBlank
  case nil =>
    rw [List.all_eq_true.mpr (List.dropWhile_eq_nil_iff.mp hrest)] at hcontent
    cases hcontent
  case cons c rest =>
    rw [hrest] at hline hstop
    obtain ⟨tail, htail⟩ : ∃ tail, ['\n'].intercalate (line :: more) = line ++ tail := by
      cases more
      case nil => exact ⟨[], by simp⟩
      case cons => exact ⟨_, by rw [List.intercalate_cons_cons, List.append_assoc]⟩
    have hjoin :=
      List.rdropWhile_append_rtakeWhile (p := (· = '\r')) (l := ['\n'].intercalate t.contentLines)
    rw [← trimBlankLines_eq_intercalate, hlines, htail, hline, List.append_assoc,
      List.cons_append] at hjoin
    obtain ⟨after, hafter⟩ := exists_of_append_blanks hjoin
      (fun d hd => isBlank_of_isReturn (List.mem_rtakeWhile_imp (x := d) hd)) hstop
    have hkept : (indentation ++ c :: after).takeWhile isBlank = indentation.takeWhile isBlank :=
      takeWhile_append_stop hstop
    rw [hafter, hline, hkept, takeWhile_append_stop hstop]

theorem trimBlankLines_infix (t : Text) : t.trimBlankLines <:+: t := by
  obtain ⟨before, after, ht, _⟩ := t.exists_trimBlankLines
  exact ⟨before, after, ht.symm⟩

end Content
end Text

theorem Body.trim_argument {source : Text} {start : Nat} {body : Body}
    (h : split source start = .ok body) :
    body.argument.trim = body.argument := by
  unfold split at h
  dsimp only at h
  split at h
  case h_1 => cases h
  case h_2 => split at h <;> cases h
  case h_3 =>
    split at h
    case h_1 =>
      cases h
      exact Text.trim_trim _
    case h_2 => split at h <;> cases h

theorem Component.analyze_eq_parse {source : Text} {header : Header} {body : Body}
    (hh : Header.extract source = .ok header) (hb : Body.split source header.bodyStart = .ok body)
    (file : Text) :
    analyze file source =
      ((Markup.parse body.argument).map (Component.mk header body)).mapError fun e =>
        Problem.inFile ⟨.malformedRender, body.renderOffset, some e.cause.message⟩ file source := by
  have hargument := Text.trimBlankLines_trim body.argument
  rw [Body.trim_argument hb] at hargument
  simp only [analyze, read, hh, hb, hargument, bind, Except.bind]
  cases Markup.parse body.argument <;> rfl

-- Trimming by lines, what it keeps, and what it means for the markup of a component.
theorem Text.trimBlankLines_by_lines (t : Text) :
    t.trimBlankLines = (['\n'].intercalate t.contentLines).rdropWhile (· = '\r') ∧
      (t.trimBlankLines = [] ↔ ∀ c ∈ t, isBlank c) ∧
      t.trimBlankLines <:+: t ∧
      t.trimBlankLines.trimBlankLines = t.trimBlankLines ∧
      t.trimBlankLines.filter (!isBlank ·) = t.filter (!isBlank ·) ∧
      (∀ line ∈ t.contentLines.head?, t.trimBlankLines.takeWhile isBlank = line.takeWhile isBlank) ∧
      t.trim.trimBlankLines = t.trim ∧
      ∀ file source header body, Header.extract source = .ok header →
        Body.split source header.bodyStart = .ok body →
        body.argument.trim = body.argument ∧ Component.analyze file source =
          ((Markup.parse body.argument).map (Component.mk header body)).mapError fun e =>
            Problem.inFile ⟨.malformedRender, body.renderOffset, some e.cause.message⟩ file
              source :=
  ⟨t.trimBlankLines_eq_intercalate, trimBlankLines_eq_nil_iff, t.trimBlankLines_infix,
    t.trimBlankLines_trimBlankLines, t.filter_trimBlankLines, fun _ => takeWhile_trimBlankLines,
    t.trimBlankLines_trim, fun file _ _ _ hh hb =>
      ⟨Body.trim_argument hb, Component.analyze_eq_parse hh hb file⟩⟩

theorem Text.trimBlankLines_by_lines_mixed :
    contentLines "\u3000\r\n\n \tDon't\u00a0\r\n\r\n  @a\r\r\n \x0b".toList =
        [" \tDon't\u00a0\r".toList, ['\r'], "  @a\r\r".toList] ∧
      trimBlankLines "\u3000\r\n\n \tDon't\u00a0\r\n\r\n  @a\r\r\n \x0b".toList =
        " \tDon't\u00a0\r\n\r\n  @a".toList ∧
      ∃ source header body, Header.extract source = .ok header ∧
      Body.split source header.bodyStart = .ok body ∧
        body.argument.trim = body.argument ∧ body.argument = "Don't\n  @a".toList := by
  have hlines : contentLines "\u3000\r\n\n \tDon't\u00a0\r\n\r\n  @a\r\r\n \x0b".toList =
      [" \tDon't\u00a0\r".toList, ['\r'], "  @a\r\r".toList] := by
    cbv
  refine ⟨hlines, ?_, ?_⟩
  · rw [(trimBlankLines_by_lines _).left, hlines]
    cbv
  · obtain ⟨source, header, body, hh, hb, hargument⟩ :
        ∃ source header body, Header.extract source = .ok header ∧
        Body.split source header.bodyStart = .ok body ∧ body.argument = "Don't\n  @a".toList :=
      ⟨"export ephemeral A() \x7b render(\n Don't\n  @a\r\n); \x7d".toList,
        ⟨.ephemeral, ['A'], [], 22⟩, ⟨[], "Don't\n  @a".toList, 23⟩, by decide +kernel,
        by decide +kernel, rfl⟩
    obtain ⟨_, _, _, _, _, _, _, hanalyze⟩ := trimBlankLines_by_lines []
    exact ⟨source, header, body, hh, hb, (hanalyze [] source header body hh hb).left, hargument⟩

end Componentry
