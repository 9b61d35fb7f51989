import Componentry.Proofs.Component.BlankLines
import Componentry.Proofs.Cursor.Span
import Componentry.Text.Lines
import Componentry.Text.Location

/-!
Lines found by a cursor: the place of an offset by line and column, and the text without the blank
lines at its ends.
-/
namespace Componentry.Cursor

def newlines (t : Text) : List Nat :=
  offsets (·.head? = some '\n') t

def boundary (t : Text) (i : Nat) : Checked Nat :=
  if (t.suffix? i).isSome then return i
  else do
    let j ← minus i 1
    if _ : j < i then boundary t j else throw .stuck
termination_by i

def location (t : Text) (offset : Nat) : Checked Location := do
  let i ← boundary t (min offset t.size)
  let before ← slice t 0 i
  let line ← sliceFrom before (((newlines before).getLast?.map (· + 1)).getD 0)
  return ⟨before.count '\n' + 1, line.length + 1⟩

def lines : Text → List Text
  | [] => []
  | c :: t =>
    if c = '\n' then [c] :: lines t
    else
      match lines t with
      | [] => [[c]]
      | line :: more => (c :: line) :: more

def contentEnd (t : Text) (i : Nat) : Checked Nat := do
  let before ← slice t 0 i
  match (newlines before).getLast? with
  | none => return i
  | some n =>
    let line ← slice t n i
    if line.trim = [] then
      if _ : n < i then contentEnd t n else throw .stuck
    else return i
termination_by i

def trimBlankLines (t : Text) : Checked Text := do
  let rest ← sliceFrom t (((lines t).takeWhile (·.trim = [])).map Text.size).sum
  let i ← contentEnd rest rest.size
  let kept ← slice rest 0 i
  return if kept.trim = [] then [] else (kept.reverse.dropWhile (· = '\r')).reverse

section Newlines

theorem newlines_cases (t : Text) : '\n' ∉ t ∧ (newlines t).getLast? = none ∨
    ∃ before line, t = before ++ '\n' :: line ∧ '\n' ∉ line ∧
      (newlines t).getLast? = some before.size := by
  induction t
  case nil => exact .inl ⟨by simp, rfl⟩
  case cons c t ih =>
    have hcons : newlines (c :: t) =
        (if c = '\n' then [0] else []) ++ (newlines t).map (c.utf8Size + ·) := by
      simp [newlines, offsets]
    rcases ih with ⟨hn, hlast⟩ | ⟨before, line, rfl, hn, hlast⟩
    case inl =>
      rw [List.getLast?_eq_none_iff] at hlast
      by_cases hc : c = '\n'
      case pos =>
        refine .inr ⟨[], t, by simp [hc], hn, ?_⟩
        rw [hcons, hlast]
        simp [hc]
      case neg => exact .inl ⟨by simp [hn, Ne.symm hc], by simp [hcons, hlast, hc]⟩
    case inr =>
      exact .inr ⟨c :: before, line, rfl, hn, by simp [hcons, List.getLast?_append, hlast]⟩

end Newlines

section Location

variable {t : Text} {i : Nat}

-- Inside a character or past the end, the text is cut where it is cut one byte before.
theorem cut_succ (h : t.suffix? (i + 1) = none) : t.cut (i + 1) = t.cut i := by
  induction t generalizing i
  case nil => rfl
  case cons c t ih =>
    rw [Text.suffix?] at h
    rw [Text.cut, Text.cut]
    by_cases hle : c.utf8Size ≤ i + 1
    case neg => rw [if_neg hle, if_neg (by omega)]
    case pos =>
      rw [if_pos hle] at h
      have hlt : c.utf8Size ≤ i := by
        rcases Nat.lt_or_eq_of_le hle with hlt | heq
        case inl => omega
        case inr => simp [heq, Text.suffix?_zero] at h
      rw [show i + 1 - c.utf8Size = i - c.utf8Size + 1 by omega] at h ⊢
      rw [if_pos hle, if_pos hlt, ih h]

theorem boundary_eq (t : Text) (i : Nat) : boundary t i = .ok (Text.size (t.cut i).1) := by
  induction i
  all_goals
    rw [boundary]
    split_ifs with hs
  case pos =>
    rw [← Text.size_nil, ← List.nil_append t, Text.cut_append_size]
    rfl
  case neg => simp [Text.suffix?_zero] at hs
  case pos i _ =>
    obtain ⟨u, hu⟩ := Option.isSome_iff_exists.mp hs
    obtain ⟨s, rfl, hsize⟩ := Text.suffix?_eq_some_iff.mp hu
    rw [← hsize, Text.cut_append_size]
    rfl
  case neg i ih =>
    rw [Option.not_isSome_iff_eq_none] at hs
    rw [minus_eq (by omega), ok_bind, Nat.add_sub_cancel, dif_pos (Nat.lt_succ_self i), ih,
      cut_succ hs]

theorem location_eq (t : Text) (offset : Nat) : location t offset = .ok (.ofOffset t offset) := by
  have hslice : slice t 0 (Text.size (t.cut offset).1) = .ok (t.cut offset).1 := by
    have h := slice_eq (t.suffix?_zero.trans (congrArg some (t.cut_append offset).symm))
    rwa [Nat.zero_add] at h
  rw [location, boundary_eq, Text.cut_min, ok_bind, hslice, ok_bind, Location.ofOffset,
    Location.after]
  generalize (t.cut offset).1 = before
  have hall {line : Text} (hn : '\n' ∉ line) : line.reverse.takeWhile (· ≠ '\n') = line.reverse :=
    List.takeWhile_eq_self_iff.mpr (Text.ne_of_mem_reverse hn)
  rcases newlines_cases before with ⟨hn, hlast⟩ | ⟨above, line, rfl, hn, hlast⟩
  case inl =>
    rw [hlast, hall hn]
    simp [sliceFrom_eq before.suffix?_zero]
  case inr =>
    have hline := Text.suffix?_succ (by decide) (Text.suffix?_append above ('\n' :: line))
    have hreverse : (above ++ '\n' :: line).reverse = line.reverse ++ '\n' :: above.reverse := by
      simp
    rw [hlast, hreverse, Text.takeWhile_append_stop rfl, hall hn]
    simp [sliceFrom_eq hline]

end Location

section Blank

open Text

variable {s t : Text}

theorem lines_append (hn : '\n' ∉ s) (t : Text) :
    lines (s ++ '\n' :: t) = (s ++ ['\n']) :: lines t := by
  induction s
  case nil => rfl
  case cons c s ih =>
    have ⟨hne, hn⟩ : '\n' ≠ c ∧ '\n' ∉ s := by simpa using hn
    rw [List.cons_append, lines, if_neg hne.symm, ih hn]
    rfl

theorem lines_last (hn : '\n' ∉ s) (hs : s ≠ []) : lines s = [s] := by
  induction s
  case nil => exact absurd rfl hs
  case cons c s ih =>
    have ⟨hne, hn⟩ : '\n' ≠ c ∧ '\n' ∉ s := by simpa using hn
    rw [lines, if_neg hne.symm]
    cases s
    case nil => rfl
    case cons d s => rw [ih hn (by simp)]

theorem trim_line (s : Text) : (s ++ ['\n']).trim = [] ↔ ∀ c ∈ s, isBlank c := by
  have hblank : isBlank '\n' := by decide
  simp [trim_eq_nil_iff, or_imp, forall_and, hblank]

theorem suffix?_blankLines (t : Text) :
    t.suffix? (((lines t).takeWhile (·.trim = [])).map Text.size).sum =
      some (dropBlankLines t) := by
  induction hn : t.length using Nat.strongRecOn generalizing t
  case ind n ih =>
  by_cases hm : '\n' ∈ t
  case neg =>
    by_cases ht : t = []
    case pos => simp [ht, lines, dropBlankLines, dropBlankLines.go, suffix?_zero]
    rw [lines_last hm ht]
    by_cases hblank : ∀ c ∈ t, isBlank c
    case pos => simp [trim_eq_nil_iff.mpr hblank, suffix?_size, dropBlankLines_last hblank hm]
    case neg =>
      have hcontent := dropBlankLines_content hblank hm []
      rw [List.append_nil] at hcontent
      simp [mt trim_eq_nil_iff.mp hblank, suffix?_zero, hcontent]
  case pos =>
    obtain ⟨line, rest, rfl, hno⟩ := List.eq_append_cons_of_mem hm
    rw [lines_append hno]
    by_cases hblank : ∀ c ∈ line, isBlank c
    case pos =>
      have hrest := ih rest.length (by simp at hn; omega) rest rfl
      obtain ⟨s, hs, hsize⟩ := suffix?_eq_some_iff.mp hrest
      rw [List.takeWhile_cons_of_pos (by simpa using (trim_line line).mpr hblank), List.map_cons,
        List.sum_cons, dropBlankLines_blank hblank hno, ← hsize]
      refine suffix?_eq_some_iff.mpr ⟨line ++ ['\n'] ++ s, ?_, size_append _ _⟩
      nth_rewrite 1 [hs]
      simp
    case neg =>
      rw [List.takeWhile_cons_of_neg (by simpa using mt (trim_line line).mp hblank),
        dropBlankLines_content hblank hno]
      exact suffix?_zero _

-- Backward, line by line: the lines at the end are dropped as long as they are blank.
theorem contentEnd_eq (s u : Text) : ∃ kept rest, s = kept ++ rest ∧
    contentEnd (s ++ u) s.size = .ok kept.size ∧
      dropBlankLines s.reverse = if kept.trim = [] then [] else kept.reverse := by
  induction hn : s.length using Nat.strongRecOn generalizing s u
  case ind n ih =>
  have hslice := slice_eq (suffix?_zero (s ++ u))
  rw [Nat.zero_add] at hslice
  rw [contentEnd, hslice, ok_bind]
  rcases newlines_cases s with ⟨hno, hlast⟩ | ⟨before, line, rfl, hno, hlast⟩
  case inl =>
    refine ⟨s, [], by simp, by rw [hlast]; rfl, ?_⟩
    replace hno : '\n' ∉ s.reverse := by simpa using hno
    split_ifs with hblank
    · exact dropBlankLines_last (by simpa using trim_eq_nil_iff.mp hblank) hno
    · have hcontent := dropBlankLines_content (by simpa using mt trim_eq_nil_iff.mpr hblank) hno []
      rwa [List.append_nil] at hcontent
  case inr =>
    have hno : '\n' ∉ line.reverse := by simpa using hno
    have hline : slice (before ++ '\n' :: line ++ u) before.size
        (Text.size (before ++ '\n' :: line)) =
        .ok ('\n' :: line) := by
      rw [size_append, List.append_assoc]
      exact slice_eq (suffix?_append before _)
    have hreverse : (before ++ '\n' :: line).reverse = line.reverse ++ '\n' :: before.reverse := by
      simp
    have hlt : before.size < Text.size (before ++ '\n' :: line) := by
      have hpos := size_pos_of_ne_nil (List.cons_ne_nil '\n' line)
      rw [size_append]
      omega
    rw [hlast, hreverse]
    dsimp only
    rw [hline, ok_bind]
    by_cases hblank : ∀ c ∈ '\n' :: line, isBlank c
    case pos =>
      obtain ⟨kept, rest, hkept, hend, hdrop⟩ := ih before.length (by simp at hn; omega) before
        ('\n' :: line ++ u) rfl
      have hall : ∀ c ∈ line.reverse, isBlank c := by
        simpa using (List.forall_mem_cons.mp hblank).right
      rw [if_pos (trim_eq_nil_iff.mpr hblank), dif_pos hlt, dropBlankLines_blank hall hno,
        List.append_assoc]
      exact ⟨kept, rest ++ '\n' :: line, by rw [hkept, List.append_assoc], hend, hdrop⟩
    case neg =>
      have hall : ¬∀ c ∈ line.reverse, isBlank c := by
        intro h
        exact hblank (List.forall_mem_cons.mpr ⟨by decide, by simpa using h⟩)
      have hkept : Text.trim (before ++ '\n' :: line) ≠ [] := by
        intro h
        exact hblank fun c hc => trim_eq_nil_iff.mp h c (List.mem_append_right _ hc)
      rw [if_neg (mt trim_eq_nil_iff.mp hblank), dropBlankLines_content hall hno]
      exact ⟨before ++ '\n' :: line, [], by simp, rfl, by rw [if_neg hkept, hreverse]⟩

theorem trimBlankLines_eq (t : Text) : trimBlankLines t = .ok t.trimBlankLines := by
  rw [trimBlankLines, sliceFrom_eq (suffix?_blankLines t), ok_bind, Text.trimBlankLines]
  generalize dropBlankLines t = rest
  obtain ⟨kept, tail, hkept, hend, hdrop⟩ := contentEnd_eq rest []
  have hslice := slice_eq (rest.suffix?_zero.trans (congrArg some hkept))
  rw [List.append_nil] at hend
  rw [Nat.zero_add] at hslice
  rw [hend, ok_bind, hslice, ok_bind, hdrop, pure_eq_ok]
  split_ifs <;> rfl

end Blank
end Componentry.Cursor
