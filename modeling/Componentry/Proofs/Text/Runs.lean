import Mathlib
import Componentry.Text.Identifier
import Componentry.Text.Lines

/-!
Runs of characters at the start of a text: blanks, space and identifiers. A run ends at the first
character that is not of its kind, whatever follows.
-/
namespace Componentry

theorem ne_of_isBlank {c d : Char} (hc : isBlank c) (hd : isBlank d = false) : c ≠ d := by
  rintro rfl
  simp [hc] at hd

theorem nodup_eraseDups {α : Type} [BEq α] [LawfulBEq α] (l : List α) : l.eraseDups.Nodup := by
  cases l
  case nil => simp
  case cons a l =>
    rw [List.eraseDups_cons, List.nodup_cons]
    exact ⟨by simp [List.mem_eraseDups], nodup_eraseDups _⟩
termination_by l.length
decreasing_by simpa using Nat.lt_succ_of_le (List.length_filter_le _ _)

theorem eraseDups_of_nodup {α : Type} [BEq α] [LawfulBEq α] {l : List α} (h : l.Nodup) :
    l.eraseDups = l := by
  induction l
  case nil => rfl
  case cons a l ih =>
    have ⟨ha, hl⟩ := List.nodup_cons.mp h
    have hfilter : l.filter (fun b => !b == a) = l :=
      List.filter_eq_self.mpr fun b hb => by
        have hne : b ≠ a := fun he => ha (he ▸ hb)
        simpa using hne
    rw [List.eraseDups_cons, hfilter, ih hl]

namespace Text

theorem stripStart?_append (word t : Text) : stripStart? (word ++ t) word = some t :=
  stripStart?_eq_some_iff.mpr rfl

-- A text that is long enough for the word shows whether the word is there.
theorem stripStart?_append_right {word s : Text} (h : word.length ≤ s.length) (t : Text) :
    stripStart? (s ++ t) word = (stripStart? s word).map (· ++ t) := by
  fun_induction stripStart? s word
  case case1 => cases t <;> simp [stripStart?]
  case case2 => simp at h
  case case3 c s word ih => simpa [stripStart?] using ih (by simpa using h)
  case case4 c s w word hc => simp [stripStart?, hc]

theorem stripStart?_append_stop {word : Text} {c : Char} (hc : c ∉ word) (s t : Text) :
    stripStart? (s ++ c :: t) word = (stripStart? s word).map (· ++ c :: t) := by
  fun_induction stripStart? s word
  case case1 => cases t <;> simp [stripStart?]
  case case2 w word =>
    have hw := List.ne_of_not_mem_cons hc
    simp [stripStart?, hw]
  case case3 s w word ih => simpa [stripStart?] using ih (List.not_mem_of_not_mem_cons hc)
  case case4 hw => simp [stripStart?, hw]

theorem dropBytes_append (s t : Text) : dropBytes (s ++ t) s.size = t := by
  induction s
  case nil => cases t <;> rfl
  case cons c s ih =>
    have hpos := c.utf8Size_pos
    have ⟨n, hn⟩ : ∃ n, size (c :: s) = n + 1 := ⟨size (c :: s) - 1, by simp; omega⟩
    rw [hn, List.cons_append, dropBytes, ← hn, size_cons, Nat.add_sub_cancel_left, ih]

section Runs

variable {p : Char → Bool} {s t : Text}

theorem takeWhile_append_stop (h : t.head?.any p = false) :
    (s ++ t).takeWhile p = s.takeWhile p := by
  induction s
  case nil => cases t <;> simp_all
  case cons c s ih => simp [List.takeWhile_cons, ih]

theorem dropWhile_append_stop (h : t.head?.any p = false) :
    (s ++ t).dropWhile p = s.dropWhile p ++ t := by
  induction s
  case nil => cases t <;> simp_all
  case cons c s ih =>
    simp only [List.cons_append, List.dropWhile_cons, ih]
    split <;> rfl

theorem exists_dropWhile (p : Char → Bool) (t : Text) :
    ∃ s, t = s ++ t.dropWhile p ∧ ∀ c ∈ s, p c :=
  ⟨t.takeWhile p, List.takeWhile_append_dropWhile.symm, fun _ hc => List.mem_takeWhile_imp hc⟩

theorem head?_dropWhile (p : Char → Bool) (t : Text) : (t.dropWhile p).head?.any p = false := by
  have h := List.head?_dropWhile_not p t
  cases hd : (t.dropWhile p).head? <;> simp_all

theorem dropWhile_append_run (hs : ∀ c ∈ s, p c) (ht : t.head?.any p = false) :
    (s ++ t).dropWhile p = t := by
  rw [dropWhile_append_stop ht, List.dropWhile_eq_nil_iff.mpr hs, List.nil_append]

-- A text whose last character is not of the run's kind holds the end of the run.
theorem dropWhile_append_right (h : ∃ c ∈ s.getLast?, p c = false) :
    (s ++ t).dropWhile p = s.dropWhile p ++ t ∧ s.dropWhile p ≠ [] := by
  have ⟨c, hc, hp⟩ := h
  have hn : s.dropWhile p ≠ [] := by
    intro he
    have := List.dropWhile_eq_nil_iff.mp he c (List.mem_of_getLast? hc)
    simp [hp] at this
  rw [List.dropWhile_append]
  simp [hn]

end Runs

section Last

variable {c : Char} {s t : Text}

theorem ne_of_mem_reverse (h : c ∉ t) : ∀ d ∈ t.reverse, decide (d ≠ c) := by
  intro d hd
  have hne : d ≠ c := fun he => h (he ▸ List.mem_reverse.mp hd)
  simpa using hne

theorem dropWhile_reverse_append (h : c ∉ t) (s : Text) :
    (s ++ c :: t).reverse.dropWhile (· ≠ c) = c :: s.reverse := by
  have hs : (s ++ c :: t).reverse = t.reverse ++ c :: s.reverse := by simp
  rw [hs, List.dropWhile_append_of_pos (ne_of_mem_reverse h)]
  simp

theorem takeWhile_reverse_append (h : c ∉ t) (s : Text) :
    ((s ++ c :: t).reverse.takeWhile (· ≠ c)).reverse = t := by
  have hs : (s ++ c :: t).reverse = t.reverse ++ c :: s.reverse := by simp
  rw [hs, List.takeWhile_append_of_pos (ne_of_mem_reverse h)]
  simp

theorem append_cons_inj {s' t' : Text} (h : c ∉ t) (h' : c ∉ t') :
    s ++ c :: t = s' ++ c :: t' ↔ s = s' ∧ t = t' := by
  constructor
  case mp =>
    intro he
    have hdrop := dropWhile_reverse_append h s
    have htake := takeWhile_reverse_append h s
    rw [he, dropWhile_reverse_append h', List.cons.injEq, List.reverse_inj] at hdrop
    rw [he, takeWhile_reverse_append h'] at htake
    exact ⟨hdrop.right.symm, htake.symm⟩
  case mpr => rintro ⟨rfl, rfl⟩; rfl

theorem exists_last (h : c ∈ t) : ∃ s u, t = s ++ c :: u ∧ c ∉ u := by
  induction t
  case nil => simp at h
  case cons d t ih =>
    by_cases ht : c ∈ t
    case pos =>
      have ⟨s, u, he, hu⟩ := ih ht
      exact ⟨d :: s, u, by simp [he], hu⟩
    case neg =>
      have hd : c = d := by simpa [ht] using h
      exact ⟨[], t, by simp [hd], ht⟩

end Last

theorem skipSpace_append {s t : Text} (hs : ∀ c ∈ s, isSpace c) (ht : t.head?.any isSpace = false) :
    skipSpace (s ++ t) = t :=
  dropWhile_append_run hs ht

theorem exists_skipSpace (t : Text) : ∃ s, t = s ++ t.skipSpace ∧ ∀ c ∈ s, isSpace c :=
  exists_dropWhile isSpace t

theorem trimStart_append {s t : Text} (hs : ∀ c ∈ s, isBlank c) (ht : t.head?.any isBlank = false) :
    trimStart (s ++ t) = t :=
  dropWhile_append_run hs ht

theorem skipBlanks?_append {s t : Text} (hs : ∀ c ∈ s, isBlank c) (hn : s ≠ [])
    (ht : t.head?.any isBlank = false) : skipBlanks? (s ++ t) = some t := by
  have ⟨c, u, he⟩ := List.exists_cons_of_ne_nil hn
  have hc : isBlank c := hs c (by simp [he])
  rw [skipBlanks?, trimStart_append hs ht]
  simp [he, hc]

theorem exists_trimEnd (t : Text) : ∃ s, t = t.trimEnd ++ s ∧ ∀ c ∈ s, isBlank c := by
  have ⟨s, hs, hb⟩ := exists_dropWhile isBlank t.reverse
  refine ⟨s.reverse, ?_, fun c hc => hb c (List.mem_reverse.mp hc)⟩
  rw [trimEnd, ← List.reverse_append, ← hs, List.reverse_reverse]

theorem exists_trim (t : Text) :
    ∃ s u, t = s ++ t.trim ++ u ∧ (∀ c ∈ s, isBlank c) ∧ ∀ c ∈ u, isBlank c := by
  have hs : t = t.takeWhile isBlank ++ t.trimStart := List.takeWhile_append_dropWhile.symm
  have hu := congrArg List.reverse
    (List.takeWhile_append_dropWhile (p := isBlank) (l := t.trimStart.reverse))
  simp only [List.reverse_append, List.reverse_reverse] at hu
  refine ⟨t.takeWhile isBlank, (t.trimStart.reverse.takeWhile isBlank).reverse, ?_, ?_, ?_⟩
  · rw [List.append_assoc, trim, trimEnd, hu]
    exact hs
  · exact fun c hc => List.mem_takeWhile_imp hc
  · exact fun c hc => List.mem_takeWhile_imp (List.mem_reverse.mp hc)

theorem head?_trim (t : Text) : t.trim.head?.any isBlank = false := by
  have hstart : t.trimStart.head?.any isBlank = false := head?_dropWhile isBlank t
  have ⟨s, hs, _⟩ := exists_dropWhile isBlank t.trimStart.reverse
  have hsplit : t.trimStart = t.trim ++ s.reverse := by
    rw [trim, trimEnd, ← List.reverse_append, ← hs, List.reverse_reverse]
  cases ht : t.trim
  case nil => rfl
  case cons c u =>
    rw [hsplit, ht] at hstart
    exact hstart

theorem getLast?_trim (t : Text) : t.trim.getLast?.any isBlank = false := by
  rw [trim, trimEnd, List.getLast?_reverse]
  exact head?_dropWhile isBlank t.trimStart.reverse

@[simp]
theorem trimStart_trimStart (t : Text) : t.trimStart.trimStart = t.trimStart :=
  trimStart_append (s := []) (by simp) (head?_dropWhile isBlank t)

@[simp]
theorem trimEnd_trimEnd (t : Text) : t.trimEnd.trimEnd = t.trimEnd := by
  have h : (t.reverse.dropWhile isBlank).dropWhile isBlank = t.reverse.dropWhile isBlank :=
    trimStart_trimStart t.reverse
  rw [trimEnd, trimEnd, List.reverse_reverse, h]

theorem trimStart_append_cons {c : Char} (s t : Text) (hc : isBlank c = false) :
    trimStart (s ++ c :: t) = s.trimStart ++ c :: t :=
  dropWhile_append_stop (by simpa using hc)

theorem skipBlanks?_append_stop {c : Char} (hc : isBlank c = false) (s t : Text) :
    skipBlanks? (s ++ c :: t) = (skipBlanks? s).map (· ++ c :: t) := by
  cases s
  case nil => simp [skipBlanks?, hc]
  case cons d s =>
    rw [skipBlanks?, trimStart_append_cons _ _ hc, skipBlanks?, List.cons_append, List.head?_cons,
      List.head?_cons]
    split <;> rfl

theorem trimEnd_append_cons {c : Char} (s t : Text) (hc : isBlank c = false) :
    trimEnd (s ++ c :: t) = s ++ c :: t.trimEnd := by
  have hstop : (t.reverse ++ c :: s.reverse).dropWhile isBlank =
      t.reverse.dropWhile isBlank ++ c :: s.reverse := dropWhile_append_stop (by simpa using hc)
  rw [trimEnd, List.reverse_append, List.reverse_cons, List.append_assoc,
    List.singleton_append, hstop]
  simp [trimEnd]

theorem trim_append_cons {c : Char} (s t : Text) (hc : isBlank c = false) :
    trim (s ++ c :: t) = s.trimStart ++ c :: t.trimEnd := by
  rw [trim, trimStart_append_cons s t hc, trimEnd_append_cons _ t hc]

theorem trim_eq_trimStart {t : Text} (h : t.trimEnd = t) : t.trim = t.trimStart := by
  have ⟨s, hs, _⟩ := exists_dropWhile isBlank t
  have hstop := head?_dropWhile isBlank t
  rw [trim, trimStart]
  cases hd : t.dropWhile isBlank
  case nil => rfl
  case cons c u =>
    rw [hd] at hs hstop
    rw [hs, trimEnd_append_cons _ _ hstop] at h
    have hu : trimEnd u = u := (List.cons.inj (List.append_cancel_left h)).right
    exact (trimEnd_append_cons [] u hstop).trans (by rw [hu]; rfl)

theorem trim_eq_self {t : Text} (hs : t.head?.any isBlank = false)
    (he : t.getLast?.any isBlank = false) : t.trim = t := by
  have hstart : t.trimStart = t := trimStart_append (s := []) (by simp) hs
  rw [← List.head?_reverse] at he
  have hend : t.reverse.dropWhile isBlank = t.reverse := dropWhile_append_run (s := []) (by simp) he
  rw [trim, hstart, trimEnd, hend, List.reverse_reverse]

theorem trim_of_not_blank {t : Text} (h : ∀ c ∈ t, isBlank c = false) : t.trim = t := by
  apply trim_eq_self
  · cases hc : t.head?
    case none => rfl
    case some => exact h _ (List.mem_of_head? hc)
  · cases hc : t.getLast?
    case none => rfl
    case some => exact h _ (List.mem_of_getLast? hc)

theorem trim_trim (t : Text) : t.trim.trim = t.trim :=
  trim_eq_self t.head?_trim t.getLast?_trim

theorem trim_eq_nil_iff {t : Text} : t.trim = [] ↔ ∀ c ∈ t, isBlank c := by
  constructor
  case mp =>
    intro h
    obtain ⟨s, u, ht, hs, hu⟩ := t.exists_trim
    rw [ht, h]
    simpa [or_imp, forall_and] using ⟨hs, hu⟩
  case mpr =>
    intro h
    rw [trim, trimStart, List.dropWhile_eq_nil_iff.mpr h]
    rfl

theorem trim_ne_nil {t : Text} (h : t.all isBlank = false) : t.trim ≠ [] := by
  intro hn
  rw [List.all_eq_true.mpr (trim_eq_nil_iff.mp hn)] at h
  cases h

theorem head?_trim_append {s : Text} (h : s.all isBlank = false) (t : Text) :
    (s ++ t).trim.head? = s.trim.head? := by
  have ⟨x, hx, hblank⟩ := exists_dropWhile isBlank s
  have hstop := head?_dropWhile isBlank s
  cases hd : s.dropWhile isBlank
  case nil =>
    rw [List.all_eq_true.mpr (List.dropWhile_eq_nil_iff.mp hd)] at h
    cases h
  case cons d y =>
    rw [hd] at hx hstop
    have hnil : x.trimStart = [] := List.dropWhile_eq_nil_iff.mpr hblank
    rw [hx, List.append_assoc, List.cons_append, trim_append_cons _ _ hstop,
      trim_append_cons _ _ hstop, hnil]
    rfl

theorem getLast?_trim_append {t : Text} (h : t.all isBlank = false) (s : Text) :
    (s ++ t).trim.getLast? = t.trim.getLast? := by
  have ⟨x, hx, hblank⟩ := exists_dropWhile isBlank t.reverse
  have hstop := head?_dropWhile isBlank t.reverse
  cases hd : t.reverse.dropWhile isBlank
  case nil =>
    rw [← List.all_reverse, List.all_eq_true.mpr (List.dropWhile_eq_nil_iff.mp hd)] at h
    cases h
  case cons d y =>
    rw [hd] at hx hstop
    have ht : t = y.reverse ++ d :: x.reverse := by
      rw [← List.reverse_reverse t, hx]
      simp
    have hnil : trimEnd x.reverse = [] := by
      simpa [trimEnd, List.dropWhile_eq_nil_iff] using hblank
    rw [ht, ← List.append_assoc, trim_append_cons _ _ hstop, trim_append_cons _ _ hstop, hnil,
      List.getLast?_concat, List.getLast?_concat]

theorem mem_of_mem_trim {t : Text} {c : Char} (h : c ∈ t.trim) : c ∈ t := by
  have ⟨s, u, ht, _⟩ := exists_trim t
  rw [ht]
  simp [h]

theorem dropBlankLines_eq_self {t : Text} (h : t.head?.any isBlank = false) :
    dropBlankLines t = t := by
  cases t
  case nil => rfl
  case cons c t =>
    have hc : isBlank c = false := by simpa using h
    simp [dropBlankLines, dropBlankLines.go, hc]

theorem trimBlankLines_eq_self {t : Text} (hs : t.head?.any isBlank = false)
    (he : t.getLast?.any isBlank = false) : trimBlankLines t = t := by
  rw [← List.head?_reverse] at he
  rw [trimBlankLines, dropBlankLines_eq_self hs, dropBlankLines_eq_self he]
  cases hr : t.reverse <;> rw [hr] at he
  case nil => simpa using hr.symm
  case cons c u =>
    have hc : c ≠ '\r' := by
      rintro rfl
      simp [isBlank] at he
    rw [List.dropWhile_cons_of_neg (by simpa using hc), ← hr, List.reverse_reverse]

theorem trimBlankLines_trim (t : Text) : t.trim.trimBlankLines = t.trim :=
  trimBlankLines_eq_self t.head?_trim t.getLast?_trim

end Text

namespace Identifier

def IsName (t : Text) : Prop :=
  t ≠ [] ∧ split t = (t, [])

instance (t : Text) : Decidable (IsName t) :=
  inferInstanceAs (Decidable (_ ∧ _))

theorem isName_of_isStart {t : Text} (hs : t.head?.any isStart) (hp : ∀ c ∈ t, isPart c) :
    IsName t := by
  cases t
  case nil => cases hs
  case cons c t =>
    have hc : isStart c := hs
    have hrest : ∀ d ∈ t, isPart d := fun d hd => hp d (List.mem_cons_of_mem c hd)
    simp [IsName, split, hc, List.takeWhile_eq_self_iff.mpr hrest,
      List.dropWhile_eq_nil_iff.mpr hrest]

theorem continues_eq_any (t : Text) : continues t = t.head?.any isPart := by
  cases t <;> rfl

theorem split_of_continues {t : Text} (h : continues t = false) : split t = ([], t) := by
  cases t
  case nil => rfl
  case cons c t =>
    have hc : ¬isStart c := fun hs => by simp [continues, isPart_of_isStart hs] at h
    simp [split, hc]

theorem split_append_stop {s t : Text} (h : continues t = false) :
    split (s ++ t) = ((split s).1, (split s).2 ++ t) := by
  have ha := continues_eq_any t ▸ h
  cases s
  case nil => exact split_of_continues h
  case cons c s =>
    simp only [List.cons_append, split, Text.takeWhile_append_stop ha,
      Text.dropWhile_append_stop ha]
    split <;> rfl

namespace IsName

variable {name : Text}

theorem split_append (h : IsName name) {rest : Text} (hr : continues rest = false) :
    split (name ++ rest) = (name, rest) := by
  simp [split_append_stop hr, h.right]

theorem exists_cons (h : IsName name) :
    ∃ c t, name = c :: t ∧ isStart c ∧ ∀ d ∈ t, isPart d := by
  have ⟨c, t, he⟩ := List.exists_cons_of_ne_nil h.left
  have hs := he ▸ h.right
  simp only [split] at hs
  split at hs
  case isFalse => simp at hs
  case isTrue hc =>
    have hd := (Prod.mk.inj hs).right
    exact ⟨c, t, he, hc, List.dropWhile_eq_nil_iff.mp hd⟩

theorem isPart_of_mem (h : IsName name) {c : Char} (hc : c ∈ name) : isPart c := by
  have ⟨d, t, he, hd, ht⟩ := h.exists_cons
  cases he ▸ hc
  case head => exact isPart_of_isStart hd
  case tail hm => exact ht c hm

end IsName

end Identifier
end Componentry
