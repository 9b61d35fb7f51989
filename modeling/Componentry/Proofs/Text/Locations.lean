import Componentry.Proofs.Text.Offsets
import Componentry.Proofs.Text.Runs
import Componentry.Text.Location

/-!
Lines and columns as names of places in a text. Each character moves the place on, so a later place
has a later line and column, and by going over as many lines and characters the place is found
again. An offset that is not a place between two characters is reported as the last such place
before it.
-/
namespace Componentry

namespace Text

def skipLines? : Nat → Text → Option Text
  | 0, t => some t
  | _ + 1, [] => none
  | n + 1, c :: t => if c = '\n' then skipLines? n t else skipLines? (n + 1) t

def skipCharacters? : Nat → Text → Option Text
  | 0, t => some t
  | _ + 1, [] => none
  | n + 1, _ :: t => skipCharacters? n t

def lastLine (t : Text) : Text :=
  (t.reverse.takeWhile (· ≠ '\n')).reverse

section Lines

theorem skipCharacters?_append (s u : Text) : skipCharacters? s.length (s ++ u) = some u := by
  induction s
  case nil => cases u <;> rfl
  case cons c s ih => exact ih

theorem lastLine_of_not_mem {t : Text} (h : '\n' ∉ t) : t.lastLine = t := by
  rw [lastLine, List.takeWhile_eq_self_iff.mpr (ne_of_mem_reverse h), List.reverse_reverse]

theorem lastLine_append (s : Text) {t : Text} (h : '\n' ∉ t) : lastLine (s ++ '\n' :: t) = t :=
  takeWhile_reverse_append h s

theorem lastLine_cons {c : Char} {t : Text} (h : c = '\n' ∨ '\n' ∈ t) :
    lastLine (c :: t) = t.lastLine := by
  by_cases hm : '\n' ∈ t
  case pos =>
    obtain ⟨s, u, rfl, hu⟩ := exists_last hm
    rw [← List.cons_append, lastLine_append _ hu, lastLine_append _ hu]
  case neg =>
    obtain rfl := h.resolve_right hm
    rw [lastLine_of_not_mem hm]
    exact lastLine_append [] hm

theorem skipLines?_append (s u : Text) : skipLines? (s.count '\n') (s ++ u) =
    some (s.lastLine ++ u) := by
  induction s
  case nil => cases u <;> rfl
  case cons c s ih =>
    by_cases hc : c = '\n'
    case pos =>
      subst hc
      rw [List.count_cons_self, List.cons_append, skipLines?, if_pos rfl, ih,
        lastLine_cons (.inl rfl)]
    case neg =>
      rw [List.count_cons_of_ne hc]
      by_cases hm : '\n' ∈ s
      case neg =>
        rw [List.count_eq_zero.mpr hm, lastLine_of_not_mem (by simp [hm, Ne.symm hc])]
        rfl
      case pos =>
        obtain ⟨n, hn⟩ := Nat.exists_eq_add_one.mpr (List.count_pos_iff.mpr hm)
        rw [hn] at ih ⊢
        rw [List.cons_append, skipLines?, if_neg hc, ih, lastLine_cons (.inr hm)]

end Lines
end Text

namespace Location

-- Lines come first in the order of places, and columns in a line.
def key (l : Location) : ℕ ×ₗ ℕ :=
  toLex (l.line, l.column)

namespace Words

def key (w : Words) : UInt32 ×ₗ UInt32 :=
  toLex (w.line, w.column)

theorem key_location_lt_iff {v w : Words} : v.location.key < w.location.key ↔ v.key < w.key := by
  simp only [Location.key, key, location, Prod.Lex.toLex_lt_toLex, UInt32.lt_iff_toNat_lt,
    UInt32.toNat_inj]

end Words

def offset? (t : Text) (l : Location) : Option Nat := do
  let line ← t.skipLines? (l.line - 1)
  let rest ← line.skipCharacters? (l.column - 1)
  return t.offset rest

section After

variable {u : Text}

theorem after_eq (t : Text) : after t = ⟨t.count '\n' + 1, t.lastLine.length + 1⟩ := by
  rw [after, Text.lastLine, List.length_reverse]

-- A line feed moves the place to the next line, any other character to the next column.
theorem after_concat (t : Text) (c : Char) : after (t ++ [c]) =
    if c = '\n' then ⟨(after t).line + 1, 1⟩ else ⟨(after t).line, (after t).column + 1⟩ := by
  split_ifs with hc <;> simp [after, hc]

theorem key_after_concat_lt (t : Text) (c : Char) : (after t).key < (after (t ++ [c])).key := by
  rw [after_concat, key, key, Prod.Lex.toLex_lt_toLex]
  split_ifs
  · exact .inl (Nat.lt_succ_self _)
  · exact .inr ⟨rfl, Nat.lt_succ_self _⟩

theorem key_after_append_lt (t : Text) (hu : u ≠ []) : (after t).key < (after (t ++ u)).key := by
  induction u using List.reverseRecOn
  case nil => exact absurd rfl hu
  case append_singleton u c ih =>
    rw [← List.append_assoc]
    by_cases hn : u = []
    case pos => simpa [hn] using key_after_concat_lt t c
    case neg => exact (ih hn).trans (key_after_concat_lt (t ++ u) c)

theorem offset?_after (s u : Text) : offset? (s ++ u) (after s) = some s.size := by
  rw [offset?, after_eq]
  simp [Text.skipLines?_append, Text.skipCharacters?_append]

-- Words are wide enough for every place of a text that is not too long.
theorem location_words_after {t : Text} (h : t.length < 2 ^ 32 - 1) :
    (after t).words.location = after t := by
  have hline : t.count '\n' ≤ t.length := List.count_le_length
  have hcolumn : (t.reverse.takeWhile (· ≠ '\n')).length ≤ t.reverse.length :=
    (List.takeWhile_sublist _).length_le
  rw [List.length_reverse] at hcolumn
  simp only [words, Words.location, after, UInt32.toNat_ofNat']
  rw [Nat.mod_eq_of_lt (by omega), Nat.mod_eq_of_lt (by omega)]

end After

section Offsets

variable {t : Text} {a b : Nat}

theorem ofOffset_append (s u : Text) : ofOffset (s ++ u) s.size = after s := by
  rw [ofOffset, Text.cut_append_size]

theorem key_ofOffset_lt (ha : (t.suffix? a).isSome) (hb : (t.suffix? b).isSome) (h : a < b) :
    (ofOffset t a).key < (ofOffset t b).key := by
  obtain ⟨u, hu⟩ := Option.isSome_iff_exists.mp ha
  obtain ⟨v, hv⟩ := Option.isSome_iff_exists.mp hb
  obtain ⟨s, rfl, rfl⟩ := Text.suffix?_eq_some_iff.mp hu
  obtain ⟨r, hr, rfl⟩ := Text.suffix?_eq_some_iff.mp hv
  rw [ofOffset_append, hr, ofOffset_append]
  rcases List.append_eq_append_iff.mp hr with ⟨x, rfl, _⟩ | ⟨x, rfl, _⟩
  case inl =>
    refine key_after_append_lt s ?_
    rintro rfl
    simp at h
  case inr => simp at h

theorem ofOffset_size_cut (t : Text) (offset : Nat) :
    ofOffset t (Text.size (t.cut offset).1) = ofOffset t offset := by
  have hafter := ofOffset_append (t.cut offset).1 (t.cut offset).2
  rwa [Text.cut_append] at hafter

theorem location_words_ofOffset (h : t.length < 2 ^ 32 - 1) (offset : Nat) :
    (ofOffset t offset).words.location = ofOffset t offset := by
  have hlength := congrArg List.length (t.cut_append offset)
  rw [List.length_append] at hlength
  exact location_words_after (by omega)

-- A place has its own line and column, from which it is found again, and every offset has those of
-- a place.
theorem words_identify (h : t.length < 2 ^ 32 - 1) :
    (∀ offset, (ofOffset t offset).words.location = ofOffset t offset) ∧
      (∀ a b, (t.suffix? a).isSome → (t.suffix? b).isSome → a < b →
        (ofOffset t a).words.key < (ofOffset t b).words.key) ∧
      (∀ a, (t.suffix? a).isSome → offset? t (ofOffset t a).words.location = some a) ∧
      ∀ offset, ∃ b, t.IsBoundary (min offset t.size) b ∧
      (ofOffset t offset).words = (ofOffset t b).words := by
  have hwords := location_words_ofOffset h
  refine ⟨hwords, fun a b ha hb hlt => ?_, fun a ha => ?_, fun offset => ?_⟩
  · rw [← Words.key_location_lt_iff, hwords a, hwords b]
    exact key_ofOffset_lt ha hb hlt
  · obtain ⟨u, hu⟩ := Option.isSome_iff_exists.mp ha
    obtain ⟨s, rfl, rfl⟩ := Text.suffix?_eq_some_iff.mp hu
    rw [hwords, ofOffset_append, offset?_after]
  · have hcut := t.isBoundary_cut (min offset t.size)
    rw [Text.cut_min] at hcut
    exact ⟨_, hcut, by rw [ofOffset_size_cut]⟩

theorem words_identify_clef :
    List.length "é\r\n\n𝄞b".toList < 2 ^ 32 - 1 ∧
      (ofOffset "é\r\n\n𝄞b".toList 5).words = ⟨3, 1⟩ ∧
      (ofOffset "é\r\n\n𝄞b".toList 9).words = ⟨3, 2⟩ ∧
      (ofOffset "é\r\n\n𝄞b".toList 5).words.key < (ofOffset "é\r\n\n𝄞b".toList 9).words.key ∧
      offset? "é\r\n\n𝄞b".toList ⟨3, 2⟩ = some 9 ∧
      ∃ b, Text.IsBoundary "é\r\n\n𝄞b".toList 7 b ∧
        (ofOffset "é\r\n\n𝄞b".toList 7).words = (ofOffset "é\r\n\n𝄞b".toList b).words := by
  have hlength : List.length "é\r\n\n𝄞b".toList < 2 ^ 32 - 1 := by decide
  obtain ⟨_, hlt, hoffset, hany⟩ := words_identify hlength
  refine ⟨hlength, by decide, by decide, hlt 5 9 (by decide) (by decide) (by decide), ?_, hany 7⟩
  exact hoffset 9 (by decide)

end Offsets
end Location
end Componentry
