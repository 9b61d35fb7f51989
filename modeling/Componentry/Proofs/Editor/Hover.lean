import Componentry.Editor.Hover
import Componentry.Proofs.Component.Opening
import Componentry.Proofs.Text.Bytes

/-!
What an editor says about the word at a place. A word is found as a whole from every place in it,
from its end and, if it is a directive, from its `@`. Main statement: what is said at an offset is
about a token around that offset, and the same is said at every offset of the token.
-/
namespace Componentry

namespace Editor

-- A word of a text that could not be longer, or an `@` with the word after it.
inductive IsToken (before after : Text) : Text → Prop
  | word {name : Text} (hn : Identifier.IsName name) (ha : Identifier.continues after = false)
    (hb : before.getLast?.any Identifier.isPart = false) (hs : before.getLast? ≠ some '@') :
    IsToken before after name
  | directive {name : Text} (hn : Identifier.IsName name)
    (ha : Identifier.continues after = false) :
    IsToken before after ('@' :: name)

namespace WordAt

-- The parts of a source of which the second is a run of characters of a word that could not be
-- longer.
structure IsIn (source : Text) (w : WordAt) : Prop where
  source_eq : source = w.before ++ (w.word ++ w.after)
  isPart : ∀ c ∈ w.word, Identifier.isPart c
  before : w.before.getLast?.any Identifier.isPart = false
  after : Identifier.continues w.after = false

variable {source before after s t : Text} {w : WordAt} {offset : Nat}

theorem exists_around (before after : Text) :
    ∃ s t, before = (between.around before after).before ++ s ∧
    after = t ++ (between.around before after).after ∧
    (between.around before after).word = s ++ t := by
  refine ⟨(before.reverse.takeWhile Identifier.isPart).reverse, after.takeWhile Identifier.isPart,
    ?_, ?_, rfl⟩
  · rw [between.around, ← List.reverse_append, List.takeWhile_append_dropWhile,
      List.reverse_reverse]
  · exact (List.takeWhile_append_dropWhile ..).symm

theorem isIn_around (before after : Text) :
    (between.around before after).IsIn (before ++ after) where
  source_eq := by
    obtain ⟨s, t, hs, ht, hw⟩ := exists_around before after
    rw [hw, List.append_assoc, ← ht, ← List.append_assoc, ← hs]
  isPart c hc := by
    simp only [between.around, List.mem_append, List.mem_reverse] at hc
    rcases hc with hc | hc <;> exact List.mem_takeWhile_imp hc
  before := by
    rw [between.around, List.getLast?_reverse]
    exact Text.head?_dropWhile _ _
  after := by
    rw [Identifier.continues_eq_any]
    exact Text.head?_dropWhile _ _

namespace IsIn

-- From each place in a word, its two ends included, the whole word is found.
theorem around_eq (h : w.IsIn source) (hw : w.word = s ++ t) :
    between.around (w.before ++ s) (t ++ w.after) = w := by
  have hparts := h.isPart
  rw [hw, List.forall_mem_append] at hparts
  obtain ⟨hs, ht⟩ := hparts
  have hsr : ∀ c ∈ s.reverse, Identifier.isPart c := fun c hc => hs c (List.mem_reverse.mp hc)
  have hbefore : w.before.reverse.head?.any Identifier.isPart = false := by
    rw [List.head?_reverse]
    exact h.before
  have hafter := (Identifier.continues_eq_any w.after).symm.trans h.after
  rw [between.around, List.reverse_append, Text.dropWhile_append_run hsr hbefore,
    Text.dropWhile_append_run ht hafter, Text.takeWhile_append_stop hbefore,
    Text.takeWhile_append_stop hafter, List.takeWhile_eq_self_iff.mpr hsr,
      List.takeWhile_eq_self_iff.mpr ht,
    List.reverse_reverse, List.reverse_reverse, ← hw]

end IsIn

theorem between_sign (before after : Text) :
    between before ('@' :: after) = between.around (before ++ ['@']) after :=
  rfl

theorem between_of_ne (h : after.head? ≠ some '@') :
    between before after = between.around before after := by
  unfold between
  split
  case h_1 => simp at h
  case h_2 => rfl

def ofOffset (source : Text) (offset : Nat) : WordAt :=
  between (source.cut offset).1 (source.cut offset).2

def token (w : WordAt) : Text :=
  if w.isDirective then '@' :: w.word else w.word

def lead (w : WordAt) : Text :=
  if w.isDirective then w.before.dropLast else w.before

theorem eq_of_isDirective (h : w.isDirective) :
    w.before = w.lead ++ ['@'] ∧ w.token = '@' :: w.word := by
  refine ⟨?_, if_pos h⟩
  rw [lead, if_pos h]
  rw [isDirective, decide_eq_true_eq] at h
  obtain ⟨s, hs⟩ := List.getLast?_eq_some_iff.mp h
  rw [hs, List.dropLast_concat]

theorem lead_append_token (w : WordAt) : w.lead ++ w.token = w.before ++ w.word := by
  by_cases hd : w.isDirective
  case pos =>
    obtain ⟨hb, ht⟩ := eq_of_isDirective hd
    rw [hb, ht, List.append_assoc, List.singleton_append]
  case neg => rw [lead, token, if_neg hd, if_neg hd]

theorem size_lead (w : WordAt) : w.lead.size = w.before.size - if w.isDirective then 1 else 0 := by
  by_cases hd : w.isDirective
  case pos => simp [hd, (eq_of_isDirective hd).left, utf8Size_of_ascii]
  case neg => simp [hd, lead]

theorem size_token (w : WordAt) : w.token.size = w.word.size + if w.isDirective then 1 else 0 := by
  by_cases hd : w.isDirective
  case pos => simp [hd, token, utf8Size_of_ascii, Nat.add_comm]
  case neg => simp [hd, token]

namespace IsIn

theorem ofOffset_word (h : w.IsIn source) (hw : w.word = s ++ t) (ht : t ≠ []) :
    ofOffset source (w.before.size + s.size) = w := by
  have hsource : source = (w.before ++ s) ++ (t ++ w.after) := by simp [h.source_eq, hw]
  have hhead : (t ++ w.after).head? ≠ some '@' := by
    obtain ⟨c, u, rfl⟩ := List.exists_cons_of_ne_nil ht
    have hc := h.isPart c (by simp [hw])
    rintro he
    cases he
    cases hc
  rw [ofOffset, ← Text.size_append, hsource, Text.cut_append_size, between_of_ne hhead,
    h.around_eq hw]

theorem ofOffset_sign (h : w.IsIn source) (hd : w.isDirective) :
    ofOffset source w.lead.size = w := by
  obtain ⟨hb, _⟩ := eq_of_isDirective hd
  have hsource : source = w.lead ++ '@' :: (w.word ++ w.after) := by simp [h.source_eq, hb]
  have haround := h.around_eq (s := []) (t := w.word) rfl
  rw [List.append_nil, hb] at haround
  rw [ofOffset, hsource, Text.cut_append_size, between_sign, haround]

theorem size_word (h : w.IsIn source) : w.word.size = w.word.length :=
  Text.size_eq_length onlyAscii_isPart h.isPart

theorem ofOffset_eq (h : w.IsIn source) (hl : w.lead.size ≤ offset)
    (hr : offset < w.lead.size + w.token.size) : ofOffset source offset = w := by
  have hsize := congrArg Text.size w.lead_append_token
  rw [Text.size_append, Text.size_append, h.size_word] at hsize
  rcases Nat.lt_or_ge offset w.before.size with hlt | hge
  case inl =>
    by_cases hd : w.isDirective
    case neg =>
      rw [lead, if_neg hd] at hl
      omega
    case pos =>
      have hlead := w.size_lead
      rw [if_pos hd] at hlead
      have hoffset : offset = w.lead.size := by omega
      rw [hoffset, h.ofOffset_sign hd]
  case inr =>
    obtain ⟨n, rfl⟩ := Nat.exists_eq_add_of_le hge
    have hn : n < w.word.length := by omega
    have htake : Text.size (w.word.take n) = n := by
      rw [Text.size_eq_length onlyAscii_isPart fun c hc => h.isPart c (List.mem_of_mem_take hc),
        List.length_take]
      omega
    have hword := h.ofOffset_word (List.take_append_drop n w.word).symm (by simpa using hn)
    rwa [htake] at hword

theorem isToken (h : w.IsIn source) (hs : w.word.head?.any Identifier.isStart) :
    IsToken w.lead w.after w.token := by
  have hname := Identifier.isName_of_isStart hs h.isPart
  by_cases hd : w.isDirective
  case pos =>
    rw [(eq_of_isDirective hd).right]
    exact .directive hname h.after
  case neg =>
    rw [lead, token, if_neg hd, if_neg hd]
    refine .word hname h.after h.before ?_
    simpa [isDirective] using hd

end IsIn

theorem isIn_between (before after : Text) : (between before after).IsIn (before ++ after) := by
  by_cases hs : after.head? = some '@'
  case neg =>
    rw [between_of_ne hs]
    exact isIn_around before after
  case pos =>
    obtain ⟨u, rfl⟩ := List.head?_eq_some_iff.mp hs
    rw [between_sign, List.append_cons]
    exact isIn_around (before ++ ['@']) u

theorem size_between (before after : Text) : (between before after).lead.size ≤ before.size ∧
    before.size ≤ (between before after).lead.size + (between before after).token.size := by
  rw [← Text.size_append, lead_append_token]
  by_cases hs : after.head? = some '@'
  case neg =>
    obtain ⟨s, t, hb, _, hw⟩ := exists_around before after
    have hsize := congrArg Text.size hb
    have hlead := (between.around before after).size_lead
    rw [Text.size_append] at hsize
    rw [between_of_ne hs, Text.size_append, hw, Text.size_append]
    omega
  case pos =>
    obtain ⟨u, rfl⟩ := List.head?_eq_some_iff.mp hs
    have hbefore : (between.around (before ++ ['@']) u).before = before ++ ['@'] := by
      simp [between.around, Identifier.isPart]
    have hlead : (between.around (before ++ ['@']) u).lead = before := by
      simp [lead, isDirective, hbefore]
    rw [between_sign, hlead, hbefore]
    simp

end WordAt

def hoverOf? (source : Text) (w : WordAt) : Option Hover :=
  if w.word.head?.any Identifier.isStart then (about? source w).map (⟨w.lead.size, w.token.size, ·⟩)
    else none

section Hover

variable {path source : Text} {offset : Nat} {info : Hover}

theorem hover?_eq : hover? path source offset =
    if isComponent path then hoverOf? source (.ofOffset source offset) else none := by
  simp only [hoverOf?, WordAt.size_lead, WordAt.size_token]
  rfl

theorem isSome_about? (source : Text) {w : WordAt} (h : w.isDirective) :
    (about? source w).isSome := by
  simp only [about?, h, if_true]
  split_ifs <;> rfl

-- A hover at an offset, over a token of the source that is around the offset and has the same hover
-- all over.
structure Hover.IsOver (path source : Text) (offset : Nat) (info : Hover) : Prop where
  le : info.start + info.length ≤ source.size
  isToken : ∃ before token after, source = before ++ (token ++ after) ∧ IsToken before after token ∧
    info.start = before.size ∧ info.length = token.size
  -- An offset in a character counts as the start of the character, one past the end as the end.
  isAround : ∃ i, source.IsBoundary offset i ∧ info.start ≤ i ∧ i ≤ info.start + info.length
  same : ∀ i, info.start ≤ i → i < info.start + info.length → hover? path source i = some info

theorem isOver_of_hover? (h : hover? path source offset = some info) :
    info.IsOver path source offset := by
  rw [hover?_eq] at h
  split at h
  case isFalse => cases h
  case isTrue hpath =>
    have hin : (WordAt.ofOffset source offset).IsIn source := by
      have hbetween := WordAt.isIn_between (source.cut offset).1 (source.cut offset).2
      rwa [Text.cut_append] at hbetween
    have hsize := WordAt.size_between (source.cut offset).1 (source.cut offset).2
    have hboundary := source.isBoundary_cut offset
    have hfound := h
    generalize hw : WordAt.ofOffset source offset = w at h hin hfound
    rw [← WordAt.ofOffset, hw] at hsize
    rw [hoverOf?] at h
    split at h
    case isFalse => cases h
    case isTrue hs =>
      obtain ⟨text, _, rfl⟩ := Option.map_eq_some_iff.mp h
      have hsource : source = w.lead ++ (w.token ++ w.after) := by
        rw [← List.append_assoc, w.lead_append_token, List.append_assoc]
        exact hin.source_eq
      refine ⟨?_, ⟨_, _, _, hsource, hin.isToken hs, rfl, rfl⟩, ⟨_, hboundary, hsize⟩,
        fun i hl hr => ?_⟩
      · have hall := congrArg Text.size hsource
        simp only [Text.size_append] at hall
        dsimp only
        omega
      · rw [hover?_eq, hin.ofOffset_eq hl hr, if_pos hpath, hfound]

theorem exists_hover?_directive {before name after : Text} (hpath : isComponent path)
    (hs : source = before ++ ('@' :: name ++ after)) (hn : Identifier.IsName name)
    (ha : Identifier.continues after = false) :
    ∃ info, hover? path source before.size = some info ∧ info.start = before.size ∧
      info.length = Text.size ('@' :: name) := by
  let w : WordAt := ⟨before ++ ['@'], name, after⟩
  have hd : w.isDirective := by simp [w, WordAt.isDirective]
  have hlead : w.lead = before := by simp [w, WordAt.lead, WordAt.isDirective]
  have hin : w.IsIn source :=
    ⟨by simp [w, hs], fun c hc => hn.isPart_of_mem hc, by simp [w, Identifier.isPart], ha⟩
  obtain ⟨c, t, he, hc, _⟩ := hn.exists_cons
  have hstart : w.word.head?.any Identifier.isStart := by simp [w, he, hc]
  obtain ⟨text, htext⟩ := Option.isSome_iff_exists.mp (isSome_about? source hd)
  have hoffset := hin.ofOffset_sign hd
  rw [hlead] at hoffset
  refine ⟨⟨w.lead.size, w.token.size, text⟩, ?_, by rw [hlead],
    by rw [(WordAt.eq_of_isDirective hd).right]⟩
  rw [hover?_eq, if_pos hpath, hoffset, hoverOf?, if_pos hstart, htext]
  rfl

-- All that is said about a source is said over whole tokens, and something is said about every
-- directive.
theorem hover?_over_tokens (path source : Text) :
    (∀ offset info, hover? path source offset = some info → info.IsOver path source offset) ∧
      (isComponent path → ∀ before name after, source = before ++ ('@' :: name ++ after) →
        Identifier.IsName name → Identifier.continues after = false →
        ∃ info, hover? path source before.size = some info ∧ info.start = before.size ∧
          info.length = Text.size ('@' :: name)) :=
  ⟨fun _ _ => isOver_of_hover?, fun hpath _ _ _ => exists_hover?_directive hpath⟩

-- Where one token ends and the next one starts, the second one counts.
example : hover? "a.dribble".toList "render@else".toList 6 = some ⟨6, 5, aboutElse⟩ := by
  decide +kernel

end Hover

end Editor
end Componentry
