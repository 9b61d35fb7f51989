import Componentry.Proofs.Code.Neutral
import Componentry.Proofs.Text.Runs

/-!
How contexts nest inside a bracket group, and what it takes for a text to be delimited by the group.
Blanks at the end of a text may matter to that, because a line feed ends comments and strings.
-/
namespace Componentry.Code

open Context

def advance : List Context → Text → List Context
  | [], _ => []
  | within, [] => within
  | within, c :: t => advance (after within c) t

section Advance

variable {within : List Context} {t u : Text}

@[simp]
theorem advance_nil (within : List Context) : advance within [] = within := by
  cases within <;> rfl

@[simp]
theorem advance_nil_left (t : Text) : advance [] t = [] := by
  cases t <;> rfl

theorem advance_cons (hn : within ≠ []) (c : Char) (t : Text) :
    advance within (c :: t) = advance (after within c) t := by
  cases within
  case nil => exact absurd rfl hn
  case cons => rfl

theorem advance_append : advance within (t ++ u) = advance (advance within t) u := by
  fun_induction advance within t
  case case1 => simp
  case case2 => simp
  case case3 within c t hn ih => rw [List.cons_append, advance_cons hn, ih]

theorem reads_advance (hn : advance within t ≠ []) : Reads within t (advance within t) := by
  fun_induction advance within t
  case case1 => exact absurd rfl hn
  case case2 => exact .nil
  case case3 within c t hw ih =>
    have ⟨ctx, outer, he⟩ := List.exists_cons_of_ne_nil hw
    subst he
    exact .cons (ih hn)

theorem advance_of_isOrdinary {outer : List Context} (h : ∀ c ∈ t, isOrdinary c) :
    advance (.group :: outer) t = .group :: outer := by
  induction t
  case nil => rfl
  case cons c t ih =>
    have ⟨hc, ht⟩ := List.forall_mem_cons.mp h
    rw [advance_cons (by simp), after, afterCode_of_isOrdinary hc]
    · exact ih ht
    all_goals simp

theorem leave_eq_none (hn : advance within t ≠ []) : leave within t = none := by
  have ⟨ctx, outer, he⟩ := List.exists_cons_of_ne_nil hn
  simpa [he, leave] using reads_advance hn []

theorem leave_concat_iff {d : Char} :
    leave within (t ++ d :: u) = some (t ++ [d], u) ↔
      advance within t ≠ [] ∧ after (advance within t) d = [] := by
  induction t generalizing within <;> cases within
  case nil.nil => simp [leave]
  case nil.cons ctx outer =>
    have hl : leave (after (ctx :: outer) d) u = some ([], u) ↔ after (ctx :: outer) d = [] := by
      cases ha : after (ctx :: outer) d
      case nil => simp [leave]
      case cons => simpa using fun h => leave_inside_ne_nil h rfl
    simpa [leave] using hl
  case cons.nil => simp [leave]
  case cons.cons c t ih ctx outer => simpa [leave, advance] using ih

theorem advance_append_left (h : SelfContained within) (outer : List Context)
    (hn : advance within t ≠ []) : advance (within ++ outer) t = advance within t ++ outer := by
  fun_induction advance within t
  case case1 => exact absurd rfl hn
  case case2 => simp
  case case3 within c t hw ih =>
    rw [advance_cons (List.append_ne_nil_of_left_ne_nil hw outer), after_append outer h hw]
    exact ih (h.after hw c) hn

end Advance

-- What a context may stand in, inside a group: code in a group, an escape in a string or template.
def Context.Fits (outer : List Context) : Context → Prop
  | .group => True
  | .escape => ∃ ctx ∈ outer.head?, ctx = .template ∨ ctx = .quoted '"' ∨ ctx = .quoted '\''
  | .quoted quote => (quote = '"' ∨ quote = '\'') ∧ outer.head? = some .group
  | _ => outer.head? = some .group

def Enclosed : List Context → Prop
  | [] => True
  | ctx :: outer => ctx.Fits outer ∧ Enclosed outer

namespace Enclosed

variable {within outer : List Context}

theorem afterCode (h : Enclosed within) (hg : within.head? = some .group) (c : Char) :
    Enclosed (Context.afterCode within c) := by
  have ⟨ctx, outer, he⟩ : ∃ ctx outer, within = ctx :: outer := by
    cases within
    case nil => simp at hg
    case cons ctx outer => exact ⟨ctx, outer, rfl⟩
  unfold Context.afterCode
  split
  · exact ⟨hg, h⟩
  split
  case isTrue hq => exact ⟨⟨by simpa using hq, hg⟩, h⟩
  split
  · exact ⟨hg, h⟩
  split
  · exact ⟨trivial, h⟩
  split
  · subst he
    exact h.right
  · exact h

theorem afterTemplate (h : Enclosed outer) (hg : outer.head? = some .group) (c : Char) :
    Enclosed (Context.afterTemplate outer c) := by
  unfold Context.afterTemplate
  split
  · exact ⟨⟨.template, rfl, .inl rfl⟩, hg, h⟩
  split
  · exact h
  split
  · exact ⟨hg, h⟩
  · exact ⟨hg, h⟩

theorem after {ctx : Context} (h : Enclosed (ctx :: outer)) (c : Char) :
    Enclosed (Context.after (ctx :: outer) c) := by
  have ⟨hf, ho⟩ := h
  cases ctx <;> simp only [Context.after]
  case group => exact h.afterCode rfl c
  case slash =>
    split
    · exact ⟨hf, ho⟩
    split
    · exact ⟨hf, ho⟩
    · exact ho.afterCode hf c
  case line =>
    split
    · exact ho
    · exact h
  case block => split <;> exact ⟨hf, ho⟩
  case star =>
    split
    · exact ho
    · split <;> exact ⟨hf, ho⟩
  case quoted quote =>
    split
    · exact ⟨⟨.quoted quote, rfl, .inr (by simpa using hf.left)⟩, h⟩
    split
    · exact ho
    · exact h
  case template => exact ho.afterTemplate hf c
  case dollar =>
    split
    · exact ⟨trivial, hf, ho⟩
    · exact ho.afterTemplate hf c
  case escape => exact ho

theorem advance (h : Enclosed within) (t : Text) : Enclosed (Code.advance within t) := by
  fun_induction Code.advance within t
  case case1 => trivial
  case case2 => exact h
  case case3 within c t hn ih =>
    have ⟨ctx, outer, he⟩ := List.exists_cons_of_ne_nil hn
    subst he
    exact ih (h.after c)

end Enclosed

def AtCloser (within : List Context) : Prop :=
  within = [.group] ∨ within = [.slash, .group]

theorem tail_eq_nil_of_afterCode {within : List Context} {d : Char} (hn : within ≠ [])
    (h : afterCode within d = []) : within.tail = [] := by
  unfold afterCode at h
  repeat' split at h
  case isFalse.isFalse.isFalse.isFalse.isTrue => exact h
  case isFalse.isFalse.isFalse.isFalse.isFalse => exact absurd h hn
  all_goals simp at h

theorem afterTemplate_ne_nil {outer : List Context} (hn : outer ≠ []) (d : Char) :
    afterTemplate outer d ≠ [] := by
  unfold afterTemplate
  repeat' split
  case isFalse.isTrue => exact hn
  all_goals simp

theorem Enclosed.atCloser {within : List Context} (h : Enclosed within) (hn : within ≠ [])
    {d : Char}
    (ha : Context.after within d = []) : AtCloser within := by
  obtain ⟨ctx, outer, he⟩ := List.exists_cons_of_ne_nil hn
  subst he
  have hf := h.left
  cases ctx <;> simp only [Context.after] at ha
  case group =>
    have ho := tail_eq_nil_of_afterCode hn ha
    exact .inl (by simpa using ho)
  case slash =>
    obtain ⟨more, ho⟩ := List.head?_eq_some_iff.mp hf
    subst ho
    split at ha
    · simp at ha
    split at ha
    · simp at ha
    have hm := tail_eq_nil_of_afterCode (by simp) ha
    exact .inr (by simpa using hm)
  -- All other contexts stand in another one, which is not left before them.
  case template => exact absurd ha (afterTemplate_ne_nil (by rintro rfl; simp [Fits] at hf) d)
  case dollar =>
    split at ha
    · simp at ha
    · exact absurd ha (afterTemplate_ne_nil (by rintro rfl; simp [Fits] at hf) d)
  all_goals
    have ho : outer ≠ [] := by
      rintro rfl
      simp [Fits] at hf
    repeat' split at ha
    all_goals simp [ho] at ha

theorem delimited_iff_atCloser {t : Text} : Delimited t ↔ AtCloser (advance [.group] t) := by
  rw [delimited_iff_leave, leave_concat_iff]
  constructor
  case mp =>
    intro ⟨hn, ha⟩
    have he : Enclosed [.group] := ⟨trivial, trivial⟩
    exact (he.advance t).atCloser hn ha
  case mpr =>
    intro h
    rcases h with h | h <;> simp [h, after, afterCode, isOpener, isCloser]

theorem delimited_of_group? {c : Char} {t inside rest : Text}
    (h : group? (c :: t) = some (inside, rest)) : Delimited inside := by
  have ⟨_, d, hl⟩ := group?_eq_some_iff.mp h
  have ht := leave_append hl
  rw [List.append_assoc] at ht
  subst ht
  have ⟨hn, ha⟩ := leave_concat_iff.mp hl
  have he : Enclosed [.group] := ⟨trivial, trivial⟩
  exact delimited_iff_atCloser.mpr ((he.advance inside).atCloser hn ha)

-- Inside something that would have ended with its line.
inductive Dangling : List Context → Prop
  | line : Dangling [.line, .group]
  | quoted {quote} (h : quote = '"' ∨ quote = '\'') : Dangling [.quoted quote, .group]
  | escape {quote} (h : quote = '"' ∨ quote = '\'') : Dangling [.escape, .quoted quote, .group]

-- Where a text in a group may be cut off: the text closes all that it opens in the group, or lacks
-- the end of its line to do so.
def Settled (within : List Context) : Prop :=
  AtCloser within ∨ Dangling within

namespace Settled

variable {outer : List Context}

theorem eq_of_group (h : Settled outer) (hg : outer.head? = some .group) : outer = [.group] := by
  have ⟨more, ho⟩ := List.head?_eq_some_iff.mp hg
  subst ho
  rcases h with h | h
  case inl => simpa [AtCloser] using h
  case inr => cases h

theorem of_afterTemplate {c : Char} (hb : isBlank c) (h : Settled (afterTemplate outer c)) :
    False := by
  rw [afterTemplate, if_neg (ne_of_isBlank hb rfl), if_neg (ne_of_isBlank hb rfl),
    if_neg (ne_of_isBlank hb rfl)] at h
  rcases h with (h | h) | h <;> cases h

-- A blank settles nothing that was not settled, but for a missing line feed.
theorem of_after {within : List Context} (he : Enclosed within) {c : Char} (hb : isBlank c)
    (h : Settled (after within c)) : Settled within := by
  have ho := isOrdinary_of_isBlank hb
  cases within
  case nil => simpa [after, afterCode_of_isOrdinary ho] using h
  case cons ctx outer =>
    have hf := he.left
    cases ctx <;> simp only [after] at h
    case group => rwa [afterCode_of_isOrdinary ho] at h
    case slash =>
      rw [if_neg (ne_of_isBlank hb rfl), if_neg (ne_of_isBlank hb rfl),
        afterCode_of_isOrdinary ho] at h
      exact .inl (.inr (by rw [h.eq_of_group hf]))
    case line =>
      split at h
      case isTrue => exact .inr (h.eq_of_group hf ▸ .line)
      case isFalse => exact h
    case block =>
      rw [if_neg (ne_of_isBlank hb rfl)] at h
      rcases h with (h | h) | h <;> cases h
    case star =>
      rw [if_neg (ne_of_isBlank hb rfl), if_neg (ne_of_isBlank hb rfl)] at h
      rcases h with (h | h) | h <;> cases h
    case quoted quote =>
      rw [if_neg (ne_of_isBlank hb rfl)] at h
      split at h
      case isTrue => exact .inr (h.eq_of_group hf.right ▸ .quoted hf.left)
      case isFalse => exact h
    case template => exact absurd h (of_afterTemplate hb)
    case dollar =>
      rw [if_neg (ne_of_isBlank hb rfl)] at h
      exact absurd h (of_afterTemplate hb)
    case escape =>
      rcases h with (h | h) | h
      · simp [h, Fits] at hf
      · simp [h, Fits] at hf
      · cases h
        case line => simp [Fits] at hf
        case quoted hq => exact .inr (.escape hq)
        case escape => simp [Fits] at hf

theorem of_advance {within : List Context} (he : Enclosed within) {t : Text}
    (hb : ∀ c ∈ t, isBlank c)
    (h : Settled (advance within t)) : Settled within := by
  induction t generalizing within
  case nil => simpa using h
  case cons c t ih =>
    have ⟨hc, ht⟩ := List.forall_mem_cons.mp hb
    cases within
    case nil => simpa using h
    case cons ctx outer => exact of_after he hc (ih (he.after c) ht h)

end Settled

-- Trimming a delimited text takes nothing from it that it needs, but for a line feed.
theorem Delimited.trim {t : Text} (h : Delimited t) :
    Delimited t.trim ∨ Dangling (advance [.group] t.trim) := by
  have ⟨s, u, he, hs, hu⟩ := t.exists_trim
  rw [he, delimited_iff_atCloser, advance_append, advance_append] at h
  rw [advance_of_isOrdinary fun c hc => isOrdinary_of_isBlank (hs c hc)] at h
  rw [delimited_iff_atCloser]
  have hg : Enclosed [.group] := ⟨trivial, trivial⟩
  exact Settled.of_advance (hg.advance _) hu (.inl h)

end Componentry.Code
