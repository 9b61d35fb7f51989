import Mathlib
import Componentry.Code.Span
import Componentry.Proofs.Text.Offsets

/-!
How far the reading of code depends on its surroundings: not on what follows the place where it
stops, and not on the contexts around those it is to leave.
-/
namespace Componentry.Text

theorem append_inj_of_size {s t u v : Text} (h : s ++ u = t ++ v) (hs : s.size = t.size) :
    s = t ∧ u = v := by
  induction s generalizing t <;> cases t
  case nil.nil => exact ⟨rfl, h⟩
  case nil.cons c t => exact absurd hs.symm (Nat.ne_of_gt (size_pos_of_ne_nil (by simp)))
  case cons.nil c s _ => exact absurd hs (Nat.ne_of_gt (size_pos_of_ne_nil (by simp)))
  case cons.cons c s ih d t =>
    have ⟨hc, ht⟩ := List.cons.inj h
    subst hc
    have ⟨hst, huv⟩ := ih ht (by simpa using hs)
    exact ⟨hst ▸ rfl, huv⟩

end Text

namespace Code

open Context

section Following

variable {within : List Context} {t inside rest : Text}

theorem leave_inside (h : leave within t = some (inside, rest)) (u : Text) :
    leave within (inside ++ u) = some (inside, u) := by
  fun_induction leave within t generalizing inside
  case case1 => simp_all [leave]
  case case2 => simp at h
  case case3 ctx outer c t ih =>
    have ⟨⟨a, b⟩, hl, he⟩ := Option.map_eq_some_iff.mp h
    have ⟨ha, hb⟩ := Prod.mk.inj he
    subst ha hb
    simp [leave, ih hl]

theorem leave_inside_ne_nil {ctx : Context} {outer : List Context}
    (h : leave (ctx :: outer) t = some (inside, rest)) : inside ≠ [] := by
  cases t <;> simp only [leave] at h
  case nil => simp at h
  case cons c t =>
    have ⟨_, _, he⟩ := Option.map_eq_some_iff.mp h
    exact (Prod.mk.inj he).left ▸ List.cons_ne_nil _ _

end Following

-- A mark that a `/` has left is resolved in the code around it. All other contexts can be read
-- without those around them.
def SelfContained (within : List Context) : Prop :=
  within.getLast? ≠ some .slash

namespace SelfContained

variable {ctx : Context} {within : List Context}

theorem nil : SelfContained [] := by
  simp [SelfContained]

theorem tail (h : SelfContained (ctx :: within)) : SelfContained within := by
  cases within
  case nil => exact nil
  case cons => simpa [SelfContained] using h

theorem cons (h : SelfContained within) (hc : within ≠ [] ∨ ctx ≠ .slash) :
    SelfContained (ctx :: within) := by
  cases within
  case nil => simpa [SelfContained] using hc
  case cons => simpa [SelfContained] using h

theorem ne_nil_of_slash (h : SelfContained (.slash :: within)) : within ≠ [] := by
  intro hn
  simp [SelfContained, hn] at h

theorem afterCode (h : SelfContained within) (hn : within ≠ []) (c : Char) :
    SelfContained (Context.afterCode within c) := by
  have ⟨ctx, outer, he⟩ := List.exists_cons_of_ne_nil hn
  subst he
  unfold Context.afterCode
  repeat' split
  case isFalse.isFalse.isFalse.isFalse.isTrue => exact h.tail
  case isFalse.isFalse.isFalse.isFalse.isFalse => exact h
  all_goals exact h.cons (.inl hn)

theorem afterTemplate (h : SelfContained within) (c : Char) :
    SelfContained (Context.afterTemplate within c) := by
  unfold Context.afterTemplate
  repeat' split
  case isTrue => exact (h.cons (.inr (by simp))).cons (.inr (by simp))
  case isFalse.isTrue => exact h
  all_goals exact h.cons (.inr (by simp))

theorem after (h : SelfContained within) (hn : within ≠ []) (c : Char) :
    SelfContained (Context.after within c) := by
  have ⟨ctx, outer, he⟩ := List.exists_cons_of_ne_nil hn
  subst he
  have ho := h.tail
  cases ctx <;> simp only [Context.after]
  case group => exact h.afterCode hn c
  case slash =>
    have ho' := h.ne_nil_of_slash
    repeat' split
    case isFalse.isFalse => exact ho.afterCode ho' c
    all_goals exact ho.cons (.inl ho')
  case line =>
    split
    · exact ho
    · exact h
  case block => split <;> exact ho.cons (.inr (by simp))
  case star =>
    split
    · exact ho
    · split <;> exact ho.cons (.inr (by simp))
  case quoted quote =>
    repeat' split
    · exact h.cons (.inl hn)
    · exact ho
    · exact h
  case template => exact ho.afterTemplate c
  case dollar =>
    split
    · exact (ho.cons (.inr (by simp))).cons (.inr (by simp))
    · exact ho.afterTemplate c
  case escape => exact ho

end SelfContained

section Surroundings

variable {within : List Context} (outer : List Context)

theorem afterCode_append (hn : within ≠ []) (c : Char) :
    afterCode (within ++ outer) c = afterCode within c ++ outer := by
  unfold afterCode
  repeat' split
  case isFalse.isFalse.isFalse.isFalse.isTrue => exact List.tail_append_of_ne_nil hn
  all_goals rfl

theorem afterTemplate_append (c : Char) :
    afterTemplate (within ++ outer) c = afterTemplate within c ++ outer := by
  unfold afterTemplate
  repeat' split
  all_goals rfl

theorem after_append (h : SelfContained within) (hn : within ≠ []) (c : Char) :
    after (within ++ outer) c = after within c ++ outer := by
  have ⟨ctx, more, he⟩ := List.exists_cons_of_ne_nil hn
  subst he
  cases ctx <;> simp only [List.cons_append, after]
  case group => exact afterCode_append outer hn c
  case slash =>
    repeat' split
    case isFalse.isFalse => exact afterCode_append outer h.ne_nil_of_slash c
    all_goals rfl
  case template => exact afterTemplate_append outer c
  case dollar =>
    split
    · rfl
    · exact afterTemplate_append outer c
  all_goals repeat' split
  all_goals rfl

theorem leave_append_left (h : SelfContained within) (t : Text) :
    leave (within ++ outer) t =
      (leave within t).bind fun p => (leave outer p.2).map fun q => (p.1 ++ q.1, q.2) := by
  fun_induction leave within t
  case case1 t => simp
  case case2 ctx more => simp [leave]
  case case3 ctx more c t ih =>
    simp only [List.cons_append, leave]
    rw [← List.cons_append, after_append outer h (by simp), ih (h.after (by simp) c)]
    cases leave (after (ctx :: more) c) t <;> simp [Function.comp_def]

end Surroundings

-- Reading `t` from inside `before` leads to the inside of `after` and has not left all contexts on
-- the way.
def Reads (before : List Context) (t : Text) (after : List Context) : Prop :=
  ∀ rest, leave before (t ++ rest) = (leave after rest).map fun p => (t ++ p.1, p.2)

namespace Reads

variable {before middle after outer : List Context} {ctx : Context} {t u : Text}

theorem nil : Reads before [] before := by
  intro rest
  simp

theorem append (h₁ : Reads before t middle) (h₂ : Reads middle u after) :
    Reads before (t ++ u) after := by
  intro rest
  rw [List.append_assoc, h₁, h₂]
  simp [Function.comp_def]

theorem cons {c : Char} (h : Reads (Context.after (ctx :: outer) c) t after) :
    Reads (ctx :: outer) (c :: t) after := by
  intro rest
  rw [List.cons_append, leave, h]
  simp [Function.comp_def]

theorem leave_eq (h : Reads before t []) (rest : Text) :
    leave before (t ++ rest) = some (t, rest) := by
  simp [h rest, leave]

end Reads

theorem SelfContained.reads {within outer : List Context} {t : Text} (hw : SelfContained within)
    (h : leave within t = some (t, [])) : Reads (within ++ outer) t outer := by
  intro rest
  rw [leave_append_left outer hw, leave_inside h rest]
  rfl

-- A text that ends where the parenthesis before it is closed.
def Delimited (t : Text) : Prop :=
  closer? ('(' :: t ++ [')']) 0 = some (t.size + 1)

instance (t : Text) : Decidable (Delimited t) :=
  inferInstanceAs (Decidable (_ = _))

theorem group?_eq_some_iff {c : Char} {t inside rest : Text} :
    group? (c :: t) = some (inside, rest) ↔
      isOpener c ∧ ∃ d, leave [.group] t = some (inside ++ [d], rest) := by
  simp only [group?]
  constructor <;> intro h
  case mp =>
    split at h
    case isFalse => simp at h
    case isTrue ho =>
      obtain ⟨⟨a, b⟩, hl, he⟩ := Option.map_eq_some_iff.mp h
      obtain ⟨ha, hb⟩ := Prod.mk.inj he
      subst ha hb
      refine ⟨ho, a.getLast (leave_inside_ne_nil hl), ?_⟩
      rw [List.dropLast_concat_getLast, hl]
  case mpr =>
    obtain ⟨ho, d, hl⟩ := h
    simp [ho, hl]

theorem group?_inside {t inside rest : Text} (h : group? t = some (inside, rest)) :
    ∃ taken, t = taken ++ rest ∧ ∀ u, group? (taken ++ u) = some (inside, u) := by
  cases t
  case nil => simp [group?] at h
  case cons c t =>
    obtain ⟨ho, d, hl⟩ := group?_eq_some_iff.mp h
    have ht := leave_append hl
    refine ⟨c :: (inside ++ [d]), by simp [ht], fun u => ?_⟩
    exact group?_eq_some_iff.mpr ⟨ho, d, leave_inside hl u⟩

theorem closer?_append (s t : Text) :
    closer? (s ++ t) s.size = (group? t).map fun p => s.size + 1 + p.1.size := by
  simp only [closer?, Text.suffix?_append, Option.bind_eq_bind, Option.bind_some]
  cases group? t <;> rfl

theorem group?_of_closer? {c d : Char} {inside rest : Text}
    (h : closer? (c :: (inside ++ d :: rest)) 0 = some (inside.size + 1)) :
    group? (c :: (inside ++ d :: rest)) = some (inside, rest) := by
  simp only [closer?, Text.suffix?, Option.bind_eq_bind, Option.bind_some] at h
  obtain ⟨⟨inside', rest'⟩, hg, hs⟩ := Option.bind_eq_some_iff.mp h
  obtain ⟨_, d', hl⟩ := group?_eq_some_iff.mp hg
  have he := leave_append hl
  rw [List.append_assoc, List.singleton_append] at he
  obtain ⟨hi, hr⟩ := Text.append_inj_of_size he (by simp at hs; omega)
  rw [hg, hi, (List.cons.inj hr).right]

theorem exists_closer {c : Char} {t inside rest : Text}
    (h : group? (c :: t) = some (inside, rest)) :
    ∃ d, t = inside ++ d :: rest ∧
      ∀ u, closer? (c :: (inside ++ d :: u)) 0 = some (inside.size + 1) := by
  have ⟨ho, d, hl⟩ := group?_eq_some_iff.mp h
  refine ⟨d, by simpa using leave_append hl, fun u => ?_⟩
  have hg := group?_eq_some_iff.mpr ⟨ho, d, leave_inside hl u⟩
  rw [List.append_assoc, List.singleton_append] at hg
  simp [closer?, Text.suffix?, hg, Nat.add_comm]

theorem group?_concat {t inside rest : Text} {d : Char}
    (h : group? (t ++ [d]) = some (inside, rest))
    (hn : rest ≠ []) : ∃ taken more, t = taken ++ more ∧ rest = more ++ [d] ∧
      ∀ u, group? (taken ++ u) = some (inside, u) := by
  have ⟨taken, he, hgroup⟩ := group?_inside h
  rcases List.append_eq_append_iff.mp he with ⟨cut, hcut, hd⟩ | ⟨more, hmore, hrest⟩
  case inr => exact ⟨taken, more, hmore, hrest, hgroup⟩
  case inl =>
    cases cut
    case nil => exact ⟨taken, [], by simpa using hcut.symm, by simpa using hd.symm, hgroup⟩
    case cons => simp [hn] at hd

theorem delimited_iff_leave {t : Text} :
    Delimited t ↔ leave [.group] (t ++ [')']) = some (t ++ [')'], []) := by
  constructor <;> intro h
  case mp =>
    have ⟨_, d, hl⟩ := group?_eq_some_iff.mp (group?_of_closer? h)
    have hd : ')' = d := by simpa using leave_append hl
    rw [hl, hd]
  case mpr =>
    have hg := group?_eq_some_iff.mpr ⟨(by decide : isOpener '('), _, h⟩
    have ⟨d, ht, hclose⟩ := exists_closer hg
    rw [Delimited, List.cons_append, ht]
    exact hclose []

namespace Delimited

variable {t : Text}

theorem reads (h : Delimited t) (outer : List Context) :
    Reads (.group :: outer) (t ++ [')']) outer := by
  have hg : SelfContained [.group] := by simp [SelfContained]
  exact hg.reads (delimited_iff_leave.mp h)

theorem group?_eq (h : Delimited t) (rest : Text) :
    group? ('(' :: t ++ ')' :: rest) = some (t, rest) := by
  refine group?_eq_some_iff.mpr ⟨by decide, ')', ?_⟩
  simpa using (h.reads []).leave_eq rest

theorem closer?_eq (h : Delimited t) (rest : Text) :
    closer? ('(' :: (t ++ ')' :: rest)) 0 = some (t.size + 1) := by
  have hg := h.group?_eq rest
  rw [List.cons_append] at hg
  simp [closer?, Text.suffix?, hg, Nat.add_comm]

end Delimited

end Code
end Componentry
