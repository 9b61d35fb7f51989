import Componentry.Markup.Tree
import Componentry.Proofs.Code.Nesting
import Componentry.Proofs.Markup.Run
import Componentry.Proofs.Markup.Structure

/-!
What markup a text can spell: its names are identifiers, its conditions are what stood in some
parentheses, and no two of its texts follow each other.
-/
namespace Componentry

theorem Identifier.isName_split {t name rest : Text} (h : split t = (name, rest)) (hn : name ≠ []) :
    IsName name := by
  cases t
  case nil => exact absurd (Prod.mk.inj h).left.symm hn
  case cons c t =>
    simp only [split] at h
    split at h
    case isFalse => exact absurd (Prod.mk.inj h).left.symm hn
    case isTrue hc =>
      obtain ⟨hname, _⟩ := Prod.mk.inj h
      subst hname
      have hpart : ∀ d ∈ t.takeWhile isPart, isPart d := fun d hd => List.mem_takeWhile_imp hd
      have htake := List.takeWhile_eq_self_iff.mpr hpart
      have hdrop := List.dropWhile_eq_nil_iff.mpr hpart
      refine ⟨hn, ?_⟩
      rw [split, if_pos hc, htake, hdrop]

namespace Markup

open Code

def IsCondition (c : Text) : Prop :=
  ∃ raw, Delimited raw ∧ raw.trim = c ∧ c ≠ []

theorem isCondition_of_enter {paren condition inside : Text} {block : Block}
    (h : enter paren = .ok (condition, block, inside)) : IsCondition condition := by
  have ⟨raw, rest, hg, hn, _, hc, _⟩ := enter_eq_ok_iff.mp h
  cases paren
  case nil => simp [group?] at hg
  case cons c t => exact ⟨raw, delimited_of_group? hg, hc.symm, hc ▸ hn⟩

theorem Step.opens_delimited {raw : Text} (hd : Delimited raw) (hn : raw.trim ≠ [])
    (blocks : List Block) (inside : Text) :
    Step blocks ('@' :: 'i' :: 'f' :: ' ' :: '(' :: (raw ++ ')' :: ' ' :: '{' :: inside))
      (.opens raw.trim) (⟨'{' :: inside, false, 0⟩ :: blocks) inside := by
  have hg : group? ('(' :: (raw ++ ')' :: ' ' :: '{' :: inside)) =
      some (raw, ' ' :: '{' :: inside) :=
    hd.group?_eq _
  exact .opens rfl (enter_eq_ok_iff.mpr ⟨raw, _, hg, hn, rfl, rfl, rfl⟩)

def Event.IsSpelled : Event → Prop
  | .name identifier => Identifier.IsName identifier
  | .opens condition | .orElseIf condition => IsCondition condition
  | .text _ | .orElse | .closes => True

theorem Step.isSpelled {blocks after : List Block} {t rest : Text} {event : Event}
    (h : Step blocks t event after rest) : event.IsSpelled := by
  cases h
  case opens he => exact isCondition_of_enter he
  case name hn _ hs => exact Identifier.isName_split hs hn
  case orElseIf hn => exact isCondition_of_enter hn
  all_goals trivial

theorem Run.isSpelled {blocks : List Block} {t : Text} {es : List Event} (h : Run blocks t es) :
    ∀ event ∈ es, event.IsSpelled := by
  induction h
  case done => simp
  case step hs _ ih => exact List.forall_mem_cons.mpr ⟨hs.isSpelled, ih⟩

structure IsSpelled (m : Markup) : Prop where
  textsApart : m.textsApart
  names : ∀ identifier ∈ m.names, Identifier.IsName identifier
  conditions : ∀ condition ∈ m.conditions, IsCondition condition

namespace IsSpelled

theorem empty : IsSpelled .empty :=
  ⟨rfl, by simp [Markup.names], by simp [Markup.conditions]⟩

-- Text joins the text that follows it, so that the two never stand side by side.
theorem prependText {m : Markup} (h : m.IsSpelled) (t : Text) : (m.prependText t).IsSpelled := by
  have ⟨ht, hn, hc⟩ := h
  cases m <;> exact ⟨ht, hn, hc⟩

theorem name {m : Markup} (h : m.IsSpelled) {identifier : Text}
    (hi : Identifier.IsName identifier) :
    (Markup.name identifier m).IsSpelled :=
  ⟨h.textsApart, List.forall_mem_cons.mpr ⟨hi, h.names⟩, h.conditions⟩

theorem conditional {body alternate rest : Markup} {condition : Text} (hc : IsCondition condition)
    (hb : body.IsSpelled) (ha : alternate.IsSpelled) (hr : rest.IsSpelled) :
    (Markup.conditional condition body alternate rest).IsSpelled := by
  refine ⟨hr.textsApart, ?_, ?_⟩
  · simp only [Markup.names, List.forall_mem_append]
    exact ⟨⟨hb.names, ha.names⟩, hr.names⟩
  · simp only [Markup.conditions, List.forall_mem_append, List.cons_append, List.forall_mem_cons]
    exact ⟨hc, ⟨hb.conditions, ha.conditions⟩, hr.conditions⟩

end IsSpelled

def Pending.IsSpelled (block : Pending) : Prop :=
  block.parts.IsSpelled ∧ block.alternate.IsSpelled

theorem isSpelled_addEvent {event : Event} (he : event.IsSpelled) {blocks : List Pending}
    (h : ∀ block ∈ blocks, block.IsSpelled) : ∀ block ∈ addEvent event blocks, block.IsSpelled := by
  fun_cases addEvent event blocks
  case case1 content block outer =>
    have ⟨hb, ho⟩ := List.forall_mem_cons.mp h
    exact List.forall_mem_cons.mpr ⟨⟨hb.left.prependText content, hb.right⟩, ho⟩
  case case2 identifier block outer =>
    have ⟨hb, ho⟩ := List.forall_mem_cons.mp h
    exact List.forall_mem_cons.mpr ⟨⟨hb.left.name he, hb.right⟩, ho⟩
  case case3 => exact List.forall_mem_cons.mpr ⟨⟨.empty, .empty⟩, h⟩
  case case4 block outer =>
    have ⟨hb, ho⟩ := List.forall_mem_cons.mp h
    exact List.forall_mem_cons.mpr ⟨⟨.empty, hb.left⟩, ho⟩
  case case5 condition block outer =>
    have ⟨hb, ho⟩ := List.forall_mem_cons.mp h
    exact List.forall_mem_cons.mpr ⟨⟨.empty, .conditional he hb.left hb.right .empty⟩, ho⟩
  case case6 condition block next outer =>
    have ⟨hb, ho⟩ := List.forall_mem_cons.mp h
    have ⟨hn, ho⟩ := List.forall_mem_cons.mp ho
    exact List.forall_mem_cons.mpr ⟨⟨.conditional he hb.left hb.right hn.left, hn.right⟩, ho⟩
  case case7 => exact h

theorem isSpelled_ofEvents {es : List Event} (h : ∀ event ∈ es, event.IsSpelled) :
    (ofEvents es).IsSpelled := by
  have hall : ∀ block ∈ es.foldr addEvent [⟨.empty, .empty⟩], block.IsSpelled := by
    induction es
    case nil => exact List.forall_mem_singleton.mpr ⟨.empty, .empty⟩
    case cons event es ih =>
      have ⟨he, hes⟩ := List.forall_mem_cons.mp h
      exact isSpelled_addEvent he (ih hes)
  unfold ofEvents
  split
  case h_1 => exact .empty
  case h_2 block _ heq =>
    rw [heq] at hall
    exact (List.forall_mem_cons.mp hall).left.left

theorem parse_eq_ok_iff {t : Text} {m : Markup} :
    parse t = .ok m ↔ ∃ es, Run [] t es ∧ ofEvents es = m := by
  simp only [parse, ← events_eq_ok_iff]
  cases events [] t <;> simp

theorem isSpelled_of_parse {t : Text} {m : Markup} (h : parse t = .ok m) : m.IsSpelled := by
  have ⟨es, hr, hm⟩ := parse_eq_ok_iff.mp h
  exact hm ▸ isSpelled_ofEvents hr.isSpelled

end Markup
end Componentry
