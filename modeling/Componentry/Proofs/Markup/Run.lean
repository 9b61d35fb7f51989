import Mathlib
import Componentry.Markup.Event

/-!
Reading markup as a relation. A step takes one event off the text, and a run takes all of them;
there is one kind of step for each thing that can stand at the start of a text.
-/
namespace Componentry.Markup

open Code

theorem enter_eq_ok_iff {paren condition inside : Text} {block : Block} :
    enter paren = .ok (condition, block, inside) ↔
      ∃ raw rest, group? paren = some (raw, rest) ∧ raw.trim ≠ [] ∧ rest.skipSpace = '{' :: inside ∧
        condition = raw.trim ∧ block = ⟨'{' :: inside, false, 0⟩ := by
  constructor
  case mp =>
    intro h
    unfold enter at h
    split at h
    case h_1 => simp at h
    case h_2 raw rest hg =>
      split at h
      case isTrue => simp at h
      case isFalse hn =>
        split at h
        case h_2 => simp at h
        case h_1 hs =>
          cases h
          exact ⟨raw, rest, hg, hn, hs, rfl, rfl⟩
  case mpr =>
    intro ⟨raw, rest, hg, hn, hs, hc, hb⟩
    simp [enter, hg, hn, hs, hc, hb]

inductive Step : List Block → Text → Event → List Block → Text → Prop
  -- `@if (condition) {`
  | opens {blocks t paren condition block inside} (hp : condition? ('@' :: t) = some paren)
    (he : enter paren = .ok (condition, block, inside)) :
    Step blocks ('@' :: t) (.opens condition) (block :: blocks) inside
  | name {blocks t identifier rest} (hp : condition? ('@' :: t) = none)
    (hs : Identifier.split t = (identifier, rest)) (hn : identifier ≠ [])
    (hr : isReserved identifier = false) : Step blocks ('@' :: t) (.name identifier) blocks rest
  -- An `@` that is text.
  | sign {blocks t} (hp : condition? ('@' :: t) = none)
    (hs : (Identifier.split t).1 = [] ∨ isReserved (Identifier.split t).1) :
    Step blocks ('@' :: t) (.text ['@']) blocks t
  -- Braces outside all blocks, and braces of the text of a block.
  | outside {c t} (hc : c = '{' ∨ c = '}') : Step [] (c :: t) (.text [c]) [] t
  | deeper {block outer t} :
    Step (block :: outer) ('{' :: t) (.text ['{'])
    ({ block with depth := block.depth + 1 } :: outer) t
  | shallower {block outer t} (hd : block.depth ≠ 0) :
    Step (block :: outer) ('}' :: t) (.text ['}'])
    ({ block with depth := block.depth - 1 } :: outer) t
  -- The end of a block, by what follows it.
  | closes {block outer t} (hd : block.depth = 0) (he : block.isAlternate ∨ else? t = none) :
    Step (block :: outer) ('}' :: t) .closes outer t
  | orElseIf {block outer t rest paren condition next inside} (hd : block.depth = 0)
    (ha : block.isAlternate = false) (he : else? t = some rest)
    (hp : condition? rest.skipSpace = some paren)
    (hn : enter paren = .ok (condition, next, inside)) :
    Step (block :: outer) ('}' :: t) (.orElseIf condition) (next :: outer) inside
  | orElse {block outer t rest inside} (hd : block.depth = 0) (ha : block.isAlternate = false)
    (he : else? t = some rest) (hs : rest.skipSpace = '{' :: inside) :
    Step (block :: outer) ('}' :: t) .orElse (⟨'{' :: inside, true, 0⟩ :: outer) inside
  | plain {blocks c t} (hc : isPlain c) :
    Step blocks (c :: t) (.text (c :: t.takeWhile isPlain)) blocks (t.dropWhile isPlain)

theorem Step.of_leaveBlock {block : Block} {outer after : List Block} {t rest : Text}
    {event : Event}
    (hd : block.depth = 0) (h : leaveBlock block outer t = .ok (event, after, rest)) :
    Step (block :: outer) ('}' :: t) event after rest := by
  unfold leaveBlock at h
  split at h
  case isTrue ha =>
    cases h
    exact .closes hd (.inl ha)
  case isFalse ha =>
    rw [Bool.not_eq_true] at ha
    split at h
    case h_1 he =>
      cases h
      exact .closes hd (.inr he)
    case h_2 after' he =>
      split at h
      case h_1 paren hp =>
        split at h
        case h_1 => simp at h
        case h_2 hn =>
          cases h
          exact .orElseIf hd ha he hp hn
      case h_2 =>
        split at h
        case h_2 => simp at h
        case h_1 hs =>
          cases h
          exact .orElse hd ha he hs

theorem Step.of_nextEvent {blocks after : List Block} {c : Char} {t rest : Text} {event : Event}
    (h : nextEvent blocks c t = .ok (event, after, rest)) :
    Step blocks (c :: t) event after rest := by
  unfold nextEvent at h
  split at h
  case isTrue hc =>
    subst hc
    split at h
    case h_1 paren hp =>
      split at h
      case h_1 => simp at h
      case h_2 he =>
        cases h
        exact .opens hp he
    case h_2 hp =>
      dsimp only at h
      split at h
      case isTrue hs =>
        cases h
        exact .sign hp (by simpa using hs)
      case isFalse hs =>
        cases h
        simp only [Bool.or_eq_true, decide_eq_true_eq, not_or, Bool.not_eq_true] at hs
        exact .name hp rfl hs.left hs.right
  case isFalse hsign =>
    split at h
    case isTrue hc =>
      subst hc
      split at h <;> cases h
      case h_1 => exact .outside (.inl rfl)
      case h_2 => exact .deeper
    case isFalse hopen =>
      split at h
      case isTrue hc =>
        subst hc
        split at h
        case h_1 =>
          cases h
          exact .outside (.inr rfl)
        case h_2 =>
          split at h
          case isTrue hd => exact .of_leaveBlock hd h
          case isFalse hd =>
            cases h
            exact .shallower hd
      case isFalse hclose =>
        cases h
        exact .plain (by simp [isPlain, hsign, hopen, hclose])

theorem Step.nextEvent_eq {blocks after : List Block} {c : Char} {t rest : Text} {event : Event}
    (h : Step blocks (c :: t) event after rest) :
    nextEvent blocks c t = .ok (event, after, rest) := by
  cases h
  case opens hp he => simp [nextEvent, hp, he]
  case name hp hs hn hr => simp [nextEvent, hp, hs, hn, hr]
  case sign hp hs => simp [nextEvent, hp, hs]
  case outside hc => rcases hc with rfl | rfl <;> simp [nextEvent]
  case deeper => simp [nextEvent]
  case shallower hd => simp [nextEvent, hd]
  case closes hd he =>
    rcases he with ha | he
    · simp [nextEvent, leaveBlock, hd, ha]
    · simp [nextEvent, leaveBlock, hd, he]
  case orElseIf hd ha he hp hn => simp [nextEvent, leaveBlock, hd, ha, he, hp, hn]
  case orElse hd ha he hs => simp [nextEvent, leaveBlock, hd, ha, he, hs, condition?]
  case plain hc =>
    simp only [isPlain, Bool.and_eq_true, decide_eq_true_eq] at hc
    simp [nextEvent, hc]

theorem Step.exists_cons {blocks after : List Block} {t rest : Text} {event : Event}
    (h : Step blocks t event after rest) : ∃ c u, t = c :: u := by
  cases h <;> exact ⟨_, _, rfl⟩

theorem events_of_error {blocks : List Block} {c : Char} {t : Text} {failure : Failure}
    (h : nextEvent blocks c t = .error failure) : events blocks (c :: t) = .error failure := by
  rw [events]
  split
  case h_1 hn =>
    rw [h] at hn
    cases hn
    rfl
  case h_2 hn => simp [h] at hn

theorem Step.events_eq {blocks after : List Block} {t rest : Text} {event : Event}
    (h : Step blocks t event after rest) : events blocks t =
      (events after rest).map (event :: ·) := by
  have ⟨c, u, ht⟩ := h.exists_cons
  subst ht
  rw [events]
  split
  case h_1 hn => simp [h.nextEvent_eq] at hn
  case h_2 hn =>
    rw [h.nextEvent_eq] at hn
    cases hn
    rfl

inductive Run : List Block → Text → List Event → Prop
  | done : Run [] [] []
  | step {blocks after t rest event events} :
    Step blocks t event after rest → Run after rest events → Run blocks t (event :: events)

theorem events_eq_ok_iff {blocks : List Block} {t : Text} {es : List Event} :
    events blocks t = .ok es ↔ Run blocks t es := by
  constructor <;> intro h
  case mp =>
    fun_induction events blocks t generalizing es
    case case1 =>
      cases h
      exact .done
    case case2 => simp at h
    case case3 => simp at h
    case case4 blocks c t event after rest hn ih =>
      cases hr : events after rest <;> rw [hr] at h <;> cases h
      exact .step (.of_nextEvent hn) (ih hr)
  case mpr =>
    induction h
    case done => simp [events]
    case step hs _ ih => rw [hs.events_eq, ih]; rfl

end Componentry.Markup
