import Componentry.Proofs.Code.Neutral
import Componentry.Proofs.Code.Outside

/-!
Offsets in code. An offset is in code if and only if reading from the start of the text gets there
with all literals before it passed over as a whole.
-/
namespace Componentry.Code

open Context

def contextsAfter (within : List Context) (t : Text) : List Context :=
  t.foldl Context.after within

section Contexts

variable {within outer : List Context} {depth d : Nat} {c : Char} {t u before rest : Text}

theorem contextsAfter_append (within : List Context) (t u : Text) :
    contextsAfter within (t ++ u) = contextsAfter (contextsAfter within t) u :=
  List.foldl_append

theorem contextsAfter_cons (within : List Context) (c : Char) (t : Text) :
    contextsAfter within (c :: t) = contextsAfter (after within c) t :=
  rfl

-- Only the next character says whether a place after a `/` is in code.
theorem isCodeAt_append (s t : Text) :
    isCodeAt (s ++ t) s.size = t.head?.all (isCode (contextsAfter [] s)) := by
  have hgo (within : List Context) :
      isCodeAt.go within (s ++ t) s.size = t.head?.all (isCode (contextsAfter within s)) := by
    induction s generalizing within
    case nil => cases t <;> simp [isCodeAt.go, contextsAfter]
    case cons c s ih =>
      have hpos := c.utf8Size_pos
      rw [List.cons_append, isCodeAt.go, if_neg (by simp; omega), if_neg (by simp), Text.size_cons,
        Nat.add_sub_cancel_left, ih, contextsAfter_cons]
  exact hgo []

theorem isCode_iff : isCode within c ↔ ∃ depth, IsOutside within depth (c :: t) := by
  have hall (outer : List Context) :
      outer.all (· = .group) ↔ ∃ depth, outer = List.replicate depth .group := by
    simp [List.eq_replicate_iff]
  cases within
  case nil => exact iff_of_true rfl ⟨0, .inl rfl⟩
  case cons ctx outer =>
    by_cases hs : ctx = .slash
    case pos =>
      subst hs
      have hne (depth : Nat) : .slash :: outer ≠ List.replicate depth .group := by
        cases depth <;> simp [List.replicate_succ]
      simp only [isCode, Bool.and_eq_true, hall, IsOutside, hne, false_or]
      simp
      tauto
    case neg =>
      have hcode : isCode (ctx :: outer) c = (ctx :: outer).all (· = .group) := by
        cases ctx <;> simp_all [isCode]
      rw [hcode, hall]
      simp [IsOutside, hs]

theorem contextsAfter_leave (hw : SelfContained within) {inside : Text}
    (h : leave within t = some (inside, rest)) (outer : List Context) :
    contextsAfter (within ++ outer) inside = outer := by
  fun_induction leave within t generalizing inside
  case case1 =>
    cases h
    rfl
  case case2 => simp at h
  case case3 ctx more c t ih =>
    obtain ⟨⟨inside', rest'⟩, hl, he⟩ := Option.map_eq_some_iff.mp h
    obtain ⟨rfl, rfl⟩ := Prod.mk.inj he
    rw [contextsAfter_cons, after_append outer hw (by simp)]
    exact ih (hw.after (by simp) c) hl

theorem contextsAfter_of_isOrdinary (h : ∀ c ∈ t, isOrdinary c) (depth : Nat) :
    contextsAfter (List.replicate depth .group) t = List.replicate depth .group := by
  induction t
  case nil => rfl
  case cons c t ih =>
    obtain ⟨hc, ht⟩ := List.forall_mem_cons.mp h
    rw [contextsAfter_cons, IsOutside.after_replicate, afterCode_of_isOrdinary hc, ih ht]

theorem Opens.selfContained {opening : Text} {ctx : Context} (h : Opens opening ctx) :
    SelfContained [ctx] := by
  cases h <;> simp [SelfContained]

theorem Opens.contextsAfter_eq {opening : Text} {ctx : Context} (h : Opens opening ctx)
    (hw : IsOutside within depth (opening ++ t)) :
    contextsAfter within opening = [ctx] ++ List.replicate depth .group := by
  cases h
  case quoted hq => rcases hq with rfl | rfl <;> exact hw.after_eq
  case template => exact hw.after_eq
  all_goals exact congrArg (after · _) hw.after_eq

theorem contextsAfter_literal {literal : Text} (hw : IsOutside within depth t)
    (h : literal? t = some (literal, rest)) :
    rest = [] ∨ contextsAfter within literal = List.replicate depth .group := by
  obtain ⟨opening, ctx, u, ho, rfl, ⟨inside, hl, rfl⟩ | ⟨_, _, rfl⟩⟩ := exists_opens h
  case inl =>
    rw [contextsAfter_append, ho.contextsAfter_eq hw, contextsAfter_leave ho.selfContained hl]
    exact .inr rfl
  case inr => exact .inl rfl

-- What is passed over on the way to a place leaves no context but brackets.
theorem Outside.isOutside (h : Outside depth t before rest d) (hw : IsOutside within depth t) :
    rest = [] ∨ IsOutside (contextsAfter within before) d rest := by
  induction h generalizing within
  case here => exact .inr hw
  case literal hl h ih =>
    rcases contextsAfter_literal hw hl with rfl | hafter
    case inl => exact .inl (List.append_eq_nil_iff.mp h.eq_append.symm).right
    case inr =>
      rw [contextsAfter_append, hafter]
      exact ih (.inl rfl)
  case code hl _ ih => exact ih (hw.step hl)

theorem Outside.exists_depth (h : Outside depth t before rest d) (depth' : Nat) :
    ∃ d', Outside depth' t before rest d' := by
  induction h generalizing depth'
  case here => exact ⟨depth', .here⟩
  case literal hl _ ih =>
    obtain ⟨d', h'⟩ := ih depth'
    exact ⟨d', .literal hl h'⟩
  case code hl _ ih =>
    obtain ⟨d', h'⟩ := ih (depthAfter depth' _)
    exact ⟨d', .code hl h'⟩

end Contexts

def InLiteral (within : List Context) : Prop :=
  ∃ ctx ∈ within.getLast?, ctx ≠ .group ∧ ctx ≠ .slash ∧ ctx ≠ .escape

namespace InLiteral

variable {ctx : Context} {within outer : List Context}

theorem cons (h : InLiteral outer) (ctx : Context) : InLiteral (ctx :: outer) := by
  obtain ⟨last, hl, hne⟩ := h
  exact ⟨last, by simp_all [List.getLast?_cons], hne⟩

theorem tail (h : InLiteral within) : within.tail = [] ∨ InLiteral within.tail := by
  obtain ⟨last, hl, hne⟩ := h
  cases within
  case nil => simp at hl
  case cons ctx outer =>
    cases outer
    case nil => exact .inl rfl
    case cons => exact .inr ⟨last, by simpa using hl, hne⟩

theorem afterCode (h : InLiteral within) (c : Char) :
    Context.afterCode within c = [] ∨ InLiteral (Context.afterCode within c) := by
  unfold Context.afterCode
  repeat' split
  case isFalse.isFalse.isFalse.isFalse.isTrue => exact h.tail
  case isFalse.isFalse.isFalse.isFalse.isFalse => exact .inr h
  all_goals exact .inr (h.cons _)

theorem exchange (h : InLiteral (ctx :: outer)) {other : Context}
    (ho : other ≠ .group ∧ other ≠ .slash ∧ other ≠ .escape) : InLiteral (other :: outer) := by
  rcases h.tail with hn | ht
  case inl =>
    simp only [List.tail_cons] at hn
    exact ⟨other, by simp [hn], ho⟩
  case inr => exact ht.cons other

theorem afterTemplate (h : InLiteral (.template :: outer)) (c : Char) :
    Context.afterTemplate outer c = [] ∨ InLiteral (Context.afterTemplate outer c) := by
  unfold Context.afterTemplate
  repeat' split
  case isTrue => exact .inr (h.cons .escape)
  case isFalse.isTrue => exact h.tail
  case isFalse.isFalse.isTrue => exact .inr (h.exchange (by simp))
  case isFalse.isFalse.isFalse => exact .inr h

theorem after (h : InLiteral (ctx :: outer)) (c : Char) :
    Context.after (ctx :: outer) c = [] ∨ InLiteral (Context.after (ctx :: outer) c) := by
  cases ctx <;> simp only [Context.after]
  case group => exact h.afterCode c
  case slash =>
    have ho : InLiteral outer := by
      refine h.tail.resolve_left fun hn => ?_
      obtain ⟨last, hl, hne⟩ := h
      simp_all
    repeat' split
    case isFalse.isFalse => exact ho.afterCode c
    all_goals exact .inr (ho.cons _)
  case line =>
    split
    · exact h.tail
    · exact .inr h
  case block =>
    split
    · exact .inr (h.exchange (by simp))
    · exact .inr h
  case star =>
    repeat' split
    · exact h.tail
    · exact .inr h
    · exact .inr (h.exchange (by simp))
  case quoted =>
    repeat' split
    · exact .inr (h.cons .escape)
    · exact h.tail
    · exact .inr h
  case template => exact h.afterTemplate c
  case dollar =>
    have ht : InLiteral (.template :: outer) := h.exchange (by simp)
    split
    · exact .inr (ht.cons .group)
    · exact ht.afterTemplate c
  case escape => exact h.tail

theorem exists_contextsAfter (h : InLiteral within) (hw : SelfContained within) {inside u : Text}
    (hl : ∀ taken rest, leave within (inside ++ u) = some (taken, rest) →
      inside.length < taken.length)
    (outer : List Context) :
    ∃ more, contextsAfter (within ++ outer) inside = more ++ outer ∧ InLiteral more := by
  induction inside generalizing within
  case nil => exact ⟨within, rfl, h⟩
  case cons c inside ih =>
    cases within
    case nil => simp [InLiteral] at h
    case cons ctx more =>
      rw [contextsAfter_cons, after_append outer hw (by simp)]
      rcases h.after c with hn | ha
      case inl =>
        have hlt := hl [c] (inside ++ u) (by simp [leave, hn])
        simp at hlt
      case inr =>
        refine ih ha (hw.after (by simp) c) fun taken rest ht => ?_
        have hlt := hl (c :: taken) rest (by simp [leave, ht])
        simpa using hlt

theorem not_isOutside (h : InLiteral within) (depth d : Nat) (t : Text) :
    ¬IsOutside (within ++ List.replicate depth .group) d t := by
  obtain ⟨last, hl, hgroup, hslash, _⟩ := h
  have hmem : last ∈ within ++ List.replicate depth .group :=
    List.mem_append_left _ (List.mem_of_getLast? hl)
  rintro (he | ⟨he, _⟩)
  all_goals
    rw [he] at hmem
    simp [hgroup, hslash] at hmem

end InLiteral

theorem Opens.inLiteral {opening : Text} {ctx : Context} (h : Opens opening ctx) :
    InLiteral [ctx] := by
  cases h <;> exact ⟨_, rfl, by simp⟩

theorem Opens.not_isOutside {s u t : Text} {ctx : Context} (h : Opens (s ++ u) ctx) (hs : s ≠ [])
    (hu : u ≠ [])
    {within : List Context} {depth d : Nat} (hw : IsOutside within depth (s ++ (u ++ t))) :
    ¬IsOutside (contextsAfter within s) d (u ++ t) := by
  have hslash {c : Char} (he : s ++ u = ['/', c]) (hc : c = '/' ∨ c = '*') :
      ¬IsOutside (contextsAfter within s) d (u ++ t) := by
    obtain ⟨rfl, rfl⟩ : s = ['/'] ∧ u = [c] := by
      rcases s with _ | ⟨first, _ | ⟨second, s⟩⟩
      · exact absurd rfl hs
      · simpa using he
      · simp [hu] at he
    have hafter : contextsAfter within ['/'] = .slash :: List.replicate depth .group := hw.after_eq
    rw [hafter]
    rintro (he | ⟨_, hline, hblock⟩)
    · cases d <;> simp [List.replicate_succ] at he
    · rcases hc with rfl | rfl
      · exact hline rfl
      · exact hblock rfl
  have hone {c : Char} : s ++ u ≠ [c] := by
    intro he
    rcases List.append_eq_singleton_iff.mp he with ⟨h, _⟩ | ⟨_, h⟩
    · exact hs h
    · exact hu h
  generalize he : s ++ u = opening at h
  cases h
  case line => exact hslash he (.inl rfl)
  case block => exact hslash he (.inr rfl)
  case quoted => exact absurd he hone
  case template => exact absurd he hone

theorem not_isOutside_of_literal {within : List Context} {depth d : Nat} {s u rest : Text}
    (hw : IsOutside within depth (s ++ (u ++ rest)))
    (h : literal? (s ++ (u ++ rest)) = some (s ++ u, rest)) (hs : s ≠ []) (hu : u ≠ []) :
    ¬IsOutside (contextsAfter within s) d (u ++ rest) := by
  obtain ⟨opening, ctx, v, ho, ht, hread⟩ := exists_opens h
  by_cases hp : opening <+: s
  case neg =>
    rcases List.append_eq_append_iff.mp ht with ⟨cut, rfl, hcut⟩ | ⟨inside, rfl, _⟩
    case inr => exact absurd (List.prefix_append opening inside) hp
    case inl =>
      have hne : cut ≠ [] := by
        rintro rfl
        simp at hp
      rw [hcut] at hw ⊢
      exact ho.not_isOutside hs hne hw
  case pos =>
    obtain ⟨inside, rfl⟩ := hp
    have hv : inside ++ (u ++ rest) = v := by
      rw [List.append_assoc] at ht
      exact List.append_cancel_left ht
    have hlong : ∀ taken after, leave [ctx] (inside ++ (u ++ rest)) = some (taken, after) →
        inside.length < taken.length := by
      intro taken after hl
      have hpos := List.length_pos_of_ne_nil hu
      rw [hv] at hl
      rcases hread with ⟨inside', hl', he⟩ | ⟨hn, _⟩
      case inr => simp [hn] at hl
      case inl =>
        have htaken : taken = inside ++ u := by
          rw [hl] at hl'
          rw [List.append_assoc] at he
          rw [List.append_cancel_left he, (Prod.mk.inj (Option.some.inj hl')).left]
        rw [htaken, List.length_append]
        omega
    obtain ⟨more, he, hmore⟩ := ho.inLiteral.exists_contextsAfter ho.selfContained hlong
      (List.replicate depth .group)
    rw [contextsAfter_append, ho.contextsAfter_eq (t := v) (by rwa [← ht]), he]
    exact hmore.not_isOutside depth d _

-- A place where no literal is open is reached by passing over those before it.
theorem exists_outside {within : List Context} {depth d : Nat} {s t : Text}
    (hw : IsOutside within depth (s ++ t)) (ht : t ≠ [])
    (h : IsOutside (contextsAfter within s) d t) :
    ∃ e, Outside depth (s ++ t) s t e := by
  induction hn : s.length using Nat.strongRecOn generalizing within depth s
  case ind n ih =>
  cases s
  case nil => exact ⟨depth, .here⟩
  case cons c s =>
    cases hl : literal? (c :: s ++ t)
    case none =>
      obtain ⟨e, ho⟩ := ih s.length (by simp at hn; omega) (hw.step hl) h rfl
      exact ⟨e, .code hl ho⟩
    case some p =>
      obtain ⟨literal, rest⟩ := p
      have hne := List.length_pos_of_ne_nil (literal_ne_nil hl)
      rcases List.append_eq_append_iff.mp (literal?_append hl) with ⟨u, hu, rfl⟩ | ⟨later, hs, rfl⟩
      case inl =>
        rw [hu] at hl
        by_cases hnil : u = []
        case neg => exact absurd h (not_isOutside_of_literal hw hl (by simp) hnil)
        case pos =>
          subst hnil
          have ho : Outside depth (c :: s ++ rest) (c :: s ++ []) rest depth :=
            .literal (by simpa using hl) .here
          exact ⟨depth, by simpa using ho⟩
      case inr =>
        rw [hs] at hn h ⊢
        have hafter := (contextsAfter_literal hw hl).resolve_left (by simp [ht])
        rw [contextsAfter_append, hafter] at h
        obtain ⟨e, ho⟩ := ih later.length (by simp at hn; omega) (.inl rfl) h rfl
        exact ⟨e, .literal (by rwa [← hs]) ho⟩

theorem exists_outside_nil (depth : Nat) (t : Text) : ∃ e, Outside depth t t [] e := by
  induction hn : t.length using Nat.strongRecOn generalizing depth t
  case ind n ih =>
  cases t
  case nil => exact ⟨depth, .here⟩
  case cons c t =>
    cases hl : literal? (c :: t)
    case none =>
      obtain ⟨e, ho⟩ := ih t.length (by simp at hn; omega) (depthAfter depth c) t rfl
      exact ⟨e, .code hl ho⟩
    case some p =>
      obtain ⟨literal, rest⟩ := p
      have hne := List.length_pos_of_ne_nil (literal_ne_nil hl)
      have he := literal?_append hl
      obtain ⟨e, ho⟩ := ih rest.length (by simp [he] at hn; omega) depth rest rfl
      exact ⟨e, by nth_rewrite 2 [he]; exact .literal hl ho⟩

-- The offsets in code are those of the places outside all literals.
theorem isCodeAt_iff_outside {s t : Text} :
    isCodeAt (s ++ t) s.size ↔ ∃ depth, Outside 0 (s ++ t) s t depth := by
  rw [isCodeAt_append]
  cases t
  case nil => simpa using exists_outside_nil 0 s
  case cons c t =>
    have hstart : IsOutside [] 0 (s ++ c :: t) := .inl rfl
    rw [List.head?_cons, Option.all_some, isCode_iff]
    constructor
    case mp =>
      rintro ⟨depth, h⟩
      exact exists_outside hstart (by simp) h
    case mpr =>
      rintro ⟨depth, h⟩
      exact ⟨depth, (h.isOutside hstart).resolve_left (by simp)⟩

def IsPlace (source : Text) (offset : Nat) : Prop :=
  ∃ before rest depth, source = before ++ rest ∧ before.size = offset ∧
    Outside 0 source before rest depth

theorem isPlace_iff {s t : Text} : IsPlace (s ++ t) s.size ↔ isCodeAt (s ++ t) s.size := by
  rw [isCodeAt_iff_outside]
  constructor
  case mp =>
    rintro ⟨before, rest, depth, he, hs, ho⟩
    obtain ⟨rfl, rfl⟩ := Text.append_inj_of_size he hs.symm
    exact ⟨depth, ho⟩
  case mpr =>
    rintro ⟨depth, ho⟩
    exact ⟨s, t, depth, rfl, rfl, ho⟩

end Componentry.Code
