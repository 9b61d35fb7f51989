import Componentry.Proofs.Static.Precedence

/-!
Texts with balanced brackets and quotes. The top level of two such texts, one after the other, is
that of the first and then that of the second, and a text that is cut at its top level is balanced
on both sides of the cut.
-/
namespace Componentry.Static

open Code

inductive IsContent (quote : Char) : Text → Prop
  | nil : IsContent quote []
  | escaped {c : Char} {t : Text} (h : IsContent quote t) : IsContent quote ('\\' :: c :: t)
  | plain {c : Char} {t : Text} (hq : c ≠ quote) (hb : c ≠ '\\') (h : IsContent quote t) :
    IsContent quote (c :: t)

inductive IsPair : Char → Char → Prop
  | round : IsPair '(' ')'
  | square : IsPair '[' ']'
  | curly : IsPair '{' '}'

-- Brackets and strings are closed in the text. The content of each string has the given property.
inductive Balanced (inside : Text → Prop) : Text → Prop
  | nil : Balanced inside []
  | bare {c : Char} {t : Text} (hc : isBare c) (ht : Balanced inside t) : Balanced inside (c :: t)
  | string {q : Char} {content t : Text} (hq : isQuote q) (hc : IsContent q content)
    (hi : inside content) (ht : Balanced inside t) : Balanced inside (q :: (content ++ q :: t))
  | group {o c : Char} {t u : Text} (hp : IsPair o c) (ht : Balanced inside t)
    (hu : Balanced inside u) : Balanced inside (o :: (t ++ c :: u))

namespace Place

def extend (t : Text) (p : Place) : Place :=
  ⟨p.before, p.after ++ t⟩

def behind (s : Text) (p : Place) : Place :=
  ⟨p.before ++ s.reverse, p.after⟩

@[simp]
theorem behind_nil : behind [] = id := by
  funext p
  simp [behind]

@[simp]
theorem behind_behind (s t : Text) (p : Place) : (p.behind s).behind t = p.behind (t ++ s) := by
  simp [behind]

theorem behind_extend (s t : Text) (p : Place) : (p.extend t).behind s = (p.behind s).extend t :=
  rfl

@[simp]
theorem after_behind (s : Text) (p : Place) : (p.behind s).after = p.after :=
  rfl

@[simp]
theorem before_extend (t : Text) (p : Place) : (p.extend t).before = p.before :=
  rfl

@[simp]
theorem reverse_before_behind (s : Text) (p : Place) :
    (p.behind s).before.reverse = s ++ p.before.reverse := by
  simp [behind]

end Place

theorem head?_after_extend {s : Text} {p : Place} (hp : p ∈ places s) (t : Text) :
    (p.extend t).after.head? = p.after.head? := by
  obtain ⟨c, u, hu⟩ := List.exists_cons_of_ne_nil (after_ne_nil hp)
  simp [Place.extend, hu]

section Brackets

variable {o c : Char}

theorem go_opener (h : isOpener c) (depth : Nat) (before t : Text) :
    places.go depth none before (c :: t) = places.go (depth + 1 : Nat) none (c :: before) t := by
  rw [places.go]
  simp [h]

theorem go_closer (h : isCloser c) (hn : isOpener c = false) (depth : Nat) (before t : Text) :
    places.go (depth + 1 : Nat) none before (c :: t) = places.go depth none (c :: before) t := by
  rw [places.go]
  simp [h, hn]

theorem go_quote {q : Char} (h : isQuote q) (depth : Nat) (before t : Text) :
    places.go depth none before (q :: t) = places.go depth (some q) (q :: before) t := by
  simp only [isQuote, Bool.or_eq_true, decide_eq_true_eq] at h
  rw [places.go]
  rcases h with (rfl | rfl) | rfl <;> simp [isOpener, isCloser, isQuote]

theorem IsContent.go_eq {q : Char} {content : Text} (h : IsContent q content) (hq : isQuote q)
    (depth : Nat) (before t : Text) : places.go depth (some q) before (content ++ q :: t) =
      places.go depth none (q :: (content.reverse ++ before)) t := by
  have hb : q ≠ '\\' := by
    rintro rfl
    simp [isQuote] at hq
  induction h generalizing before
  case nil =>
    rw [List.nil_append, places.go.eq_def]
    simp [hb]
  case escaped ih =>
    rw [List.cons_append, List.cons_append, places.go.eq_def]
    simp [ih]
  case plain hcq hcb _ ih =>
    rw [List.cons_append, places.go.eq_def]
    simp [hcq, hcb, ih]

theorem IsPair.isOpener (h : IsPair o c) : isOpener o := by
  cases h <;> rfl

theorem IsPair.isCloser (h : IsPair o c) : isCloser c := by
  cases h <;> rfl

theorem IsPair.closer_not_opener (h : IsPair o c) : Code.isOpener c = false := by
  cases h <;> rfl

end Brackets

-- What stands in front changes nothing but what is before each place.
theorem go_behind (depth : Int) (quote : Option Char) (before s t : Text) :
    places.go depth quote (before ++ s.reverse) t =
      (places.go depth quote before t).map (Place.behind s) := by
  fun_induction places.go depth quote before t
  case case4 ih =>
    rw [places.go.eq_def]
    simp_all
  all_goals simp_all [places.go, Place.behind]

theorem go_top_behind (s t : Text) : places.go 0 none s.reverse t =
    (places t).map (Place.behind s) :=
  go_behind 0 none [] s t

theorem places_bare {c : Char} (h : isBare c) (t : Text) :
    places (c :: t) = ⟨[], c :: t⟩ :: (places t).map (Place.behind [c]) := by
  rw [places, Level.go_top h, ← go_top_behind [c] t]
  rfl

namespace Balanced

variable {inside : Text → Prop} {s t u : Text}

-- In brackets a text has no places, and a group or a string is passed over as a whole.
theorem go_nested (h : Balanced inside s) (depth : Nat) (before t : Text) :
    places.go (depth + 1 : Nat) none before (s ++ t) =
      places.go (depth + 1 : Nat) none (s.reverse ++ before) t := by
  induction h generalizing depth before t
  case nil => rfl
  case bare hc _ ih =>
    rw [List.cons_append, Level.go_bare hc, if_neg (Nat.succ_ne_zero depth), List.nil_append, ih]
    simp
  case string hq hc _ _ ih =>
    rw [List.cons_append, go_quote hq, List.append_assoc, List.cons_append, hc.go_eq hq, ih]
    simp
  case group hp _ _ iht ihu =>
    rw [List.cons_append, go_opener hp.isOpener, List.append_assoc, List.cons_append, iht,
      go_closer hp.isCloser hp.closer_not_opener, ihu]
    simp

theorem go_group {o c : Char} (h : Balanced inside s) (hp : IsPair o c) (before t : Text) :
    places.go 0 none before (o :: (s ++ c :: t)) =
      places.go 0 none (c :: (s.reverse ++ o :: before)) t := by
  have hopen := go_opener hp.isOpener 0 before (s ++ c :: t)
  have hclose := go_closer hp.isCloser hp.closer_not_opener 0 (s.reverse ++ o :: before) t
  exact hopen.trans ((h.go_nested 0 (o :: before) (c :: t)).trans hclose)

theorem go_string {q : Char} {content : Text} (h : IsContent q content) (hq : isQuote q)
    (before t : Text) : places.go 0 none before (q :: (content ++ q :: t)) =
      places.go 0 none (q :: (content.reverse ++ q :: before)) t :=
  (go_quote hq 0 before (content ++ q :: t)).trans (h.go_eq hq 0 (q :: before) t)

theorem places_group {o c : Char} (h : Balanced inside s) (hp : IsPair o c) (t : Text) :
    places (o :: (s ++ c :: t)) = (places t).map (Place.behind (o :: (s ++ [c]))) := by
  rw [places, h.go_group hp, ← go_top_behind]
  simp

theorem places_string {q : Char} {content : Text} (h : IsContent q content) (hq : isQuote q)
    (t : Text) :
    places (q :: (content ++ q :: t)) = (places t).map (Place.behind (q :: (content ++ [q]))) := by
  rw [places, go_string h hq, ← go_top_behind]
  simp

theorem places_append (h : Balanced inside s) (t : Text) :
    places (s ++ t) = (places s).map (Place.extend t) ++ (places t).map (Place.behind s) := by
  induction h
  case nil => simp [places, places.go]
  case bare c s hc _ ih =>
    rw [List.cons_append, places_bare hc, places_bare hc, ih]
    simp only [List.map_cons, List.map_append, List.map_map, Function.comp_def, Place.behind_extend,
      Place.behind_behind, List.cons_append]
    rfl
  case string q content s hq hc _ _ ih =>
    have hs : q :: (content ++ q :: s) ++ t = q :: (content ++ q :: (s ++ t)) := by simp
    rw [hs, places_string hc hq, places_string hc hq, ih]
    simp [Function.comp_def, Place.behind_extend]
  case group o c s r hp hs _ _ ih =>
    have hr : o :: (s ++ c :: r) ++ t = o :: (s ++ c :: (r ++ t)) := by simp
    rw [hr, hs.places_group hp, hs.places_group hp, ih]
    simp [Function.comp_def, Place.behind_extend]

theorem places_append_cons {c : Char} (h : Balanced inside s) (hc : isBare c) (t : Text) :
    places (s ++ c :: t) = (places s).map (Place.extend (c :: t)) ++
      ⟨s.reverse, c :: t⟩ :: (places t).map (Place.behind (s ++ [c])) := by
  rw [h.places_append, places_bare hc, List.map_cons, List.map_map]
  congr 2
  exact List.map_congr_left fun p _ => Place.behind_behind [c] s p

theorem append (hs : Balanced inside s) (ht : Balanced inside t) : Balanced inside (s ++ t) := by
  induction hs
  case nil => exact ht
  case bare hc _ ih => exact .bare hc ih
  case string hq hc hi _ ih => simpa using Balanced.string hq hc hi ih
  case group hp hi _ _ ih => simpa using Balanced.group hp hi ih

theorem weaken {other : Text → Prop} (h : Balanced inside t) (ho : ∀ u, inside u → other u) :
    Balanced other t := by
  induction h
  case nil => exact .nil
  case bare hc _ ih => exact .bare hc ih
  case string hq hc hi _ ih => exact .string hq hc (ho _ hi) ih
  case group hp _ _ iht ihu => exact .group hp iht ihu

theorem of_bare (h : ∀ c ∈ t, isBare c) : Balanced inside t := by
  induction t
  case nil => exact .nil
  case cons c t ih =>
    obtain ⟨hc, ht⟩ := List.forall_mem_cons.mp h
    exact .bare hc (ih ht)

theorem of_mem_places {p : Place} (h : Balanced inside t) (hp : p ∈ places t) :
    Balanced inside p.before.reverse ∧ Balanced inside p.after := by
  induction h generalizing p
  case nil => simp [places, places.go] at hp
  case bare c t hc ht ih =>
    rw [places_bare hc, List.mem_cons, List.mem_map] at hp
    rcases hp with rfl | ⟨p, hp, rfl⟩
    case inl => exact ⟨.nil, .bare hc ht⟩
    case inr =>
      obtain ⟨hb, ha⟩ := ih hp
      exact ⟨by simpa using Balanced.bare hc hb, ha⟩
  case string q content t hq hc hi _ ih =>
    rw [places_string hc hq, List.mem_map] at hp
    obtain ⟨p, hp, rfl⟩ := hp
    obtain ⟨hb, ha⟩ := ih hp
    exact ⟨by simpa using Balanced.string hq hc hi hb, ha⟩
  case group o c s t hpair hs _ _ ih =>
    rw [hs.places_group hpair, List.mem_map] at hp
    obtain ⟨p, hp, rfl⟩ := hp
    obtain ⟨hb, ha⟩ := ih hp
    exact ⟨by simpa using Balanced.group hpair hs hb, ha⟩

theorem of_cons {c : Char} (h : Balanced inside (c :: t)) (hc : isBare c) : Balanced inside t := by
  cases h with
  | bare _ ht => exact ht
  | string hq => simp [isBare, hq] at hc
  | group hp => simp [isBare, hp.isOpener] at hc

theorem of_append_right (h : Balanced inside (s ++ t)) (hs : ∀ c ∈ s, isBare c) :
    Balanced inside t := by
  induction s
  case nil => exact h
  case cons c s ih =>
    obtain ⟨hc, hs⟩ := List.forall_mem_cons.mp hs
    exact ih (h.of_cons hc) hs

theorem of_append_left (h : Balanced inside (t ++ u)) (hu : ∀ c ∈ u, isBare c) :
    Balanced inside t := by
  -- The end of a string or a group cannot be in `u`.
  have hend {v w x : Text} {c : Char} (he : v ++ u = w ++ c :: x) (hc : isBare c = false) :
      ∃ y, v = w ++ c :: y ∧ y ++ u = x := by
    rcases List.append_eq_append_iff.mp he with ⟨y, rfl, hy⟩ | ⟨y, rfl, hy⟩
    case inl =>
      have := hu c (by simp [hy])
      simp [hc] at this
    case inr =>
      cases y
      case nil =>
        rw [List.nil_append] at hy
        have := hu c (by simp [← hy])
        simp [hc] at this
      case cons d y =>
        obtain ⟨rfl, rfl⟩ := List.cons.inj hy
        exact ⟨y, rfl, rfl⟩
  generalize hw : t ++ u = w at h
  induction h generalizing t
  case nil => simp_all [Balanced.nil]
  case bare c w hc _ ih =>
    cases t
    case nil => exact .nil
    case cons d t =>
      rw [List.cons_append, List.cons.injEq] at hw
      obtain ⟨rfl, hw⟩ := hw
      exact .bare hc (ih hw)
  case string q content w hq hc hi _ ih =>
    cases t
    case nil => exact .nil
    case cons d t =>
      rw [List.cons_append, List.cons.injEq] at hw
      obtain ⟨rfl, hw⟩ := hw
      obtain ⟨y, rfl, hy⟩ := hend hw (by simp [isBare, hq])
      exact .string hq hc hi (ih hy)
  case group o c s w hp hs _ _ ih =>
    cases t
    case nil => exact .nil
    case cons d t =>
      rw [List.cons_append, List.cons.injEq] at hw
      obtain ⟨rfl, hw⟩ := hw
      obtain ⟨y, rfl, hy⟩ := hend hw (by simp [isBare, hp.isCloser])
      exact .group hp hs (ih hy)

theorem isEven (h : Balanced IsEven t) : IsEven t := by
  have hsingle {c : Char} (ho : c ≠ '(') (hc : c ≠ ')') : IsEven [c] :=
    .of_not_mem (by simpa using ho.symm) (by simpa using hc.symm)
  induction h
  case nil => exact .of_not_mem (by simp) (by simp)
  case bare c t hc _ ih =>
    have heven : IsEven [c] := by
      apply hsingle
      all_goals
        rintro rfl
        cases hc
    exact heven.append ih
  case string q content t hq _ hi _ ih =>
    have heven : IsEven [q] := by
      apply hsingle
      all_goals
        rintro rfl
        cases hq
    simpa using heven.append (hi.append (heven.append ih))
  case group o c t u hp _ _ iht ihu =>
    cases hp
    case round => simpa using iht.parenthesized.append ihu
    case square =>
      have hopen : IsEven ['['] := hsingle (by decide) (by decide)
      have hclose : IsEven [']'] := hsingle (by decide) (by decide)
      exact hopen.append (iht.append (hclose.append ihu))
    case curly =>
      have hopen : IsEven ['{'] := hsingle (by decide) (by decide)
      have hclose : IsEven ['}'] := hsingle (by decide) (by decide)
      exact hopen.append (iht.append (hclose.append ihu))

-- A text that goes on after a balanced one is not in parentheses as a whole.
theorem parenthesized?_append (h : Balanced IsEven s) (hu : u ≠ []) (hn : u.head? ≠ some '(') :
    parenthesized? (s ++ u) = none := by
  have hother {c : Char} {v : Text} (hc : c ≠ '(') : parenthesized? (c :: v ++ u) = none :=
    parenthesized?_eq_none hc
  cases h with
  | nil =>
    obtain ⟨c, v, rfl⟩ := List.exists_cons_of_ne_nil hu
    exact parenthesized?_eq_none (by simpa using hn)
  | bare hc =>
    refine hother ?_
    rintro rfl
    cases hc
  | string hq =>
    refine hother ?_
    rintro rfl
    cases hq
  | group hp ht =>
    cases hp with
    | round => simpa using parenthesized?_group ht.isEven (by simp [hu])
    | square => exact hother (by decide)
    | curly => exact hother (by decide)

theorem places_of_parenthesized? {inner : Text} (h : Balanced IsEven t)
    (hp : parenthesized? t = some inner) : places t = [] := by
  have hother {c : Char} {u : Text} (hc : c ≠ '(') (hp : parenthesized? (c :: u) = some inner) :
      places (c :: u) = [] := by
    rw [parenthesized?_eq_none hc] at hp
    cases hp
  cases h with
  | nil => rfl
  | bare hc =>
    refine hother ?_ hp
    rintro rfl
    cases hc
  | string hq =>
    refine hother ?_ hp
    rintro rfl
    cases hq
  | @group _ _ s u hpair hs =>
    cases hpair with
    | round =>
      by_cases hu : u = []
      case pos => rw [hu, hs.places_group .round]; rfl
      case neg =>
        rw [parenthesized?_group hs.isEven hu] at hp
        cases hp
    | square => exact hother (by decide) hp
    | curly => exact hother (by decide) hp

end Balanced

-- A balanced text with none of some characters at its top level.
structure Part (inside : Text → Prop) (absent : List Char) (t : Text) : Prop where
  balanced : Balanced inside t
  lacks : ∀ p ∈ places t, ∀ c ∈ absent, p.after.head? ≠ some c

theorem isBare_of_isBlank {c : Char} (h : isBlank c) : isBare c := by
  have hall : blanks.all isBare := by decide
  exact List.all_eq_true.mp hall c (mem_blanks h)

namespace Part

variable {inside other : Text → Prop} {absent : List Char} {s t u : Text} {c : Char}

theorem append_iff (hs : Balanced inside s) (ht : Balanced inside t) :
    Part inside absent (s ++ t) ↔ Part inside absent s ∧ Part inside absent t := by
  have hlacks : (∀ p ∈ places (s ++ t), ∀ c ∈ absent, p.after.head? ≠ some c) ↔
      (∀ p ∈ places s, ∀ c ∈ absent, p.after.head? ≠ some c) ∧
        ∀ p ∈ places t, ∀ c ∈ absent, p.after.head? ≠ some c := by
    rw [hs.places_append, List.forall_mem_append, List.forall_mem_map, List.forall_mem_map]
    refine and_congr (forall₂_congr fun p hp => ?_) Iff.rfl
    rw [head?_after_extend hp]
  constructor
  · intro h
    obtain ⟨hl, hr⟩ := hlacks.mp h.lacks
    exact ⟨⟨hs, hl⟩, ⟨ht, hr⟩⟩
  · rintro ⟨hl, hr⟩
    exact ⟨hs.append ht, hlacks.mpr ⟨hl.lacks, hr.lacks⟩⟩

theorem append (hs : Part inside absent s) (ht : Part inside absent t) :
    Part inside absent (s ++ t) :=
  (append_iff hs.balanced ht.balanced).mpr ⟨hs, ht⟩

theorem of_bare (ht : ∀ c ∈ t, isBare c) (hn : ∀ c ∈ absent, c ∉ t) : Part inside absent t := by
  refine ⟨.of_bare ht, fun p hp c hc hh => hn c hc ?_⟩
  rw [← before_append_after hp]
  exact List.mem_append_right _ (List.mem_of_head? hh)

theorem mono {fewer : List Char} (h : Part inside absent t) (hf : ∀ c ∈ fewer, c ∈ absent) :
    Part inside fewer t :=
  ⟨h.balanced, fun p hp c hc => h.lacks p hp c (hf c hc)⟩

theorem weaken (h : Part inside absent t) : Part (fun _ => True) absent t :=
  ⟨h.balanced.weaken fun _ _ => trivial, h.lacks⟩

theorem of_mem_places {p : Place} (h : Part inside absent t) (hp : p ∈ places t) :
    Part inside absent p.before.reverse ∧ Part inside absent p.after := by
  obtain ⟨hb, ha⟩ := h.balanced.of_mem_places hp
  rw [← before_append_after hp] at h
  exact (append_iff hb ha).mp h

theorem of_append_right (h : Part inside absent (s ++ t)) (hs : ∀ c ∈ s, isBare c) :
    Part inside absent t :=
  ((append_iff (.of_bare hs) (h.balanced.of_append_right hs)).mp h).right

theorem of_append_left (h : Part inside absent (t ++ u)) (hu : ∀ c ∈ u, isBare c) :
    Part inside absent t :=
  ((append_iff (h.balanced.of_append_left hu) (.of_bare hu)).mp h).left

theorem trimStart (h : Part inside absent t) : Part inside absent t.trimStart := by
  obtain ⟨s, hs, hb⟩ := Text.exists_dropWhile isBlank t
  rw [hs] at h
  exact h.of_append_right fun c hc => isBare_of_isBlank (hb c hc)

theorem trimEnd (h : Part inside absent t) : Part inside absent t.trimEnd := by
  obtain ⟨s, hs, hb⟩ := t.exists_trimEnd
  rw [hs] at h
  exact h.of_append_left fun c hc => isBare_of_isBlank (hb c hc)

theorem head?_ne (h : Part inside absent t) (hc : c ∈ absent) (hb : isBare c) :
    t.head? ≠ some c := by
  intro hh
  obtain ⟨u, rfl⟩ := List.head?_eq_some_iff.mp hh
  exact h.lacks ⟨[], c :: u⟩ (by simp [places_bare hb]) c hc rfl

theorem getLast?_ne (h : Part inside absent t) (hc : c ∈ absent) (hb : isBare c) :
    t.getLast? ≠ some c := by
  intro hl
  obtain ⟨u, rfl⟩ := List.getLast?_eq_some_iff.mp hl
  have hbare : ∀ d ∈ [c], isBare d := by simpa using hb
  have hlast := ((append_iff (h.balanced.of_append_left hbare) (.of_bare hbare)).mp h).right
  exact hlast.head?_ne hc hb rfl

theorem statement_eq (h : Part inside absent t) (hc : ';' ∈ absent) : statement t = t.trim := by
  have hlast : t.trim.getLast? ≠ some ';' := h.trimStart.trimEnd.getLast?_ne hc rfl
  obtain ⟨s, hs, hb⟩ := Text.exists_dropWhile isBlank t.trimStart.reverse
  have htrim : t.trimStart.reverse = s ++ t.trim.reverse := by
    rw [Text.trim, Text.trimEnd, List.reverse_reverse]
    exact hs
  have hstop : t.trim.reverse.head?.any (fun c => isBlank c || decide (c = ';')) = false := by
    have hblank := t.getLast?_trim
    rw [List.head?_reverse]
    cases hd : t.trim.getLast?
    case none => rfl
    case some d =>
      rw [hd] at hblank hlast
      rw [Option.any_some, Bool.or_eq_false_iff, decide_eq_false_iff_not]
      exact ⟨hblank, fun he => hlast (he ▸ rfl)⟩
  rw [statement, htrim, Text.dropWhile_append_run (fun c hc => by simp [hb c hc]) hstop,
    List.reverse_reverse]

end Part

theorem Part.ternary?_eq_none {inside : Text → Prop} {absent : List Char} {t : Text}
    (h : Part inside absent t) (hm : '?' ∈ absent ∨ ':' ∈ absent) :
    ternary? t = none := by
  unfold ternary?
  split
  case h_1 => rfl
  case h_2 question later hs =>
    have hsub : ∀ p ∈ question :: later, p ∈ places t :=
      fun p hp => (List.dropWhile_sublist _).subset (hs ▸ hp)
    rcases hm with hm | hm
    case inl =>
      have hq := List.head?_dropWhile_not (fun p => !ternary?.isQuestion p) (places t)
      have hn := h.lacks question (hsub question List.mem_cons_self) '?' hm
      rw [hs] at hq
      simp [ternary?.isQuestion, hn] at hq
    case inr =>
      rw [Option.map_eq_none_iff, List.find?_eq_none]
      intro p hp
      simpa using h.lacks p (hsub p (List.mem_cons_of_mem _ hp)) ':' hm

end Componentry.Static
