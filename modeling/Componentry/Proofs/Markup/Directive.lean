import Componentry.Markup.Event
import Componentry.Proofs.Code.Locality
import Componentry.Proofs.Text.Runs

/-!
How far directives depend on what follows: an `@if` is recognised by the text up to its parenthesis,
and the brace that closes a group of markup by the text up to that brace.
-/
namespace Componentry.Markup

open Code

theorem not_isPart_of_isSpace {c : Char} (h : isSpace c) : Identifier.isPart c = false := by
  simp only [isSpace, Bool.or_eq_true, decide_eq_true_eq] at h
  rcases h with (((rfl | rfl) | rfl) | rfl) | rfl <;> rfl

theorem continues_space_append {space t : Text} (hs : ∀ c ∈ space, isSpace c) {d : Char}
    (hd : Identifier.isPart d = false) : Identifier.continues (space ++ d :: t) = false := by
  cases space
  case nil => exact hd
  case cons c space => exact not_isPart_of_isSpace (hs c (by simp))

theorem condition?_eq_some_iff {t paren : Text} :
    condition? t = some paren ↔ ∃ space rest, t = '@' :: 'i' :: 'f' :: (space ++ '(' :: rest) ∧
      (∀ c ∈ space, isSpace c) ∧ paren = '(' :: rest := by
  constructor
  case mp =>
    intro h
    unfold condition? at h
    split at h
    case h_2 => simp at h
    case h_1 t =>
      split at h
      case isTrue => simp at h
      case isFalse =>
        split at h
        case h_2 => simp at h
        case h_1 rest hs =>
          have ⟨space, ht, hspace⟩ := Text.exists_skipSpace t
          cases h
          exact ⟨space, rest, by rw [← hs, ← ht], hspace, rfl⟩
  case mpr =>
    intro ⟨space, rest, ht, hs, hp⟩
    have hc : Identifier.continues (space ++ '(' :: rest) = false := continues_space_append hs rfl
    have hskip : Text.skipSpace (space ++ '(' :: rest) = '(' :: rest := Text.skipSpace_append hs rfl
    rw [ht, condition?, hc, hskip, hp]
    rfl

-- If a directive cannot start in `s` and go on in `u`, then `s` alone shows whether one starts.
theorem condition?_append {s u : Text} (h : ∀ space d cut rest, (∀ c ∈ space, isSpace c) →
      '@' :: 'i' :: 'f' :: (space ++ ['(']) = s ++ d :: cut → u ≠ d :: cut ++ rest) :
    condition? (s ++ u) = (condition? s).map (· ++ u) := by
  apply Option.ext
  intro paren
  rw [Option.map_eq_some_iff, condition?_eq_some_iff]
  constructor
  case mp =>
    intro ⟨space, rest, he, hs, hp⟩
    have he' : s ++ u = '@' :: 'i' :: 'f' :: (space ++ ['(']) ++ rest := by simp [he]
    have ⟨more, hmore, hrest⟩ : ∃ more, s = '@' :: 'i' :: 'f' :: (space ++ ['(']) ++ more ∧
        rest = more ++ u := by
      rcases List.append_eq_append_iff.mp he' with ⟨cut, hcut, hu⟩ | ⟨more, hmore, hrest⟩
      case inr => exact ⟨more, hmore, hrest⟩
      case inl =>
        cases cut
        case nil => exact ⟨[], by simpa using hcut.symm, by simpa using hu.symm⟩
        case cons d cut => exact absurd hu (h space d cut rest hs hcut)
    refine ⟨'(' :: more, condition?_eq_some_iff.mpr ⟨space, more, by simp [hmore], hs, rfl⟩, ?_⟩
    simp [hp, hrest]
  case mpr =>
    intro ⟨paren', hp', hp⟩
    have ⟨space, rest, he, hs, hpr⟩ := condition?_eq_some_iff.mp hp'
    exact ⟨space, rest ++ u, by simp [he], hs, by simp [← hp, hpr]⟩

theorem condition?_append_of_parenthesis {s : Text} (h : s.getLast? = some ')') (u : Text) :
    condition? (s ++ u) = (condition? s).map (· ++ u) := by
  apply condition?_append
  intro space d cut rest hs he
  have hmem : ')' ∈ '@' :: 'i' :: 'f' :: (space ++ ['(']) :=
    he ▸ List.mem_append_left (d :: cut) (List.mem_of_getLast? h)
  have hspace : ')' ∉ space := fun hm => absurd (hs _ hm) (by decide)
  simp [hspace] at hmem

section Close

variable {accept : Text → Bool} {depth : Nat} {c : Char} {t : Text}

theorem close?_cons : close? accept depth (c :: t) =
    match condition? (c :: t) with
    | some paren => (group? paren).bind fun p => close? accept depth p.2
    | none =>
      if c = '{' then close? accept (depth + 1) t
      else if c = '}' then
        if depth = 0 && accept (c :: t) then some (c :: t) else close? accept (depth - 1) t
      else close? accept depth t := by
  rw [close?]
  split
  case h_1 paren hp =>
    simp only [hp]
    split <;> simp_all
  case h_2 hp => simp only [hp]

theorem condition?_eq_none (hc : c ≠ '@') : condition? (c :: t) = none := by
  rw [Option.eq_none_iff_forall_ne_some]
  intro paren h
  have ⟨_, _, he, _⟩ := condition?_eq_some_iff.mp h
  exact hc (List.cons.inj he).left

theorem close?_append_plain {s : Text} (hs : ∀ c ∈ s, isPlain c) :
    close? accept depth (s ++ t) = close? accept depth t := by
  induction s
  case nil => rfl
  case cons c s ih =>
    have ⟨hc, hs⟩ := List.forall_mem_cons.mp hs
    simp only [isPlain, Bool.and_eq_true, decide_eq_true_eq] at hc
    have ⟨⟨hat, hopen⟩, hclose⟩ := hc
    rw [List.cons_append, close?_cons, condition?_eq_none hat]
    simp [hopen, hclose, ih hs]

theorem close?_brace (h : accept ('}' :: t)) : close? accept 0 ('}' :: t) = some ('}' :: t) := by
  rw [close?_cons, condition?_eq_none (by decide)]
  simp [h]

theorem exists_brace {rest : Text} (h : close? accept depth t = some rest) :
    ∃ u, rest = '}' :: u := by
  fun_induction close? accept depth t
  case case1 => simp at h
  case case2 ih => exact ih h
  case case3 => simp at h
  case case4 ih => exact ih h
  case case5 =>
    cases h
    exact ⟨_, rfl⟩
  case case6 ih => exact ih h
  case case7 ih => exact ih h

theorem close?_accepts {brace : Text} (h : close? accept depth t = some brace) :
    accept brace ∧ brace <:+ t := by
  fun_induction close? accept depth t
  case case1 => simp at h
  case case2 paren hp _ _ hg ih =>
    obtain ⟨ha, hs⟩ := ih h
    obtain ⟨taken, ht, _⟩ := group?_inside hg
    obtain ⟨space, rest, he, _, rfl⟩ := condition?_eq_some_iff.mp hp
    have hparen : '(' :: rest <:+ '@' :: 'i' :: 'f' :: (space ++ '(' :: rest) :=
      ⟨'@' :: 'i' :: 'f' :: space, rfl⟩
    exact ⟨ha, he ▸ hs.trans (.trans ⟨taken, ht.symm⟩ hparen)⟩
  case case3 => simp at h
  case case4 ih => exact ⟨(ih h).left, (ih h).right.trans (List.suffix_cons _ _)⟩
  case case5 ha =>
    cases h
    simp only [Bool.and_eq_true] at ha
    exact ⟨ha.right, List.suffix_refl _⟩
  case case6 ih => exact ⟨(ih h).left, (ih h).right.trans (List.suffix_cons _ _)⟩
  case case7 ih => exact ⟨(ih h).left, (ih h).right.trans (List.suffix_cons _ _)⟩

end Close

-- Where the brace after `s` is the first that closes the group, it still is after more text without
-- directives and braces. No brace within `s` was offered, so that only the last has to be accepted.
theorem close?_append {accept : Text → Bool} {plain after s : Text} {depth : Nat}
    (hp : ∀ c ∈ plain, isPlain c) (ha : accept ('}' :: after)) (hs : ∀ c ∈ s.getLast?, c = ')')
    (h : close? (fun _ => true) depth (s ++ ['}']) = some ['}']) :
    close? accept depth (s ++ (plain ++ '}' :: after)) = some ('}' :: after) := by
  induction hn : s.length using Nat.strongRecOn generalizing s depth
  case ind n ih =>
  have hlast {before t : Text} (he : s = before ++ t) : ∀ c ∈ t.getLast?, c = ')' := by
    intro c hc
    apply hs
    rw [he, List.getLast?_append, Option.mem_def.mp hc]
    rfl
  cases s
  case nil =>
    have hd : depth = 0 := by
      apply Classical.byContradiction
      intro hd
      rw [List.nil_append, close?_cons, condition?_eq_none (by decide)] at h
      simp [hd, close?] at h
    rw [hd, List.nil_append, close?_append_plain hp]
    exact close?_brace ha
  case cons c s =>
    have hpar : (c :: s).getLast? = some ')' := by
      have hget := List.getLast?_eq_some_getLast (List.cons_ne_nil c s)
      rw [hget, hs _ hget]
    rw [List.cons_append, close?_cons, ← List.cons_append, condition?_append_of_parenthesis hpar]
      at h ⊢
    cases hc : condition? (c :: s)
    case none =>
      simp only [hc, Option.map_none] at h ⊢
      have hrest : ∀ c ∈ s.getLast?, c = ')' := hlast (List.singleton_append).symm
      have ih {depth : Nat} := @ih s.length (by simp [← hn]) s depth hrest
      by_cases hopen : c = '{'
      case pos =>
        rw [if_pos hopen] at h ⊢
        exact ih h rfl
      case neg =>
        rw [if_neg hopen] at h ⊢
        by_cases hclose : c = '}'
        case pos =>
          have hd : depth ≠ 0 := by
            intro hd
            simp [hclose, hd] at h
          simp only [if_pos hclose, hd, decide_false, Bool.false_and, Bool.false_eq_true,
            if_false] at h ⊢
          exact ih h rfl
        case neg =>
          rw [if_neg hclose] at h ⊢
          exact ih h rfl
    case some paren =>
      simp only [hc, Option.map_some] at h ⊢
      obtain ⟨⟨inside, rest⟩, hg, hclose⟩ := Option.bind_eq_some_iff.mp h
      have hne : rest ≠ [] := by
        intro hr
        simp [hr, close?] at hclose
      obtain ⟨group, more, hmore, hrest, hgroup⟩ := group?_concat hg hne
      obtain ⟨space, inner, hcs, _, hparen⟩ := condition?_eq_some_iff.mp hc
      have hsuffix : c :: s = '@' :: 'i' :: 'f' :: space ++ group ++ more := by
        rw [List.append_assoc, ← hmore, hparen]
        exact hcs
      have hlen := length_condition?_lt hc
      rw [hmore, List.length_append] at hlen
      rw [hmore, List.append_assoc, hgroup]
      exact ih more.length (by omega) (hlast hsuffix) (hrest ▸ hclose) rfl

end Componentry.Markup
