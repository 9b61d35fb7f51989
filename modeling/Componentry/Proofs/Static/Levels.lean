import Componentry.Proofs.Text.Runs
import Componentry.Static.Eval

/-!
Texts of one level. Such a text closes all brackets and strings it opens, and where it is outside of
them there is no operator that binds less tightly than the level. What is before and after it does
not change where an expression is cut in it.
-/
namespace Componentry.Static

open Code

-- What stands at the start of operators, each with the first level at which there is none outside
-- brackets.
def marks : List (Nat × Text) :=
  [(0, ['+']), (1, ['?']), (1, [':']), (2, ['|', '|']), (3, ['&', '&']), (4, ['=', '=']),
    (4, ['!', '=']), (5, ['>']), (5, ['<'])]

def isAllowed (level : Nat) (t : Text) : Bool :=
  marks.all fun m => !(m.1 ≤ level && m.2.isPrefixOf t)

theorem isAllowed_mono {level lower : Nat} {t : Text} (h : isAllowed level t) (hl : lower ≤ level) :
    isAllowed lower t := by
  simp only [isAllowed, List.all_eq_true, Bool.not_eq_true', Bool.and_eq_false_iff] at h ⊢
  intro m hm
  refine (h m hm).imp_left fun hn => ?_
  simp only [decide_eq_false_iff_not] at hn ⊢
  omega

def isBare (c : Char) : Bool :=
  !isOpener c && !isCloser c && !isQuote c

-- A text that is passed over without a place in brackets, and with no place that is not allowed.
def Level (level : Nat) (t : Text) : Prop :=
  ∀ (depth : Nat) (before rest : Text), ∃ ps,
    places.go depth none before (t ++ rest) =
      ps ++ places.go depth none (t.reverse ++ before) rest ∧
    (depth ≠ 0 → ps = []) ∧ ∀ p ∈ ps, isAllowed level p.after

namespace Level

variable {level : Nat} {s t : Text} {c : Char}

theorem nil : Level level [] :=
  fun _ _ _ => ⟨[], rfl, fun _ => rfl, by simp⟩

theorem append (hs : Level level s) (ht : Level level t) : Level level (s ++ t) := by
  intro depth before rest
  have ⟨ps, hps, hd, ha⟩ := hs depth before (t ++ rest)
  have ⟨qs, hqs, hd', ha'⟩ := ht depth (s.reverse ++ before) rest
  refine ⟨ps ++ qs, ?_, fun hn => by rw [hd hn, hd' hn, List.append_nil],
    List.forall_mem_append.mpr ⟨ha, ha'⟩⟩
  rw [List.append_assoc, hps, hqs, List.reverse_append, List.append_assoc, List.append_assoc]

theorem mono {lower : Nat} (h : Level level t) (hl : lower ≤ level) : Level lower t := by
  intro depth before rest
  have ⟨ps, hps, hd, ha⟩ := h depth before rest
  exact ⟨ps, hps, hd, fun p hp => isAllowed_mono (ha p hp) hl⟩

theorem go_bare (h : isBare c) (depth : Nat) (before t : Text) :
    places.go depth none before (c :: t) =
    (if depth = 0 then [⟨before, c :: t⟩] else []) ++ places.go depth none (c :: before) t := by
  simp only [isBare, Bool.and_eq_true, Bool.not_eq_true'] at h
  have ⟨⟨hopen, hclose⟩, hquote⟩ := h
  rw [places.go]
  simp only [hopen, hclose, hquote, Bool.false_eq_true, if_false, Int.natCast_eq_zero]
  split <;> rfl

theorem go_top (h : isBare c) (before t : Text) : places.go 0 none before (c :: t) =
    ⟨before, c :: t⟩ :: places.go 0 none (c :: before) t :=
  go_bare h 0 before t

theorem cons (hc : isBare c) (ha : ∀ rest, isAllowed level (c :: (t ++ rest)))
    (ht : Level level t) :
    Level level (c :: t) := by
  intro depth before rest
  have ⟨ps, hps, hd, hall⟩ := ht depth (c :: before) rest
  refine ⟨(if depth = 0 then [⟨before, c :: (t ++ rest)⟩] else []) ++ ps, ?_, fun hn => ?_, ?_⟩
  · rw [List.cons_append, go_bare hc, hps]
    simp
  · simp [hn, hd hn]
  · refine List.forall_mem_append.mpr ⟨?_, hall⟩
    split
    case isTrue => exact List.forall_mem_singleton.mpr (ha rest)
    case isFalse => simp

theorem parenthesized {other : Nat} (h : Level other t) : Level level ('(' :: (t ++ [')'])) := by
  intro depth before rest
  have ⟨ps, hps, hd, _⟩ := h (depth + 1) ('(' :: before) (')' :: rest)
  rw [hd (Nat.succ_ne_zero depth), List.nil_append] at hps
  refine ⟨[], ?_, fun _ => rfl, by simp⟩
  have hopen : places.go depth none before ('(' :: (t ++ ')' :: rest)) =
      places.go (depth + 1 : Nat) none ('(' :: before) (t ++ ')' :: rest) := by
    rw [places.go]
    simp [isOpener]
  have hclose (b : Text) : places.go (depth + 1 : Nat) none b (')' :: rest) =
      places.go depth none (')' :: b) rest := by
    rw [places.go]
    simp [isOpener, isCloser]
  rw [List.cons_append, List.append_assoc, List.singleton_append, hopen, hps, hclose]
  simp

theorem go_quoted {content : Text} (hq : '"' ∉ content) (hb : '\\' ∉ content) (depth : Int)
    (before rest : Text) : places.go depth (some '"') before (content ++ '"' :: rest) =
      places.go depth none ('"' :: (content.reverse ++ before)) rest := by
  induction content generalizing before
  case nil =>
    rw [List.nil_append, places.go.eq_def]
    simp
  case cons c content ih =>
    obtain ⟨hcq, hq⟩ : c ≠ '"' ∧ '"' ∉ content := by simpa [eq_comm] using hq
    obtain ⟨hcb, hb⟩ : c ≠ '\\' ∧ '\\' ∉ content := by simpa [eq_comm] using hb
    rw [List.cons_append, places.go.eq_def]
    simp [hcq, hcb, ih hq hb]

theorem quoted {content : Text} (hq : '"' ∉ content) (hb : '\\' ∉ content) :
    Level level ('"' :: (content ++ ['"'])) := by
  intro depth before rest
  refine ⟨[], ?_, fun _ => rfl, by simp⟩
  have hopen : places.go depth none before ('"' :: (content ++ '"' :: rest)) =
      places.go depth (some '"') ('"' :: before) (content ++ '"' :: rest) := by
    rw [places.go]
    simp [isOpener, isCloser, isQuote]
  rw [List.cons_append, List.append_assoc, List.singleton_append, hopen, go_quoted hq hb]
  simp

theorem go_append (h : Level level s) (before t : Text) : ∃ ps,
    places.go 0 none before (s ++ t) = ps ++ places.go 0 none (s.reverse ++ before) t ∧
      ∀ p ∈ ps, isAllowed level p.after := by
  have ⟨ps, hps, _, ha⟩ := h 0 before t
  exact ⟨ps, hps, ha⟩

theorem isAllowed_of_mem {before : Text} {p : Place} (h : Level level t)
    (hp : p ∈ places.go 0 none before t) : isAllowed level p.after := by
  have ⟨ps, hps, ha⟩ := h.go_append before []
  rw [List.append_nil] at hps
  simp only [places.go, List.append_nil] at hps
  exact ha p (hps ▸ hp)

end Level

def IsEven (t : Text) : Prop :=
  ∀ depth rest, isBalanced depth (t ++ rest) = isBalanced depth rest

namespace IsEven

variable {s t : Text}

theorem append (hs : IsEven s) (ht : IsEven t) : IsEven (s ++ t) := by
  intro depth rest
  rw [List.append_assoc, hs, ht]

theorem of_not_mem (ho : '(' ∉ t) (hc : ')' ∉ t) : IsEven t := by
  intro depth rest
  induction t
  case nil => rfl
  case cons c t ih =>
    have ⟨hco, ho⟩ : c ≠ '(' ∧ '(' ∉ t := by simpa [eq_comm] using ho
    have ⟨hcc, hc⟩ : c ≠ ')' ∧ ')' ∉ t := by simpa [eq_comm] using hc
    rw [List.cons_append, isBalanced, if_neg hco, if_neg hcc, ih ho hc]

theorem parenthesized (h : IsEven t) : IsEven ('(' :: (t ++ [')'])) := by
  intro depth rest
  rw [List.cons_append, isBalanced, if_pos rfl, List.append_assoc, h, List.singleton_append,
    isBalanced]
  simp

end IsEven

theorem parenthesized?_eq_some {t : Text} (h : IsEven t) :
    parenthesized? ('(' :: (t ++ [')'])) = some t := by
  have hb := h 0 []
  rw [List.append_nil] at hb
  simp [parenthesized?, hb, isBalanced]

theorem parenthesized?_eq_none {c : Char} {t : Text} (h : c ≠ '(') :
    parenthesized? (c :: t) = none := by
  unfold parenthesized?
  split
  case h_1 heq => exact absurd (List.cons.inj heq).left h
  case h_2 => rfl

theorem parenthesized?_group {t u : Text} (h : IsEven t) (hu : u ≠ []) :
    parenthesized? ('(' :: (t ++ ')' :: u)) = none := by
  have hlast : (t ++ ')' :: u).dropLast = t ++ ')' :: u.dropLast := by
    rw [List.dropLast_append_of_ne_nil (by simp), List.dropLast_cons_of_ne_nil hu]
  rw [parenthesized?, hlast, h, isBalanced]
  simp

-- The text of an expression: of one level, with no blanks around it, and with a whole group at its
-- start if it starts with a parenthesis.
structure IsText (level : Nat) (t : Text) : Prop where
  level : Level level t
  isEven : IsEven t
  start : ∃ c u, t = c :: u ∧ isBlank c = false ∧ c ≠ '='
  stop : ∃ c ∈ t.getLast?, (isBlank c || c = ';') = false
  group : t.head? = some '(' → ∃ inner rest, t = '(' :: (inner ++ ')' :: rest) ∧ IsEven inner

namespace IsText

variable {level : Nat} {s t u : Text}

theorem mono {lower : Nat} (h : IsText level t) (hl : lower ≤ level) : IsText lower t :=
  ⟨h.level.mono hl, h.isEven, h.start, h.stop, h.group⟩

theorem all_isBlank (h : IsText level t) : t.all isBlank = false := by
  have ⟨c, u, he, hc, _⟩ := h.start
  simp [he, hc]

theorem statement_eq (h : IsText level t) (hs : s.all isBlank) (hu : u.all isBlank) :
    statement (s ++ t ++ u) = t := by
  rw [List.all_eq_true] at hs hu
  have ⟨c, v, he, hc, _⟩ := h.start
  have ⟨d, hd, hstop⟩ := h.stop
  have ⟨w, hw⟩ := List.getLast?_eq_some_iff.mp hd
  have htrim : Text.trimStart (s ++ (t ++ u)) = t ++ u :=
    Text.trimStart_append hs (by simp [he, hc])
  have hu' : ∀ c ∈ u.reverse, (isBlank c || decide (c = ';')) = true := fun c hc => by
    simp [hu c (List.mem_reverse.mp hc)]
  rw [statement, List.append_assoc, htrim, List.reverse_append, List.dropWhile_append_of_pos hu',
    hw, List.reverse_append, List.reverse_singleton, List.singleton_append,
    List.dropWhile_cons_of_neg (by simp [hstop])]
  simp

theorem parenthesized?_append (h : IsText level t) (hu : u ≠ []) :
    parenthesized? (t ++ u) = none := by
  have ⟨c, v, he, _⟩ := h.start
  by_cases hc : c = '('
  case neg => rw [he, List.cons_append, parenthesized?_eq_none hc]
  case pos =>
    have ⟨inner, rest, ht, heven⟩ := h.group (by simp [he, hc])
    rw [ht, List.cons_append, List.append_assoc, List.cons_append]
    exact parenthesized?_group heven (by simp [hu])

end IsText
end Componentry.Static
