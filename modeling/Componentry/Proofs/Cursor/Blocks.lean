import Componentry.Proofs.Cursor.Markup
import Componentry.Proofs.Markup.Reading

/-!
Where a block of markup ends. Counting braces, with the conditions of directives passed over, leads
to the brace at which reading the block stops, however deep the blocks in it are nested. If reading
gets to the end of the text in the block itself, then counting finds no brace.
-/
namespace Componentry

open Code

namespace Markup

variable {t u rest : Text} {accept : Text → Bool} {depth : Nat}

theorem close?_nil : close? accept depth [] = none := by
  rw [close?]

theorem close?_open : close? accept depth ('{' :: t) = close? accept (depth + 1) t := by
  rw [close?_cons, condition?_eq_none (by decide)]
  rfl

theorem close?_close : close? accept (depth + 1) ('}' :: t) = close? accept depth t := by
  rw [close?_cons, condition?_eq_none (by decide)]
  rfl

theorem close?_sign (h : condition? ('@' :: t) = none) :
    close? accept depth ('@' :: t) = close? accept depth t := by
  rw [close?_cons, h]
  rfl

theorem isPlain_of_isPart {c : Char} (h : Identifier.isPart c) : isPlain c := by
  have hne {d : Char} (hd : Identifier.isPart d = false) : c ≠ d := by
    rintro rfl
    simp [h] at hd
  have hat : c ≠ '@' := hne (by decide)
  have hopen : c ≠ '{' := hne (by decide)
  have hclose : c ≠ '}' := hne (by decide)
  simp [isPlain, hat, hopen, hclose]

theorem isPlain_of_isSpace {c : Char} (h : isSpace c) : isPlain c := by
  simp only [isSpace, Bool.or_eq_true, decide_eq_true_eq] at h
  rcases h with (((rfl | rfl) | rfl) | rfl) | rfl <;> rfl

theorem close?_skipSpace (t : Text) : close? accept depth t = close? accept depth t.skipSpace := by
  obtain ⟨space, ht, hspace⟩ := t.exists_skipSpace
  conv_lhs => rw [ht]
  exact close?_append_plain fun c hc => isPlain_of_isSpace (hspace c hc)

theorem close?_enter {condition inside paren : Text} {block : Block}
    (hp : condition? t = some paren)
    (he : enter paren = .ok (condition, block, inside)) :
    close? accept depth t = close? accept depth ('{' :: inside) := by
  obtain ⟨raw, rest, hg, _, hs, _, _⟩ := enter_eq_ok_iff.mp he
  obtain ⟨space, v, rfl, _, _⟩ := condition?_eq_some_iff.mp hp
  rw [close?_cons, hp]
  dsimp only
  rw [hg, Option.bind_some, close?_skipSpace, hs]

theorem close?_else (he : else? t = some rest) :
    close? accept depth t = close? accept depth rest.skipSpace := by
  obtain ⟨before, rfl, hb, _⟩ := else?_eq_some_iff.mp he
  have hword : ∀ c ∈ "else".toList, isPlain c := by simp [isPlain]
  have hsign : condition? ('@' :: ("else".toList ++ rest)) = none := rfl
  rw [close?_append_plain fun c hc => isPlain_of_isSpace (hb c hc), ← close?_skipSpace]
  exact (close?_sign hsign).trans (close?_append_plain hword)

end Markup

namespace Cursor

open Markup

-- What reading the rest of a block comes to, in terms of counting its braces: reading ends at the
-- brace to which counting leads, or both run to the end of the text, or there is a fault elsewhere.
inductive ReadsBlock (t : Text) (start depth i : Nat) (u : Text) :
    Except Error (Markup × Nat) → Prop
  | ends {m n rest} (hn : i ≤ n) (hs : t.suffix? n = some rest)
    (hc : ∀ accept outer, close? accept (outer + depth) u = close? accept outer ('}' :: rest)) :
    ReadsBlock t start depth i u (.ok (m, n))
  | runsOut (hc : ∀ accept outer, close? accept (outer + depth) u = none) :
    ReadsBlock t start depth i u (.error ⟨.unterminatedBlock, start⟩)
  | fails {e} (he : e.cause = .unterminatedBlock → i ≤ e.offset) :
    ReadsBlock t start depth i u (.error e)

-- The same of a whole conditional, which counting passes over.
inductive ReadsPast {α : Type} (t : Text) (i : Nat) (u : Text) : Except Error (α × Nat) → Prop
  | passes {a n rest} (hn : i ≤ n) (hs : t.suffix? n = some rest)
    (hc : ∀ accept depth, close? accept depth u = close? accept depth rest) :
    ReadsPast t i u (.ok (a, n))
  | fails {e} (he : e.cause = .unterminatedBlock → i ≤ e.offset) : ReadsPast t i u (.error e)

structure Counts (t : Text) (i : Nat) : Prop where
  nodes : ∀ u start depth, t.suffix? i = some u → ∃ r, nodes t (some start) depth i = done r ∧
    ReadsBlock t start depth i u r
  branches : ∀ inside, t.suffix? i = some ('{' :: inside) → ∃ r, branches t i = done r ∧
    ReadsPast t i ('{' :: inside) r
  alternate : ∀ u, t.suffix? i = some u → ∃ r, alternate t i = done r ∧ ReadsPast t i u r

theorem cause_of_enter {paren : Text} {failure : Failure} (h : enter paren = .error failure) :
    failure.cause ≠ .unterminatedBlock := by
  unfold enter at h
  split at h
  case h_1 => cases h; simp
  case h_2 =>
    split at h
    case isTrue => cases h; simp
    case isFalse =>
      split at h
      case h_1 => simp at h
      case h_2 => cases h; simp

section Steps

variable {t u rest : Text} {start depth i j d : Nat} {r : Except Error (Markup × Nat)}

theorem ReadsBlock.cons (h : ReadsBlock t start d j rest r) (hi : i ≤ j)
    (hc : ∀ accept outer, close? accept (outer + depth) u = close? accept (outer + d) rest)
    (f : Markup → Markup) : ReadsBlock t start depth i u (r.map fun p => (f p.1, p.2)) := by
  cases h
  case ends hn hs hend => exact .ends (Nat.le_trans hi hn) hs fun accept outer => by rw [hc, hend]
  case runsOut hend => exact .runsOut fun accept outer => by rw [hc, hend]
  case fails he => exact .fails fun hb => Nat.le_trans hi (he hb)

theorem counts_cons (h : Counts t j) (hs : t.suffix? j = some rest) (hi : i ≤ j)
    (hc : ∀ accept outer, close? accept (outer + depth) u = close? accept (outer + d) rest)
    {f : Markup → Markup} (hn : nodes t (some start) depth i =
      nodes t (some start) d j >>= fun p => pure (f p.1, p.2)) :
    ∃ r, nodes t (some start) depth i = done r ∧ ReadsBlock t start depth i u r := by
  obtain ⟨r, hr, hreads⟩ := h.nodes rest start d hs
  refine ⟨_, ?_, hreads.cons hi hc f⟩
  rw [hn, hr]
  cases r <;> rfl

theorem counts_close (h : ∀ j, i < j → j ≤ t.size → Counts t j)
    (hs : t.suffix? i = some ('}' :: u)) :
    ∃ r, nodes t (some start) depth i = done r ∧ ReadsBlock t start depth i ('}' :: u) r := by
  have hnext := Text.suffix?_succ (by decide) hs
  have hnodes := nodes_at_close (some start) depth hs
  cases depth
  case zero => exact ⟨_, hnodes, .ends (Nat.le_succ i) hnext fun _ _ => rfl⟩
  case succ depth =>
    exact counts_cons (h (i + 1) (by omega) (Text.lt_size_of_suffix? hs)) hnext (Nat.le_succ i)
      (fun _ _ => close?_close) hnodes

theorem counts_sign (h : ∀ j, i < j → j ≤ t.size → Counts t j) (hs : t.suffix? i = some ('@' :: u))
    (hp : condition? ('@' :: u) = none) :
    ∃ r, nodes t (some start) depth i = done r ∧ ReadsBlock t start depth i ('@' :: u) r := by
  have hi := Text.lt_size_of_suffix? hs
  obtain ⟨name, rest, hsplit⟩ : ∃ name rest, Identifier.split u = (name, rest) := ⟨_, _, rfl⟩
  obtain ⟨hafter, hnodes⟩ := nodes_at_sign (some start) depth hs hp hsplit
  by_cases hn : name = [] || isReserved name
  case pos =>
    exact counts_cons (h (i + 1) (by omega) hi) (Text.suffix?_succ (by decide) hs) (Nat.le_succ i)
      (fun _ _ => close?_sign hp) (hnodes.trans (if_pos hn))
  case neg =>
    simp only [Bool.or_eq_true, decide_eq_true_eq, not_or] at hn
    have hle := Text.add_size_of_suffix? hafter
    have hu : name ++ rest = u := by
      have := Identifier.split_append u
      rwa [hsplit] at this
    have hplain : ∀ c ∈ name, isPlain c := fun c hc =>
      isPlain_of_isPart ((Identifier.isName_split hsplit hn.left).isPart_of_mem hc)
    refine counts_cons (h _ (by omega) (by omega)) hafter (by omega) (fun accept outer => ?_)
      (hnodes.trans (if_neg (by simp [hn])))
    rw [close?_sign hp, ← hu, close?_append_plain hplain]

theorem counts_condition (h : ∀ j, i < j → j ≤ t.size → Counts t j)
    (hs : t.suffix? i = some ('@' :: u))
    {paren : Text} (hp : condition? ('@' :: u) = some paren) :
    ∃ r, nodes t (some start) depth i = done r ∧ ReadsBlock t start depth i ('@' :: u) r := by
  have hnodes := nodes_at_condition (some start) depth hs hp
  obtain ⟨v, rfl, hi, hparen⟩ := suffix?_paren hs hp
  rcases entry_eq hparen with
    ⟨failure, henter, hentry⟩ | ⟨condition, inside, brace, henter, hentry, hlt, hb⟩
  case inl =>
    rw [hentry, done_error_bind] at hnodes
    exact ⟨_, hnodes, .fails fun hc => absurd hc (cause_of_enter henter)⟩
  case inr =>
    have hsize := Text.lt_size_of_suffix? hb
    rw [hentry, done_bind] at hnodes
    dsimp only at hnodes
    rw [onward_eq ⟨by omega, by omega⟩, lift_bind] at hnodes
    obtain ⟨r, hr, hreads⟩ := (h brace (by omega) (by omega)).branches inside hb
    rw [hr] at hnodes
    cases hreads
    case fails he => exact ⟨_, hnodes, .fails fun hc => Nat.le_trans (by omega) (he hc)⟩
    case passes m n rest hn hrest hc =>
      have hle := Text.add_size_of_suffix? hrest
      rw [done_bind] at hnodes
      dsimp only at hnodes
      rw [onward_eq ⟨by omega, by omega⟩, lift_bind] at hnodes
      refine counts_cons (h n (by omega) (by omega)) hrest (by omega) (fun accept outer => ?_)
        hnodes
      rw [close?_enter hp henter, hc]

theorem counts_nodes (h : ∀ j, i < j → j ≤ t.size → Counts t j) (hs : t.suffix? i = some u) :
    ∃ r, nodes t (some start) depth i = done r ∧ ReadsBlock t start depth i u r := by
  cases u
  case nil => exact ⟨_, nodes_at_end (some start) depth hs, .runsOut fun _ _ => close?_nil⟩
  case cons c u =>
    by_cases hat : c = '@'
    case pos =>
      subst hat
      cases hp : condition? ('@' :: u)
      case none => exact counts_sign h hs hp
      case some paren => exact counts_condition h hs hp
    by_cases hopen : c = '{'
    case pos =>
      subst hopen
      exact counts_cons (h (i + 1) (by omega) (Text.lt_size_of_suffix? hs))
        (Text.suffix?_succ (by decide) hs)
        (Nat.le_succ i) (fun _ _ => close?_open) (nodes_at_open (some start) depth hs)
    by_cases hclose : c = '}'
    case pos => exact hclose ▸ counts_close h (hclose ▸ hs)
    case neg =>
      have hplain : isPlain c := by simp [isPlain, hat, hopen, hclose]
      obtain ⟨j, hj, hle, hnext, hnodes⟩ := nodes_at_plain (some start) depth hs hplain
      have hrun : ∀ d ∈ c :: u.takeWhile isPlain, isPlain d :=
        List.forall_mem_cons.mpr ⟨hplain, fun d hd => List.mem_takeWhile_imp hd⟩
      have hsplit : c :: u = c :: u.takeWhile isPlain ++ u.dropWhile isPlain := by simp
      refine counts_cons (h j hj hle) hnext (Nat.le_of_lt hj) (fun accept outer => ?_) hnodes
      rw [hsplit, close?_append_plain hrun]

theorem ReadsBlock.past {inside : Text} (h : ReadsBlock t i 0 (i + 1) inside r) :
    ReadsPast t i ('{' :: inside) r := by
  cases h
  case ends hn hs hc =>
    refine .passes (by omega) hs fun accept depth => ?_
    have hend := hc accept (depth + 1)
    rw [Nat.add_zero] at hend
    rw [close?_open, hend, close?_close]
  case runsOut => exact .fails fun _ => Nat.le_refl i
  case fails he => exact .fails fun hb => Nat.le_of_succ_le (he hb)

theorem ReadsPast.prepend {α β : Type} {r : Except Error (α × Nat)} (h : ReadsPast t j rest r)
    (hi : i ≤ j)
    (hc : ∀ accept depth, close? accept depth u = close? accept depth rest) (f : α → β) :
    ReadsPast t i u (r.map fun p => (f p.1, p.2)) := by
  cases h
  case passes hn hs hend =>
    exact .passes (Nat.le_trans hi hn) hs fun accept depth => by rw [hc, hend]
  case fails he => exact .fails fun hb => Nat.le_trans hi (he hb)

theorem counts_branches (h : ∀ j, i < j → j ≤ t.size → Counts t j) {inside : Text}
    (hs : t.suffix? i = some ('{' :: inside)) :
    ∃ r, branches t i = done r ∧ ReadsPast t i ('{' :: inside) r := by
  have hi := Text.lt_size_of_suffix? hs
  obtain ⟨r, hr, hreads⟩ :=
    (h (i + 1) (by omega) hi).nodes inside i 0 (Text.suffix?_succ (by decide) hs)
  have hn : ∀ m n, r = .ok (m, n) → i < n := by
    rintro m n rfl
    cases hreads
    case ends _ hn _ => exact hn
  rw [branches, onward_eq ⟨by omega, hi⟩, lift_bind, hr]
  cases hreads.past
  case fails he => exact ⟨_, rfl, .fails he⟩
  case passes body n rest _ hrest hc =>
    have hlt := hn body n rfl
    have hle := Text.add_size_of_suffix? hrest
    obtain ⟨r, hr, hpast⟩ := (h n hlt (by omega)).alternate rest hrest
    refine ⟨_, ?_, hpast.prepend (Nat.le_of_lt hlt) hc fun alternate => (body, alternate)⟩
    rw [done_bind]
    dsimp only
    rw [onward_eq ⟨hlt, by omega⟩, lift_bind, hr]
    cases r <;> rfl

theorem counts_alternate (h : ∀ j, i < j → j ≤ t.size → Counts t j) (hs : t.suffix? i = some u) :
    ∃ r, alternate t i = done r ∧ ReadsPast t i u r := by
  have hafter := afterBlock hs
  generalize alternate t i = attempt at hafter ⊢
  cases hafter
  case ends => exact ⟨_, rfl, .passes (Nat.le_refl i) hs fun _ _ => rfl⟩
  case fails henter => exact ⟨_, rfl, .fails fun hc => absurd hc (cause_of_enter henter)⟩
  case missing => exact ⟨_, rfl, .fails (by simp [errorIn])⟩
  case conditional rest paren condition inside brace he hp henter hi hb =>
    have hsize := Text.lt_size_of_suffix? hb
    obtain ⟨r, hr, hpast⟩ := (h brace hi (by omega)).branches inside hb
    refine ⟨_, ?_, hpast.prepend (Nat.le_of_lt hi) (fun accept depth => ?_)
      fun m => Markup.conditional condition m.1 m.2 .empty⟩
    · rw [hr]
      cases r <;> rfl
    · rw [close?_else he, close?_enter hp henter]
  case block rest inside brace he hp hinside hi hb =>
    obtain ⟨r, hr, hreads⟩ := (h _ (by omega) (Text.lt_size_of_suffix? hb)).nodes inside brace 0
      (Text.suffix?_succ (by decide) hb)
    refine ⟨_, ?_, hreads.past.prepend (Nat.le_of_lt hi) (fun accept depth => ?_) id⟩
    · rw [hr]
      cases r <;> rfl
    · rw [close?_else he, hinside]

end Steps

theorem counts (t : Text) (i : Nat) : Counts t i := by
  induction hn : t.size - i using Nat.strongRecOn generalizing i
  case ind n ih =>
  have hlater (j : Nat) (hj : i < j) (hle : j ≤ t.size) : Counts t j := ih _ (by omega) j rfl
  exact ⟨fun _ _ _ => counts_nodes hlater, fun _ => counts_branches hlater, fun _ =>
    counts_alternate hlater⟩

-- The cursor reads in a block what the events of the block spell, and where it finds the end of the
-- block, or none, so does counting.
theorem closeAt?_of_nodes {t inside : Text} {b : Nat} (hb : t.suffix? b = some ('{' :: inside)) :
    ∃ r, nodes t (some b) 0 (b + 1) = done r ∧
      (∀ isAlternate outer, Reads t (b + 1) (events
        (⟨'{' :: inside, isAlternate, 0⟩ :: outer) inside)
        (ending (⟨'{' :: inside, isAlternate, 0⟩ :: outer)) SpellsParts r) ∧
      (∀ m n, r = .ok (m, n) → ∃ e, n = e + 1 ∧ closeAt? t (b + 1) (fun _ => true) = some e) ∧
      (r = .error ⟨.unterminatedBlock, b⟩ → closeAt? t (b + 1) (fun _ => true) = none) := by
  have hnext := Text.suffix?_succ (by decide) hb
  obtain ⟨r, hr, hreads⟩ := (counts t (b + 1)).nodes inside b 0 hnext
  refine ⟨r, hr, fun isAlternate outer => ?_, ?_, ?_⟩
  · obtain ⟨r', hr', hevents⟩ :=
      (parses t (b + 1)).nodes inside (⟨'{' :: inside, isAlternate, 0⟩ :: outer) 0
      hnext (by simp)
    simp only [List.head?_cons, Option.map_some, Text.offset_of_suffix? hb] at hr'
    cases hr.symm.trans hr'
    exact hevents
  · rintro m n rfl
    cases hreads
    case ends rest hc hn hs =>
      have hclose : close? (fun _ => true) 0 inside = some ('}' :: rest) :=
        (hc _ 0).trans (close?_brace rfl)
      have hsize := Text.add_size_of_suffix? hs
      refine ⟨n - 1, by omega, ?_⟩
      rw [closeAt?, Text.dropBytes_of_suffix? hnext]
      simp only [hclose, Option.bind_eq_bind, Option.bind_some, Text.offset, Text.size_cons,
        utf8Size_of_ascii (by decide : '}'.toNat < 128), Option.pure_def, Option.some.injEq]
      omega
  · rintro rfl
    cases hreads
    case fails he => exact absurd (he rfl) (by simp)
    case runsOut hc =>
      rw [closeAt?, Text.dropBytes_of_suffix? hnext, hc _ 0]
      rfl

theorem closeAt?_of_nodes_nested :
    (∃ t inside : Text, t =
      "x\x7bDon't @if (s == '\x7d') \x7b\x7b\x7d\x7d @else \x7b\x7d\x7d y".toList ∧
      t.suffix? 1 = some ('{' :: inside) ∧ closeAt? t 2 (fun _ => true) = some 36) ∧
    ∃ t inside : Text, t = "\x7b@if (a) \x7b\x7d".toList ∧ t.suffix? 0 = some ('{' :: inside) ∧
      closeAt? t 1 (fun _ => true) = none := by
  constructor
  · have hnodes : nodes
        "x\x7bDon't @if (s == '\x7d') \x7b\x7b\x7d\x7d @else \x7b\x7d\x7d y".toList (some 1) 0 2 =
          done (.ok (.text "Don't ".toList (.conditional "s == '\x7d'".toList
            (.text ['{', '}'] .empty)
            .empty .empty), 37)) := by
      cbv
    obtain ⟨inside, hb⟩ : ∃ inside, Text.suffix?
        "x\x7bDon't @if (s == '\x7d') \x7b\x7b\x7d\x7d @else \x7b\x7d\x7d y".toList 1 =
          some ('{' :: inside) :=
      ⟨_, rfl⟩
    obtain ⟨r, hr, _, hends, _⟩ := closeAt?_of_nodes hb
    cases hr.symm.trans hnodes
    obtain ⟨e, he, hclose⟩ := hends _ _ rfl
    cases he
    exact ⟨_, inside, rfl, hb, hclose⟩
  · have hnodes : nodes "\x7b@if (a) \x7b\x7d".toList (some 0) 0 1 =
        done (.error ⟨.unterminatedBlock, 0⟩) := by
      cbv
    have hb : Text.suffix? "\x7b@if (a) \x7b\x7d".toList 0 =
        some ('{' :: "@if (a) \x7b\x7d".toList) := rfl
    obtain ⟨r, hr, _, _, hnone⟩ := closeAt?_of_nodes hb
    cases hr.symm.trans hnodes
    exact ⟨_, _, rfl, hb, hnone rfl⟩

end Cursor
end Componentry
