import Componentry.Proofs.Cursor.Span
import Componentry.Proofs.Static.Balanced

/-!
The top level of an expression by byte offset. The cursor goes from byte to byte, also through
characters of several bytes, and stops at the places that the text has at its top level, in their
order.
-/
namespace Componentry.Static

open Code

def Place.offset (p : Place) : Nat :=
  Text.size p.before.reverse

-- A place comes before another if the text between them starts with the character at the first.
def Place.Precedes (p q : Place) : Prop :=
  ∃ c between, p.after = c :: (between ++ q.after) ∧ q.before = between.reverse ++ c :: p.before

-- What follows each place of a text that starts at a depth and maybe in a string.
def following (depth : Int) (quote : Option Char) (t : Text) : List Text :=
  (places.go depth quote [] t).map Place.after

section Following

variable {depth : Int} {quote : Option Char} {before t : Text} {p : Place} {c q : Char}

theorem map_after_go (depth : Int) (quote : Option Char) (before t : Text) :
    (places.go depth quote before t).map Place.after = following depth quote t := by
  have hgo := go_behind depth quote [] before.reverse t
  rw [List.nil_append, List.reverse_reverse] at hgo
  simp [hgo, following, Function.comp_def]

theorem following_backslash (depth : Int) (q : Char) (t : Text) :
    following depth (some q) ('\\' :: t) = following depth (some q) t.tail := by
  cases t
  case nil => rfl
  case cons d t =>
    rw [following, places.go.eq_def]
    simp [map_after_go]

theorem following_string (hc : c ≠ '\\') (t : Text) :
    following depth (some q) (c :: t) = following depth (if c = q then none else some q) t := by
  rw [following, places.go.eq_def]
  simp [hc, map_after_go]

theorem following_cons (depth : Int) (c : Char) (t : Text) : following depth none (c :: t) =
    if isOpener c then following (depth + 1) none t
    else if isCloser c then following (depth - 1) none t
    else if isQuote c then following depth (some c) t
    else (if depth = 0 then [c :: t] else []) ++ following depth none t := by
  rw [following, places.go]
  split_ifs <;> simp [map_after_go]

theorem before_suffix_of_mem_go (h : p ∈ places.go depth quote before t) : before <:+ p.before := by
  fun_induction places.go depth quote before t <;> simp_all <;>
    grind [List.IsSuffix.trans, List.suffix_cons]

theorem precedes_of_mem_go (h : p ∈ places.go depth quote (c :: before) t) :
    Place.Precedes ⟨before, c :: t⟩ p := by
  obtain ⟨s, hs⟩ := before_suffix_of_mem_go h
  have ht := (places.go_spec h).2
  rw [← hs, List.reverse_append, List.append_assoc, List.append_cancel_left_eq] at ht
  exact ⟨c, s.reverse, by rw [ht], by rw [List.reverse_reverse, hs]⟩

theorem pairwise_go (depth : Int) (quote : Option Char) (before t : Text) :
    (places.go depth quote before t).Pairwise Place.Precedes := by
  fun_induction places.go depth quote before t
  case case8 ih => exact List.pairwise_cons.mpr ⟨fun p hp => precedes_of_mem_go hp, ih⟩
  all_goals first | exact .nil | assumption

theorem pairwise_places (t : Text) : (places t).Pairwise Place.Precedes :=
  pairwise_go 0 none [] t

theorem precedes_of_places {earlier later : List Place} (h : places t = earlier ++ p :: later) :
    (∀ q ∈ earlier, q.Precedes p) ∧ ∀ q ∈ later, p.Precedes q := by
  have horder := pairwise_places t
  rw [h, List.pairwise_append, List.pairwise_cons] at horder
  obtain ⟨_, ⟨hlater, _⟩, hearlier⟩ := horder
  exact ⟨fun q hq => hearlier q hq p List.mem_cons_self, hlater⟩

theorem Place.Precedes.offset_lt {q : Place} (h : p.Precedes q) : p.offset < q.offset := by
  obtain ⟨c, between, _, hq⟩ := h
  have hpos := c.utf8Size_pos
  simp [offset, hq]
  omega

theorem Place.Precedes.length_lt {q : Place} (h : p.Precedes q) :
    p.before.length < q.before.length := by
  obtain ⟨c, between, _, hq⟩ := h
  simp only [hq, List.length_append, List.length_cons]
  omega

theorem suffix?_offset (hp : p ∈ places t) : t.suffix? p.offset = some p.after := by
  have hs := Text.suffix?_append p.before.reverse p.after
  rwa [before_append_after hp] at hs

theorem offset_eq_zero_iff : p.offset = 0 ↔ p.before = [] := by
  constructor
  case mp =>
    intro h
    by_contra hb
    have hpos := Text.size_pos_of_ne_nil (mt List.reverse_eq_nil_iff.mp hb)
    exact hpos.ne' h
  case mpr =>
    intro h
    simp [Place.offset, h]

theorem suffix?_tail (hp : p ∈ places t) (hx : c.toNat < 128) (h : p.after.head? = some c) :
    t.suffix? (p.offset + 1) = some p.after.tail := by
  obtain ⟨rest, hrest⟩ := List.head?_eq_some_iff.mp h
  rw [hrest]
  exact Text.suffix?_succ hx (hrest ▸ suffix?_offset hp)

theorem tail_after (hp : p ∈ places t) : p.after.tail = t.drop (p.before.length + 1) := by
  rw [← List.drop_one, ← before_append_after hp, List.drop_append]
  simp

theorem offset_lt_size (hp : p ∈ places t) : p.offset < t.size := by
  obtain ⟨c, rest, hrest⟩ := List.exists_cons_of_ne_nil (after_ne_nil hp)
  exact Text.lt_size_of_suffix? (hrest ▸ suffix?_offset hp)

theorem offset_after (hp : p ∈ places t) : t.offset p.after = p.offset :=
  Text.offset_of_suffix? (suffix?_offset hp)

end Following
end Componentry.Static

namespace Componentry.Cursor

open Code Static

def stringEnd (t : Text) (quote : Char) (i : Nat) : Checked Nat :=
  if i < t.size then do
    let c ← index t i
    if c = quote then return i
    else if c = '\\' then stringEnd t quote (i + 2)
    else stringEnd t quote (i + 1)
  else return i
termination_by t.size - i

-- The offsets at the top level. Inside a character there is none.
def topLevel (t : Text) (depth : Int) (i : Nat) : Checked (List Nat) :=
  if _ : i < t.size then do
    let c ← index t i
    if isOpener c then topLevel t (depth + 1) (i + 1)
    else if isCloser c then topLevel t (depth - 1) (i + 1)
    else if isQuote c then
      let n ← stringEnd t c (i + 1)
      if _ : i < n then topLevel t depth (n + 1) else throw .stuck
    else
      let later ← topLevel t depth (i + 1)
      return if depth = 0 && (t.suffix? i).isSome then i :: later else later
  else return []
termination_by t.size - i

section TopLevel

variable {t : Text} {quote : Char} {i : Nat}

theorem onlyAscii_isQuote : OnlyAscii isQuote := by
  intro c h
  simp [isQuote, h.ne]

-- A string is passed over. After a backslash the cursor may be inside a character.
theorem stringEnd_eq (hq : isQuote quote) (i : Nat) : ∃ n, stringEnd t quote i = .ok n ∧ i ≤ n ∧
    ∀ depth, following depth (some quote) (t.dropBytes i) =
      following depth none (t.dropBytes (n + 1)) := by
  have hascii := onlyAscii_isQuote.toNat_lt hq
  have hback : quote ≠ '\\' := by
    rintro rfl
    simp [isQuote] at hq
  induction hn : t.size - i using Nat.strongRecOn generalizing i
  case ind n ih =>
  rw [stringEnd]
  cases t.place i
  case past hi _ hr =>
    rw [if_neg (Nat.not_lt_of_le hi)]
    refine ⟨i, rfl, Nat.le_refl i, fun depth => ?_⟩
    rw [hr, Text.dropBytes_of_size_le (Nat.le_succ_of_le hi)]
    rfl
  case ascii c rest hx hs hc =>
    have hi := Text.lt_size_of_suffix? hs
    rw [if_pos hi, index_eq hc, ok_bind, Text.dropBytes_of_suffix? hs]
    split_ifs with hend hslash
    · refine ⟨i, rfl, Nat.le_refl i, fun depth => ?_⟩
      rw [following_string (hend ▸ hback), if_pos hend, Text.dropBytes_next hs]
    · obtain ⟨m, hm, hle, hfollow⟩ := ih _ (by omega) (i + 2) rfl
      refine ⟨m, hm, by omega, fun depth => ?_⟩
      rw [← hfollow, hslash, following_backslash, Text.dropBytes_add_two hx hs]
    · obtain ⟨m, hm, hle, hfollow⟩ := ih _ (by omega) (i + 1) rfl
      refine ⟨m, hm, by omega, fun depth => ?_⟩
      rw [← hfollow, following_string hslash, if_neg hend, Text.dropBytes_next hs]
  case wide c d rest hx hs hc hd =>
    have hi := Text.lt_size_of_suffix? hs
    obtain ⟨m, hm, hle, hfollow⟩ := ih _ (by omega) (i + 1) rfl
    rw [if_pos hi, index_eq hc, ok_bind, if_neg (hd.ne hascii), if_neg (hd.ne (by decide))]
    refine ⟨m, hm, by omega, fun depth => ?_⟩
    rw [← hfollow, Text.dropBytes_of_suffix? hs, following_string (hx.ne (by decide)),
      if_neg (hx.ne hascii), Text.dropBytes_next hs]
  case inside hi hs hc hd hr =>
    obtain ⟨m, hm, hle, hfollow⟩ := ih _ (by omega) (i + 1) rfl
    rw [if_pos hi, index_eq hc, ok_bind, if_neg (hd.ne hascii), if_neg (hd.ne (by decide))]
    exact ⟨m, hm, by omega, fun depth => by rw [← hfollow, hr]⟩

theorem topLevel_eq (depth : Int) (i : Nat) :
    topLevel t depth i = .ok ((following depth none (t.dropBytes i)).map t.offset) := by
  induction hn : t.size - i using Nat.strongRecOn generalizing depth i
  case ind n ih =>
  rw [topLevel]
  cases t.place i
  case past hi _ hr =>
    rw [dif_neg (Nat.not_lt_of_le hi), hr]
    rfl
  case ascii c rest hx hs hc =>
    have hi := Text.lt_size_of_suffix? hs
    have hlater depth := ih _ (by omega) depth (i + 1) rfl
    rw [Text.dropBytes_next hs] at hlater
    rw [dif_pos hi, index_eq hc, ok_bind, Text.dropBytes_of_suffix? hs, following_cons]
    by_cases hopen : isOpener c
    case pos => simp [hopen, hlater]
    case neg =>
    by_cases hclose : isCloser c
    case pos => simp [hopen, hclose, hlater]
    case neg =>
    by_cases hquote : isQuote c
    case pos =>
      obtain ⟨m, hm, hle, hfollow⟩ := stringEnd_eq hquote (t := t) (i + 1)
      have hbehind := ih _ (by omega) depth (m + 1) rfl
      rw [← hfollow, Text.dropBytes_next hs] at hbehind
      simp [hopen, hclose, hquote, hm, Nat.lt_of_succ_le hle, hbehind]
    case neg =>
      by_cases hzero : depth = 0 <;>
        simp [hopen, hclose, hquote, hzero, hlater, hs, Text.offset_of_suffix? hs]
  case wide c d rest hx hs hc hd =>
    have hi := Text.lt_size_of_suffix? hs
    have hlater := ih _ (by omega) depth (i + 1) rfl
    rw [Text.dropBytes_next hs] at hlater
    rw [dif_pos hi, index_eq hc, ok_bind, Text.dropBytes_of_suffix? hs, following_cons,
      onlyAscii_isOpener _ hd, onlyAscii_isCloser _ hd, onlyAscii_isQuote _ hd,
      onlyAscii_isOpener _ hx, onlyAscii_isCloser _ hx, onlyAscii_isQuote _ hx, hlater]
    by_cases hzero : depth = 0 <;> simp [hzero, hs, Text.offset_of_suffix? hs]
  case inside hi hs hc hd hr =>
    have hlater := ih _ (by omega) depth (i + 1) rfl
    rw [dif_pos hi, index_eq hc, ok_bind, onlyAscii_isOpener _ hd, onlyAscii_isCloser _ hd,
      onlyAscii_isQuote _ hd, hlater, hr]
    simp [hs]

theorem topLevel_places (t : Text) : topLevel t 0 0 = .ok ((places t).map Place.offset) := by
  rw [topLevel_eq, Text.dropBytes_of_suffix? (Text.suffix?_zero t), following, List.map_map]
  exact congrArg _ (List.map_congr_left fun p hp => offset_after hp)

-- The backslash leads the cursor into the character after it, and out again to the quote.
example : topLevel ['\'', '\\', 'é', '\'', ')', '(', '+'] 0 0 = .ok [7] := by
  cbv

end TopLevel
end Componentry.Cursor
