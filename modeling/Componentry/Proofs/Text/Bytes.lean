import Componentry.Proofs.Text.Offsets
import Componentry.Text.Blank
import Componentry.Text.Identifier

/-!
The bytes of a text and its characters. At an offset the text has ended, or a character starts, or
one goes on. The byte of an ASCII character is its code, and no byte of another character is the
code of an ASCII character, so that a search for ASCII characters may go from byte to byte.
-/
namespace Componentry

def IsWide (c : Char) : Prop :=
  128 ≤ c.toNat

def OnlyAscii (p : Char → Bool) : Prop :=
  ∀ c, IsWide c → p c = false

section Ascii

variable {c : Char}

theorem IsWide.ne (h : IsWide c) {x : Char} (hx : x.toNat < 128) : c ≠ x := by
  rintro rfl
  exact Nat.not_le_of_lt hx h

theorem OnlyAscii.toNat_lt {p : Char → Bool} (hp : OnlyAscii p) (h : p c) : c.toNat < 128 := by
  by_contra hn
  simp [hp c (Nat.le_of_not_lt hn)] at h

theorem onlyAscii_isSpace : OnlyAscii isSpace := by
  intro c h
  simp [isSpace, h.ne]

theorem not_isAlphanum_of_isWide (h : IsWide c) : c.isAlphanum = false := by
  rw [← Bool.not_eq_true]
  intro ha
  simp only [Char.isAlphanum, Char.isAlpha, Char.isUpper, Char.isLower, Char.isDigit,
    Bool.or_eq_true, Bool.and_eq_true, decide_eq_true_eq, UInt32.le_iff_toNat_le, ge_iff_le] at ha
  have hn : 128 ≤ c.val.toNat := h
  have hz : 'z'.val.toNat = 122 := rfl
  have hupper : 'Z'.val.toNat = 90 := rfl
  have hdigit : '9'.val.toNat = 57 := rfl
  omega

theorem onlyAscii_isPart : OnlyAscii Identifier.isPart := by
  intro c h
  simp [Identifier.isPart, not_isAlphanum_of_isWide h, h.ne]

theorem onlyAscii_isStart : OnlyAscii Identifier.isStart := by
  intro c h
  rw [← Bool.not_eq_true]
  intro hs
  simpa [onlyAscii_isPart c h] using Identifier.isPart_of_isStart hs

theorem utf8Size_of_ascii (h : c.toNat < 128) : c.utf8Size = 1 := by
  rw [Char.utf8Size_eq_one_iff, UInt32.le_iff_toNat_le]
  exact Nat.le_of_lt_succ h

theorem utf8EncodeChar_of_ascii (h : c.toNat < 128) :
    (String.utf8EncodeChar c).map Char.ofUInt8 = [c] := by
  have hc : Char.ofUInt8 c.val.toUInt8 = c := by
    apply Char.ext
    apply UInt32.toNat_inj.mp
    have hn : c.val.toNat < 128 := h
    have hmod : c.val.toNat % 256 = c.val.toNat := Nat.mod_eq_of_lt (by omega)
    rw [Char.ofUInt8, UInt8.toNat_toUInt32, UInt32.toNat_toUInt8, hmod]
  rw [String.utf8EncodeChar_eq_singleton (utf8Size_of_ascii h), List.map_singleton, hc]

theorem isWide_of_mem_utf8EncodeChar (h : IsWide c) {d : Char}
    (hd : d ∈ (String.utf8EncodeChar c).map Char.ofUInt8) : IsWide d := by
  obtain ⟨b, hb, rfl⟩ := List.mem_map.mp hd
  have hn : 128 ≤ c.val.toNat := h
  suffices 128 ≤ b.toNat by simpa [IsWide, Char.toNat, Char.ofUInt8] using this
  unfold String.utf8EncodeChar at hb
  dsimp only at hb
  split_ifs at hb
  · omega
  all_goals
    simp only [List.mem_cons, List.not_mem_nil, or_false] at hb
    rcases hb with rfl | rfl | rfl | rfl
    all_goals simp [UInt8.toNat_ofNat']; omega

end Ascii

namespace Text

def code? (t : Text) (i : Nat) : Option Char :=
  (t.byte? i).map Char.ofUInt8

section Cons

variable (c : Char) (t : Text) (i : Nat)

theorem exists_utf8Size_add : ∃ n, c.utf8Size + i = n + 1 :=
  Nat.exists_eq_add_one.mpr (Nat.add_pos_left c.utf8Size_pos i)

theorem suffix?_cons_add : suffix? (c :: t) (c.utf8Size + i) = t.suffix? i := by
  have ⟨n, hn⟩ := exists_utf8Size_add c i
  rw [hn, suffix?, ← hn, if_pos (Nat.le_add_right ..), Nat.add_sub_cancel_left]

theorem dropBytes_cons_add : dropBytes (c :: t) (c.utf8Size + i) = t.dropBytes i := by
  have ⟨n, hn⟩ := exists_utf8Size_add c i
  rw [hn, dropBytes, ← hn, Nat.add_sub_cancel_left]

theorem code?_cons_add : code? (c :: t) (c.utf8Size + i) = t.code? i := by
  simp [code?, byte?, bytes, List.getElem?_append]

theorem code?_cons_of_lt {i : Nat} (h : i < c.utf8Size) :
    code? (c :: t) i = ((String.utf8EncodeChar c).map Char.ofUInt8)[i]? := by
  simp [code?, byte?, bytes, List.getElem?_append, h]

theorem dropBytes_cons_of_le {i : Nat} (hp : 0 < i) (h : i ≤ c.utf8Size) :
    dropBytes (c :: t) i = t := by
  have ⟨n, hn⟩ := Nat.exists_eq_add_one.mpr hp
  rw [hn, dropBytes, ← hn, Nat.sub_eq_zero_of_le h]
  cases t <;> rfl

theorem suffix?_cons_of_lt {i : Nat} (hp : 0 < i) (h : i < c.utf8Size) :
    suffix? (c :: t) i = none := by
  have ⟨n, hn⟩ := Nat.exists_eq_add_one.mpr hp
  rw [hn, suffix?, if_neg (by omega)]

end Cons

section Suffix

variable {t u rest : Text} {i : Nat} {c : Char}

theorem offset_of_suffix? (h : t.suffix? i = some u) : t.offset u = i := by
  have ⟨s, ht, hs⟩ := suffix?_eq_some_iff.mp h
  rw [ht, offset_append, hs]

theorem add_size_of_suffix? (h : t.suffix? i = some u) : i + u.size = t.size := by
  have ⟨s, ht, hs⟩ := suffix?_eq_some_iff.mp h
  rw [ht, size_append, hs]

theorem suffix?_add_size {s : Text} (h : t.suffix? i = some (s ++ rest)) :
    t.suffix? (i + s.size) = some rest := by
  have ⟨r, ht, hr⟩ := suffix?_eq_some_iff.mp h
  exact suffix?_eq_some_iff.mpr ⟨r ++ s, by simp [ht], by simp [hr]⟩

theorem suffix?_next (h : t.suffix? i = some (c :: rest)) :
    t.suffix? (i + c.utf8Size) = some rest :=
  @suffix?_add_size t rest i [c] h

theorem suffix?_size (t : Text) : t.suffix? t.size = some [] :=
  suffix?_eq_some_iff.mpr ⟨t, by simp, rfl⟩

theorem suffix?_offset (h : u <:+ t) : t.suffix? (t.offset u) = some u := by
  obtain ⟨s, rfl⟩ := h
  rw [offset_append, suffix?_append]

theorem suffix_of_suffix? {v : Text} {j : Nat} (hu : t.suffix? i = some u)
    (hv : t.suffix? j = some v)
    (h : i ≤ j) : v <:+ u := by
  obtain ⟨s, rfl, rfl⟩ := suffix?_eq_some_iff.mp hu
  obtain ⟨r, he, rfl⟩ := suffix?_eq_some_iff.mp hv
  rcases List.append_eq_append_iff.mp he with ⟨x, rfl, rfl⟩ | ⟨x, rfl, rfl⟩
  case inl => exact ⟨x, rfl⟩
  case inr =>
    have hx : x = [] := by
      by_contra hn
      have hpos := size_pos_of_ne_nil hn
      rw [size_append] at h
      omega
    exact ⟨[], by simp [hx]⟩

theorem dropBytes_suffix (t : Text) (i : Nat) : t.dropBytes i <:+ t := by
  fun_induction dropBytes t i
  case case1 => exact List.suffix_refl _
  case case2 => exact List.suffix_refl _
  case case3 ih => exact ih.trans (List.suffix_cons _ _)

theorem dropBytes_of_suffix? (h : t.suffix? i = some u) : t.dropBytes i = u := by
  have ⟨s, ht, hs⟩ := suffix?_eq_some_iff.mp h
  subst ht hs
  clear h
  induction s
  case nil => cases u <;> rfl
  case cons c s ih => rw [List.cons_append, size_cons, dropBytes_cons_add, ih]

theorem dropBytes_next (h : t.suffix? i = some (c :: rest)) : t.dropBytes (i + 1) = rest := by
  have ⟨s, ht, hs⟩ := suffix?_eq_some_iff.mp h
  subst ht hs
  clear h
  induction s
  case nil => exact dropBytes_cons_of_le c rest (by simp) c.utf8Size_pos
  case cons d s ih => rw [List.cons_append, size_cons, Nat.add_assoc, dropBytes_cons_add, ih]

end Suffix

inductive Place (t : Text) (i : Nat) : Prop
  | past (hi : t.size ≤ i) (hc : t.code? i = none) (hr : t.dropBytes i = [])
  | ascii {c rest} (hx : c.toNat < 128) (hs : t.suffix? i = some (c :: rest))
    (hc : t.code? i = some c)
  -- The first byte of another character, and any later one.
  | wide {c d rest} (hx : IsWide c) (hs : t.suffix? i = some (c :: rest)) (hc : t.code? i = some d)
    (hd : IsWide d)
  | inside {d} (hi : i < t.size) (hs : t.suffix? i = none) (hc : t.code? i = some d) (hd : IsWide d)
    (hr : t.dropBytes (i + 1) = t.dropBytes i)

theorem place (t : Text) (i : Nat) : Place t i := by
  induction t generalizing i
  case nil => exact .past (Nat.zero_le i) rfl (by cases i <;> rfl)
  case cons c t ih =>
    by_cases hlt : i < c.utf8Size
    case neg =>
      have ⟨j, hj⟩ := Nat.exists_eq_add_of_le (Nat.le_of_not_lt hlt)
      subst hj
      have hcode := code?_cons_add c t j
      have hsuffix := suffix?_cons_add c t j
      have hdrop := dropBytes_cons_add c t j
      have hnext := dropBytes_cons_add c t (j + 1)
      rw [← Nat.add_assoc] at hnext
      cases ih j
      case past hi hc hr => exact .past (by simpa using hi) (hcode.trans hc) (hdrop.trans hr)
      case ascii hx hs hc => exact .ascii hx (hsuffix.trans hs) (hcode.trans hc)
      case wide hx hs hc hd => exact .wide hx (hsuffix.trans hs) (hcode.trans hc) hd
      case inside hi hs hc hd hr =>
        exact .inside (by simpa using hi) (hsuffix.trans hs) (hcode.trans hc) hd
          (by rw [hnext, hdrop, hr])
    case pos =>
      have hcode := code?_cons_of_lt c t hlt
      by_cases hx : c.toNat < 128
      case pos =>
        have hi : i = 0 := by
          rw [utf8Size_of_ascii hx] at hlt
          omega
        rw [utf8EncodeChar_of_ascii hx] at hcode
        subst hi
        exact .ascii hx rfl hcode
      case neg =>
        have hx : IsWide c := Nat.le_of_not_lt hx
        have hlength : i < ((String.utf8EncodeChar c).map Char.ofUInt8).length := by
          simpa using hlt
        rw [List.getElem?_eq_getElem hlength] at hcode
        have hd := isWide_of_mem_utf8EncodeChar hx (List.getElem_mem hlength)
        cases i
        case zero => exact .wide hx rfl hcode hd
        case succ i =>
          have hdrop := dropBytes_cons_of_le c t (Nat.succ_pos i) (Nat.le_of_lt hlt)
          have hnext := dropBytes_cons_of_le c t (Nat.succ_pos (i + 1)) hlt
          refine .inside ?_ (suffix?_cons_of_lt c t (Nat.succ_pos i) hlt) hcode hd
            (hnext.trans hdrop.symm)
          rw [size_cons]
          omega

section Code

variable {t rest : Text} {i : Nat} {c x : Char}

theorem length_bytes (t : Text) : t.bytes.length = t.size := by
  induction t
  case nil => rfl
  case cons c t ih =>
    rw [bytes, List.flatMap_cons, List.length_append, String.length_utf8EncodeChar, size_cons]
    exact congrArg (c.utf8Size + ·) ih

theorem size_eq_length {p : Char → Bool} (hp : OnlyAscii p) (h : ∀ c ∈ t, p c) :
    t.size = t.length := by
  induction t
  case nil => rfl
  case cons c t ih =>
    obtain ⟨hc, ht⟩ := List.forall_mem_cons.mp h
    rw [size_cons, List.length_cons, ih ht, utf8Size_of_ascii (hp.toNat_lt hc), Nat.add_comm]

theorem code?_eq_none_iff : t.code? i = none ↔ t.size ≤ i := by
  simp [code?, byte?, length_bytes]

theorem lt_size_of_code? (h : t.code? i = some c) : i < t.size := by
  rw [← Nat.not_le, ← code?_eq_none_iff, h]
  simp

theorem lt_size_of_suffix? (h : t.suffix? i = some (c :: rest)) : i < t.size := by
  have hsize := add_size_of_suffix? h
  have hpos := c.utf8Size_pos
  rw [size_cons] at hsize
  omega

theorem dropBytes_of_size_le (h : t.size ≤ i) : t.dropBytes i = [] := by
  have hnone := code?_eq_none_iff.mpr h
  cases t.place i
  case past hr => exact hr
  case ascii hc => simp [hc] at hnone
  case wide hc _ => simp [hc] at hnone
  case inside hc _ _ => simp [hc] at hnone

theorem suffix?_of_size_le (h : t.size ≤ i) : t.suffix? i = none ∨ t.suffix? i = some [] := by
  cases hs : t.suffix? i
  case none => exact .inl rfl
  case some u => rw [← dropBytes_of_suffix? hs, dropBytes_of_size_le h]; exact .inr rfl

theorem le_offset_dropBytes (h : i < t.size) : i ≤ t.offset (t.dropBytes i) := by
  induction hn : t.size - i using Nat.strongRecOn generalizing i
  case ind n ih =>
  cases t.place i
  case past hi _ _ => exact absurd h (Nat.not_lt_of_le hi)
  case ascii hs _ => rw [dropBytes_of_suffix? hs, offset_of_suffix? hs]
  case wide hs _ _ => rw [dropBytes_of_suffix? hs, offset_of_suffix? hs]
  case inside hr =>
    rw [← hr]
    by_cases hend : i + 1 < t.size
    case pos => exact Nat.le_of_succ_le (ih _ (by omega) hend rfl)
    case neg =>
      rw [dropBytes_of_size_le (Nat.le_of_not_lt hend), offset_of_suffix? (suffix?_size t)]
      exact Nat.le_of_lt h

theorem code?_eq_some_iff (hx : x.toNat < 128) :
    t.code? i = some x ↔ ∃ rest, t.suffix? i = some (x :: rest) := by
  cases t.place i
  case past hi hc _ =>
    refine ⟨fun h => by simp [hc] at h, fun ⟨rest, hs⟩ => ?_⟩
    exact absurd (lt_size_of_suffix? hs) (Nat.not_lt_of_le hi)
  case ascii hs hc => simp [hs, hc]
  case wide hw hs hc hd => simp [hs, hc, hd.ne hx, hw.ne hx]
  case inside hs hc hd _ => simp [hs, hc, hd.ne hx]

theorem code?_eq_some_iff_head? {u : Text} (h : t.suffix? i = some u) (hx : x.toNat < 128) :
    t.code? i = some x ↔ u.head? = some x := by
  rw [code?_eq_some_iff hx, h, List.head?_eq_some_iff]
  simp

theorem any_code? {p : Char → Bool} (hp : OnlyAscii p) {u : Text} (h : t.suffix? i = some u) :
    (t.code? i).any p = u.head?.any p := by
  cases t.place i
  case past hi hc _ =>
    cases (suffix?_of_size_le hi).resolve_left (by simp [h]) ▸ h
    simp [hc]
  case ascii hs hc =>
    cases h.symm.trans hs
    simp [hc]
  case wide hx hs hc hd =>
    cases h.symm.trans hs
    simp [hc, hp _ hx, hp _ hd]
  case inside hs _ _ _ => simp [hs] at h

theorem suffix?_succ (hx : c.toNat < 128) (h : t.suffix? i = some (c :: rest)) :
    t.suffix? (i + 1) = some rest := by
  simpa [utf8Size_of_ascii hx] using suffix?_next h

-- Of the text before an offset, its last byte tells whether its last character belongs to a class.
theorem any_code?_pred {p : Char → Bool} (hp : OnlyAscii p) (s u : Text) :
    (if 0 < s.size then (s ++ u).code? (s.size - 1) else none).any p = s.getLast?.any p := by
  rcases s.eq_nil_or_concat' with rfl | ⟨r, c, rfl⟩
  case inl => rfl
  case inr =>
    have hsize : size (r ++ [c]) = size r + c.utf8Size := by simp
    have hpos := c.utf8Size_pos
    rw [if_pos (by omega), List.getLast?_concat, Option.any_some]
    by_cases hx : c.toNat < 128
    case pos =>
      have hcode : code? (r ++ [c] ++ u) (size r) = some c := by
        rw [List.append_assoc]
        exact (code?_eq_some_iff hx).mpr ⟨u, suffix?_append r (c :: u)⟩
      rw [hsize, utf8Size_of_ascii hx, Nat.add_sub_cancel, hcode, Option.any_some]
    case neg =>
      have hw : IsWide c := Nat.le_of_not_lt hx
      rw [hp c hw, ← Bool.not_eq_true, Option.any_eq_true]
      rintro ⟨d, hd, hclass⟩
      obtain ⟨rest, hs⟩ := (code?_eq_some_iff (hp.toNat_lt hclass)).mp hd
      have hu := suffix?_succ (hp.toNat_lt hclass) hs
      rw [Nat.sub_add_cancel (by omega), suffix?_append] at hu
      cases hu
      obtain ⟨before, he, _⟩ := suffix?_eq_some_iff.mp hs
      rw [List.append_cons before] at he
      have hc := List.append_cancel_right he
      obtain ⟨_, rfl⟩ : r = before ∧ c = d := by simpa using hc
      simp [hp c hw] at hclass

theorem suffix?_zero (t : Text) : t.suffix? 0 = some t :=
  suffix?_append [] t

-- Two bytes after an ASCII character may be inside the next character, which is then passed over.
theorem dropBytes_add_two (hx : c.toNat < 128) (h : t.suffix? i = some (c :: rest)) :
    t.dropBytes (i + 2) = rest.tail := by
  have hnext := suffix?_succ hx h
  cases rest
  case cons d rest => exact dropBytes_next hnext
  case nil =>
    have hsize := add_size_of_suffix? hnext
    exact dropBytes_of_size_le (by simp at hsize; omega)

end Code
end Text
end Componentry
