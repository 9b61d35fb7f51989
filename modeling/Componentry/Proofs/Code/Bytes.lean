import Componentry.Proofs.Cursor.Span
import Componentry.Proofs.Text.Order

/-!
Groups by their bytes. Where the closer of a group is depends on nothing but the bytes from its
opener to its closer: a group that is closed has left every string, comment and template in it, so
what follows is not read, and what precedes is not looked at.
-/
namespace Componentry

namespace Text

variable {s t : Text}

theorem bytes_cons (c : Char) (t : Text) : bytes (c :: t) = String.utf8EncodeChar c ++ t.bytes :=
  List.flatMap_cons

theorem bytes_append (s t : Text) : (s ++ t).bytes = s.bytes ++ t.bytes :=
  List.flatMap_append

-- No character has bytes that start those of another.
theorem eq_of_utf8EncodeChar_append {c d : Char} {x y : List UInt8}
    (h : String.utf8EncodeChar c ++ x = String.utf8EncodeChar d ++ y) : c = d := by
  rcases lt_trichotomy c d with hlt | heq | hlt
  case inl => exact absurd (utf8EncodeChar_append_lt hlt x y) (h ▸ List.lt_irrefl _)
  case inr.inl => exact heq
  case inr.inr => exact absurd (utf8EncodeChar_append_lt hlt y x) (h ▸ List.lt_irrefl _)

theorem prefix_of_bytes (h : s.bytes <+: t.bytes) : s <+: t := by
  induction s generalizing t
  case nil => exact List.nil_prefix
  case cons c s ih =>
    obtain ⟨rest, hrest⟩ := h
    rw [bytes_cons, List.append_assoc] at hrest
    cases t
    case nil => exact absurd (List.append_eq_nil_iff.mp hrest).left String.utf8EncodeChar_ne_nil
    case cons d t =>
      rw [bytes_cons] at hrest
      obtain rfl := eq_of_utf8EncodeChar_append hrest
      exact (List.prefix_cons_inj c).mpr (ih ⟨rest, List.append_cancel_left hrest⟩)

theorem bytes_drop_of_suffix? {i : Nat} (h : t.suffix? i = some s) : t.bytes.drop i = s.bytes := by
  obtain ⟨before, rfl, rfl⟩ := suffix?_eq_some_iff.mp h
  rw [bytes_append, ← length_bytes, List.drop_left]

end Text

namespace Code

structure IsGroup (opener : Char) (inside : Text) (closer : Char) : Prop where
  isOpener : isOpener opener
  isCloser : isCloser closer
  group?_eq : ∀ rest, group? (opener :: (inside ++ closer :: rest)) = some (inside, rest)

variable {s u inside rest : Text} {opener closer : Char} {i j n : Nat}

theorem exists_isGroup (h : closer? s i = some n) :
    ∃ opener inside closer rest, IsGroup opener inside closer ∧
    s.suffix? i = some (opener :: (inside ++ closer :: rest)) ∧ n = i + 1 + inside.size := by
  obtain ⟨opener, inside, closer, rest, ho, hc, hs, hg, hn⟩ := Cursor.exists_group_of_closer? h
  obtain ⟨taken, htaken, hgroup⟩ := group?_inside hg
  have htake : taken = opener :: (inside ++ [closer]) := by
    rw [List.append_cons, ← List.cons_append] at htaken
    exact (List.append_cancel_right htaken).symm
  refine ⟨opener, inside, closer, rest, ⟨ho, hc, fun u => ?_⟩, hs, hn⟩
  simpa [htake] using hgroup u

namespace IsGroup

theorem closer?_eq (h : IsGroup opener inside closer)
    (hs : u.suffix? j = some (opener :: (inside ++ closer :: rest))) :
    closer? u j = some (j + 1 + inside.size) := by
  rw [Cursor.closer?_eq hs, h.group?_eq]
  rfl

theorem size_eq (h : IsGroup opener inside closer) :
    Text.size (opener :: (inside ++ [closer])) = inside.size + 2 := by
  have ho := utf8Size_of_ascii (Cursor.onlyAscii_isOpener.toNat_lt h.isOpener)
  have hc := utf8Size_of_ascii (Cursor.onlyAscii_isCloser.toNat_lt h.isCloser)
  simp [ho, hc]
  omega

-- The byte of the opener is no part of another character, so the bytes of a group are those of its
-- characters.
theorem exists_suffix? (h : IsGroup opener inside closer)
    (hb : (u.bytes.drop j).take (inside.size + 2) = Text.bytes (opener :: (inside ++ [closer]))) :
    ∃ rest, u.suffix? j = some (opener :: (inside ++ closer :: rest)) := by
  have ho := Cursor.onlyAscii_isOpener.toNat_lt h.isOpener
  have hcode : u.code? j = some opener := by
    have hfirst :=
      (Text.code?_eq_some_iff ho).mpr ⟨_, Text.suffix?_zero (opener :: (inside ++ [closer]))⟩
    rw [Text.code?, Text.byte?, ← hb, List.getElem?_take_of_lt (by omega),
      List.getElem?_drop] at hfirst
    exact hfirst
  obtain ⟨t, ht⟩ := (Text.code?_eq_some_iff ho).mp hcode
  rw [Text.bytes_drop_of_suffix? ht] at hb
  obtain ⟨rest, hrest⟩ := Text.prefix_of_bytes (hb ▸ List.take_prefix _ _)
  exact ⟨rest, by simpa [← hrest] using ht⟩

end IsGroup

theorem closer?_local (h : closer? s i = some n) :
    (∀ p t, closer? (p ++ s ++ t) (p.size + i) = some (p.size + n)) ∧
      ∀ u j, (u.bytes.drop j).take (n + 1 - i) = (s.bytes.drop i).take (n + 1 - i) →
        closer? u j = some (j + (n - i)) := by
  obtain ⟨opener, inside, closer, rest, hg, hs, rfl⟩ := exists_isGroup h
  have hlength : i + 1 + inside.size + 1 - i = inside.size + 2 := by omega
  refine ⟨fun p t => ?_, fun u j hb => ?_⟩
  · obtain ⟨before, rfl, rfl⟩ := Text.suffix?_eq_some_iff.mp hs
    have hplace := Text.suffix?_append (p ++ before) (opener :: (inside ++ closer :: (rest ++ t)))
    have hclose := hg.closer?_eq hplace
    simpa [Nat.add_assoc] using hclose
  · rw [hlength, Text.bytes_drop_of_suffix? hs] at hb
    have hspan : (Text.bytes (opener :: (inside ++ closer :: rest))).take (inside.size + 2) =
        Text.bytes (opener :: (inside ++ [closer])) := by
      have happend : opener :: (inside ++ closer :: rest) =
          opener :: (inside ++ [closer]) ++ rest := by simp
      rw [happend, ← hg.size_eq, ← Text.length_bytes, Text.bytes_append, List.take_left]
    obtain ⟨after, hafter⟩ := hg.exists_suffix? (hb.trans hspan)
    rw [hg.closer?_eq hafter, Option.some.injEq]
    omega

theorem closer?_local_nested :
    closer? "é(')', /*)*/ `)$\x7bg(\x7b'\x7d'\x7d)\x7d` //)\n\x7d\"".toList 2 = some 33 ∧
      closer? "\"'/*é(')', /*)*/ `)$\x7bg(\x7b'\x7d'\x7d)\x7d` //)\n\x7d\")".toList 6 =
        some 37 := by
  have h : closer? "é(')', /*)*/ `)$\x7bg(\x7b'\x7d'\x7d)\x7d` //)\n\x7d\"".toList 2 = some 33 := by
    decide
  have happend : "\"'/*é(')', /*)*/ `)$\x7bg(\x7b'\x7d'\x7d)\x7d` //)\n\x7d\")".toList =
      "\"'/*".toList ++ "é(')', /*)*/ `)$\x7bg(\x7b'\x7d'\x7d)\x7d` //)\n\x7d\"".toList ++
      ")".toList := by
    decide +kernel
  rw [happend]
  exact ⟨h, (closer?_local h).left "\"'/*".toList ")".toList⟩

end Code
end Componentry
