import Componentry.Proofs.Files.Changes
import Componentry.Proofs.Text.Order

/-!
The list of the files that are found at or below a path. Main statement: in every tree the list has
just the regular files there whose last name has the extension, each of them once and in the order
of paths, which is by component and not by the bytes of the whole path.
-/
namespace Componentry

namespace Path

namespace Component

def rank : Component → Nat
  | .root => 0
  | .here => 1
  | .up => 2
  | .name _ => 3

def text : Component → Text
  | .name text => text
  | _ => []

def Before (a b : Component) : Prop :=
  a.rank < b.rank ∨ a.rank = b.rank ∧ a.text.bytes < b.text.bytes

def key (a : Component) : Text :=
  Char.ofNat a.rank :: a.text

theorem rank_lt (a : Component) : a.rank < 4 := by
  cases a <;> simp [rank]

theorem key_injective : Function.Injective key := by
  intro a b h
  cases a <;> cases b <;> simp_all [key, rank, text]

theorem key_lt_key_iff {a b : Component} : key a < key b ↔ Before a b := by
  have hranks : ∀ m < 4, ∀ n < 4, (Char.ofNat m < Char.ofNat n ↔ m < n) ∧
      (Char.ofNat m = Char.ofNat n ↔ m = n) := by decide
  have hrank := hranks a.rank a.rank_lt b.rank b.rank_lt
  rw [key, key, List.cons_lt_cons_iff, hrank.left, hrank.right, Before, Text.bytes_lt_bytes_iff]

end Component

-- The order of paths. A path comes after every other that its components start with.
def Before (p q : Path) : Prop :=
  List.Lex Component.Before p.components q.components

theorem sortKey_eq (p : Path) : p.sortKey = p.components.map Component.key := by
  refine List.map_congr_left fun a _ => ?_
  cases a <;> rfl

theorem map_key_lt_iff {as bs : List Component} :
    as.map Component.key < bs.map Component.key ↔ List.Lex Component.Before as bs := by
  induction as generalizing bs
  case nil => cases bs <;> simp
  case cons a as ih =>
    cases bs
    case nil => simp
    case cons b bs =>
      rw [List.map_cons, List.map_cons, List.cons_lt_cons_iff, ih, Component.key_lt_key_iff,
        Component.key_injective.eq_iff, List.cons_lex_cons_iff]

theorem sortKey_lt_iff {p q : Path} : p.sortKey < q.sortKey ↔ p.Before q := by
  rw [sortKey_eq, sortKey_eq, map_key_lt_iff, Before]

-- The last component is a name that goes on after its stem with a dot and the extension.
def HasExtension (p : Path) (extension : Text) : Prop :=
  ∃ stem, p.components.getLast? = some (.name (stem ++ '.' :: extension)) ∧
    stem ≠ [] ∧ '.' ∉ extension

theorem hasExtension_iff {p : Path} {name extension : Text}
    (h : p.components.getLast? = some (.name name)) :
    p.HasExtension extension ↔ (splitExtension name).2 = some extension := by
  constructor
  case mp =>
    rintro ⟨stem, hlast, hs, hx⟩
    rw [h] at hlast
    cases hlast
    rw [splitExtension_eq_some_iff.mpr ⟨rfl, hx, hs⟩]
  case mpr =>
    intro hx
    obtain ⟨stem, rfl, hdot, hs⟩ := exists_stem hx
    exact ⟨stem, h, hs, hdot⟩

inductive EndsWith (name : Text) : Path → Prop
  | here : EndsWith name ⟨name⟩
  | join {d : Path} (hd : d.text ≠ []) : EndsWith name (d.join ⟨name⟩)

theorem exists_endsWith (p : Path) : ∃ part, '/' ∉ part ∧ EndsWith part p := by
  by_cases hsep : '/' ∈ p.text
  case neg => exact ⟨p.text, hsep, .here⟩
  case pos =>
    obtain ⟨lead, part, hp, hpart⟩ := Text.exists_last hsep
    have hrelative : Path.isAbsolute ⟨part⟩ = false := by
      rw [Path.isAbsolute, decide_eq_false_iff_not]
      exact fun hh => hpart (List.mem_of_head? hh)
    have hjoin : p = Path.join ⟨lead ++ ['/']⟩ ⟨part⟩ := by
      cases p
      simp_all [Path.join]
    exact ⟨part, hpart, hjoin ▸ .join (by simp)⟩

theorem EndsWith.text_eq {p : Path} {part : Text} (h : EndsWith part p) (hp : '/' ∉ part) :
    p.text = part ∨ ∃ lead, p.text = lead ++ '/' :: part := by
  cases h
  case here => exact .inl rfl
  case join d hd =>
    obtain ⟨lead, _, _, hjoin⟩ := exists_lead hd
    exact .inr ⟨lead, by rw [hjoin part hp]⟩

theorem trimTail_reverse {part : Text} (hp : IsPart part) :
    trimTail part.reverse = part.reverse := by
  have hsep : '/' ∉ part.reverse := by simpa using hp.not_separator
  generalize part.reverse = t at hsep
  unfold trimTail
  split
  case h_4 => rfl
  all_goals simp at hsep

theorem EndsWith.extension?_eq {p : Path} {name : Text} (h : EndsWith name p)
    (hn : IsFileName name) :
    p.components.getLast? = some (.name name) ∧ p.extension? = (splitExtension name).2 := by
  cases h
  case here =>
    have hparts := Text.splitAt_of_not_mem hn.not_separator
    have hrun : ∀ c ∈ name.reverse, decide (c ≠ '/') := Text.ne_of_mem_reverse hn.not_separator
    have hlast : Path.lastName? ⟨name⟩ = some ([], name) := by
      simp only [lastName?, trimTail_reverse hn.toIsPart, List.takeWhile_eq_self_iff.mpr hrun,
        List.dropWhile_eq_nil_iff.mpr hrun, List.reverse_reverse, List.reverse_nil,
        component?_name hn]
    refine ⟨?_, by simp [extension?, hlast]⟩
    simp [components, hn.isAbsolute_eq_false, hparts, hn.ne_here, component?_name hn]
  case join d hd =>
    refine ⟨?_, extension?_join hd hn⟩
    rw [components_join hd hn, List.getLast?_concat]

theorem EndsWith.hasExtension_iff {p : Path} {name extension : Text} (h : EndsWith name p)
    (hn : IsFileName name) : p.HasExtension extension ↔ p.extension? = some extension := by
  obtain ⟨hlast, hx⟩ := h.extension?_eq hn
  rw [Path.hasExtension_iff hlast, hx]

end Path

namespace FileSystem

-- A regular file at a path or below it, under the path that leads to it from there.
structure IsFileBelow (files : FileSystem) (p f : Path) : Prop where
  isThere : ∃ entry, files.entry p = .ok entry
  path : ∃ names, (∀ name ∈ names, IsFileName name) ∧ f = pathBelow p names
  isFile : ∃ content, files.entry f = .ok (.file content)

section Below

variable {files : FileSystem} {d p f : Path} {root : Key} {name part extension : Text}
  {names : List Text}

theorem leadsTo_of_locate_join {place : Key} (hd : d.text ≠ []) (hn : IsFileName name)
    (h : files.locate (d.join ⟨name⟩) = .ok place) :
    ∃ key, files.LeadsTo d key ∧ place = key ++ [name] := by
  rw [locate_join hd hn.not_separator, step?_name hn] at h
  rcases hl : files.locate d with fault | key
  case error => simp [hl, Except.bind] at h
  case ok =>
    rcases hk : files.get? key with _ | _ | _
    case none => simp [hl, Except.bind, follow, hk] at h
    case some.file => simp [hl, Except.bind, follow, hk] at h
    case some.directory =>
      simp only [hl, Except.bind, Option.toList_some, follow, hk, Except.ok.injEq] at h
      exact ⟨key, ⟨hl, hk⟩, h.symm⟩

theorem locate_of_entry {content : ByteArray} (h : files.entry p = .ok (.file content)) :
    endsWithSeparator p = false ∧
      ∃ key, files.locate p = .ok key ∧ files.get? key = some (.file content) := by
  rw [entry] at h
  rcases hl : files.locate p with fault | key
  case error => simp [hl] at h
  case ok =>
    rcases hk : files.get? key with _ | _ | _
    case none => simp [hl, hk] at h
    case some.directory => simp [hl, hk] at h
    case some.file =>
      cases hs : endsWithSeparator p
      case true => simp [hl, hk, hs] at h
      case false =>
        simp only [hl, hk, hs] at h
        cases h
        exact ⟨rfl, key, rfl, hk⟩

theorem getLast?_steps {step : Step} (h : Path.EndsWith part p) (hp : '/' ∉ part)
    (hs : step? part = some step) : (steps p).getLast? = some step := by
  cases h
  case here => simp [steps_eq, Text.splitAt_of_not_mem hp, hs]
  case join d hd => simp [steps_join hd hp, hs]

theorem Valid.exists_endsWith (hv : files.Valid) {content : ByteArray}
    (h : files.entry p = .ok (.file content)) : ∃ name, IsFileName name ∧ Path.EndsWith name p := by
  obtain ⟨part, hpart, hends⟩ := p.exists_endsWith
  obtain ⟨hend, key, hl, hk⟩ := locate_of_entry h
  -- A path that ends with no name leads to a directory.
  have hname {step : Step} (hs : step? part = some step) (hn : ∀ name, step ≠ .name name) :
      False := by
    have hlast := getLast?_steps hends hpart hs
    simp [hv.get?_of_locate hl (by simpa [hlast] using hn)] at hk
  refine ⟨part, ⟨⟨?_, ?_, hpart⟩, ?_⟩, hends⟩
  · rintro rfl
    cases hends
    case here => exact text_ne_nil_of_locate hl rfl
    case join d hd =>
      obtain ⟨lead, _, _, hjoin⟩ := Path.exists_lead hd
      simp [endsWithSeparator, hjoin [] hpart] at hend
  · rintro rfl
    exact hname rfl (by simp)
  · rintro rfl
    exact hname rfl (by simp)

theorem leadsTo_of_locate_pathBelow {place : Key} (hp : p.text ≠ [])
    (hn : ∀ n ∈ name :: names, IsFileName n)
    (h : files.locate (pathBelow p (name :: names)) = .ok place) :
    ∃ root, files.LeadsTo p root ∧ place = root ++ name :: names := by
  induction names using List.reverseRecOn generalizing place
  case nil => exact leadsTo_of_locate_join hp (hn name (by simp)) h
  case append_singleton names last ih =>
    rw [← List.cons_append, List.forall_mem_append] at hn
    rw [← List.cons_append, pathBelow_append] at h
    obtain ⟨key, hkey, rfl⟩ :=
      leadsTo_of_locate_join (text_pathBelow_ne_nil hp hn.left) (hn.right last (by simp)) h
    obtain ⟨root, hroot, he⟩ := ih hn.left hkey.locate_eq
    cases he
    exact ⟨root, hroot, by simp⟩

theorem isFileBelow_of_file {content : ByteArray} (hf : files.entry p = .ok (.file content)) :
    files.IsFileBelow p f ↔ f = p := by
  constructor
  case mp =>
    rintro ⟨_, ⟨names, hn, rfl⟩, content', h⟩
    obtain ⟨_, key, hl, hk⟩ := locate_of_entry hf
    obtain ⟨_, place, hb, _⟩ := locate_of_entry h
    cases names
    case nil => rfl
    case cons name names =>
      obtain ⟨root, hroot, _⟩ := leadsTo_of_locate_pathBelow (text_ne_nil_of_locate hl) hn hb
      have hkey := hroot.locate_eq.symm.trans hl
      cases hkey
      simp [hroot.get?_eq] at hk
  case mpr =>
    rintro rfl
    exact ⟨⟨_, hf⟩, ⟨[], by simp, rfl⟩, ⟨_, hf⟩⟩

theorem locate_pathBelow (hp : files.LeadsTo p root) (hn : ∀ n ∈ names, IsFileName n) {place : Key}
    (h : files.locate (pathBelow p names) = .ok place) : place = root ++ names := by
  cases names
  case nil =>
    have heq := h.symm.trans hp.locate_eq
    cases heq
    simp
  case cons name names =>
    obtain ⟨root', hroot, rfl⟩ := leadsTo_of_locate_pathBelow hp.text_ne_nil hn h
    have heq := hroot.locate_eq.symm.trans hp.locate_eq
    cases heq
    rfl

theorem isFileBelow_of_leadsTo (hv : files.Valid) (hp : files.LeadsTo p root) :
    files.IsFileBelow p f ↔ f ∈ files.filesBelow p := by
  rw [mem_filesBelow_iff hv hp]
  constructor
  case mp =>
    rintro ⟨_, ⟨names, hn, rfl⟩, content, h⟩
    obtain ⟨_, key, hl, hk⟩ := locate_of_entry h
    have hkey := locate_pathBelow hp hn hl
    cases hkey
    rcases List.eq_nil_or_concat' names with rfl | ⟨names, name, rfl⟩
    case inl => simp [hp.get?_eq] at hk
    case inr => exact ⟨names, name, content, rfl, by simpa using hk⟩
  case mpr =>
    rintro ⟨names, name, content, rfl, hg⟩
    have hnamed := hv.named _ (mem_entries_of_get? (by simp) hg)
    have hentry := (hv.leadsTo_pathBelow hp hg).entry_name (hnamed name (by simp))
    have hthere : files.entry p = .ok .directory := by simp [entry, hp.locate_eq, hp.get?_eq]
    refine ⟨⟨_, hthere⟩, ⟨names ++ [name], fun n hn => hnamed n ?_, rfl⟩, content, ?_⟩
    · rw [List.append_assoc]
      exact List.mem_append_right root hn
    · rw [pathBelow_append, hentry, hg]
      rfl

-- The path may also be that of a file, and there may be nothing at all.
theorem isFileBelow_iff (hv : files.Valid) : files.IsFileBelow p f ↔ f ∈ files.filesBelow p := by
  rcases he : files.entry p with fault | _ | _
  case error =>
    refine iff_of_false (fun h => ?_) (by simp [filesBelow, he])
    obtain ⟨entry, hentry⟩ := h.isThere
    simp [he] at hentry
  case ok.file => simp [isFileBelow_of_file he, filesBelow, he]
  case ok.directory =>
    obtain ⟨root, hroot⟩ := isDirectory_iff.mp (by simp [isDirectory, he] : files.isDirectory p)
    exact isFileBelow_of_leadsTo hv hroot

theorem IsFileBelow.eq_of_locate {g : Path} (hf : files.IsFileBelow p f)
    (hg : files.IsFileBelow p g)
    (h : files.locate f = files.locate g) : f = g := by
  obtain ⟨entry, he⟩ := hf.isThere
  cases entry
  case file => rw [(isFileBelow_of_file he).mp hf, (isFileBelow_of_file he).mp hg]
  case directory =>
    obtain ⟨root, hp⟩ := isDirectory_iff.mp (by simp [isDirectory, he] : files.isDirectory p)
    obtain ⟨_, ⟨names, hn, rfl⟩, content, hf⟩ := hf
    obtain ⟨_, ⟨others, ho, rfl⟩, _⟩ := hg
    obtain ⟨_, key, hl, _⟩ := locate_of_entry hf
    have hkey := (locate_pathBelow hp hn hl).symm.trans (locate_pathBelow hp ho (h ▸ hl))
    rw [List.append_cancel_left hkey]

end Below

section Find

variable {files : FileSystem} {p f : Path} {extension : Text}

theorem mem_find_iff_isFileBelow (hv : files.Valid) :
    f ∈ files.find p extension ↔ files.IsFileBelow p f ∧ f.HasExtension extension := by
  rw [(find_perm files p extension).mem_iff, List.mem_filter, ← isFileBelow_iff hv]
  refine and_congr_right fun h => ?_
  obtain ⟨content, hf⟩ := h.isFile
  obtain ⟨name, hn, hends⟩ := hv.exists_endsWith hf
  rw [hends.hasExtension_iff hn, decide_eq_true_iff]

theorem find_pairwise_before (hv : files.Valid) (p : Path) (extension : Text) :
    (files.find p extension).Pairwise Path.Before := by
  cases hd : files.isDirectory p
  case true =>
    obtain ⟨root, hp⟩ := isDirectory_iff.mp hd
    exact (find_sorted hv hp).imp Path.sortKey_lt_iff.mp
  case false =>
    -- At most one file is there, at the path itself.
    have hlength : (files.filesBelow p).length ≤ 1 := by
      rcases he : files.entry p with fault | _ | _
      case error => simp [filesBelow, he]
      case ok.file => simp [filesBelow, he]
      case ok.directory => simp [isDirectory, he] at hd
    have hfind : (files.find p extension).length ≤ 1 := by
      rw [(find_perm files p extension).length_eq]
      exact (List.length_filter_le _ _).trans hlength
    rcases hl : files.find p extension with _ | ⟨f, _ | ⟨g, l⟩⟩
    case nil => exact .nil
    case cons.nil => exact List.pairwise_singleton _ f
    case cons.cons => simp [hl] at hfind

-- The list of what is found has the path of each regular file there that has the extension and of
-- nothing else, no two paths for one file, and each path before the next.
theorem find_lists_files (hv : files.Valid) (p : Path) (extension : Text) :
    (∀ f, f ∈ files.find p extension ↔ files.IsFileBelow p f ∧ f.HasExtension extension) ∧
      (files.find p extension).Pairwise (files.locate · ≠ files.locate ·) ∧
      (files.find p extension).Pairwise Path.Before := by
  refine ⟨fun f => mem_find_iff_isFileBelow hv, ?_, find_pairwise_before hv p extension⟩
  refine (find_pairwise_before hv p extension).imp_of_mem fun {f g} hf hg hbefore hlocate => ?_
  have hfile := ((mem_find_iff_isFileBelow hv).mp hf).left
  have hother := ((mem_find_iff_isFileBelow hv).mp hg).left
  rw [hfile.eq_of_locate hother hlocate, ← Path.sortKey_lt_iff] at hbefore
  exact lt_irrefl _ hbefore

end Find

-- A tree in which a directory has the extension, a file has nothing but the extension for its name,
-- and the name of a directory starts the name of a file beside it.
def routes : FileSystem where
  entries :=
    [ (["r".toList], .directory),
      (["r".toList, "c.x".toList], .directory),
      (["r".toList, "c.x".toList, "d.e.x".toList], .file (encode [])),
      (["r".toList, "a-b.x".toList], .file (encode [])),
      (["r".toList, ".x".toList], .file (encode [])),
      (["r".toList, "a".toList], .directory),
      (["r".toList, "a".toList, "b.x".toList], .file (encode [])) ]

theorem find_lists_files_routes : routes.Valid ∧
    routes.find ⟨['r']⟩ ['x'] =
      [⟨"r/a/b.x".toList⟩, ⟨"r/a-b.x".toList⟩, ⟨"r/c.x/d.e.x".toList⟩] ∧
    (routes.find ⟨['r']⟩ ['x']).Pairwise Path.Before := by
  have hv : routes.Valid := by decide
  exact ⟨hv, by cbv, (find_lists_files hv _ _).right.right⟩

end FileSystem
end Componentry
