import Componentry.Proofs.Files.Path

/-!
The tree of files. A path that ends with a name leads to the entry of that name in the directory
before it, and writing there changes that entry alone.
-/
namespace Componentry.FileSystem

section Entries

theorem lookup_filter (q : Key → Bool) (k : Key) (entries : List (Key × Entry)) :
    (entries.filter fun e => q e.1).lookup k = if q k then entries.lookup k else none := by
  induction entries
  case nil => simp
  case cons e entries ih =>
    cases he : q e.1
    case false =>
      rw [List.filter_cons_of_neg (by simp [he]), ih, List.lookup_cons]
      by_cases hk : k = e.1
      case pos => simp [hk, he]
      case neg => rw [beq_false_of_ne hk]
    case true =>
      rw [List.filter_cons_of_pos (by simp [he]), List.lookup_cons, List.lookup_cons, ih]
      by_cases hk : k = e.1
      case pos => simp [hk, he]
      case neg => rw [beq_false_of_ne hk]

variable {files : FileSystem} {key : Key} {entry : Entry}

theorem get?_of_ne_nil (hk : key ≠ []) : files.get? key = files.entries.lookup key := by
  cases key
  case nil => contradiction
  case cons => rfl

theorem get?_set_self (hk : key ≠ []) : (files.set key entry).get? key = some entry := by
  simp [get?_of_ne_nil hk, set]

theorem get?_set_of_ne {k : Key} (h : k ≠ key) : (files.set key entry).get? k = files.get? k := by
  by_cases hk : k = []
  case pos => rw [hk, get?, get?]
  case neg =>
    have hfilter := lookup_filter (fun k => k ≠ key) k files.entries
    rw [get?_of_ne_nil hk, get?_of_ne_nil hk, set, List.lookup_cons, beq_false_of_ne h, hfilter,
      if_pos (by simpa using h)]

theorem get?_erase_of_not_isPrefix {k : Key} (h : ¬key <+: k) :
    (files.erase key).get? k = files.get? k := by
  by_cases hk : k = []
  case pos => rw [hk, get?, get?]
  case neg =>
    have hfilter := lookup_filter (fun k => !key.isPrefixOf k) k files.entries
    have hp : ¬key.isPrefixOf k := mt List.isPrefixOf_iff_prefix.mp h
    rw [get?_of_ne_nil hk, get?_of_ne_nil hk, erase, hfilter, if_pos (by simp [hp])]

theorem mem_entries_of_get? (hk : key ≠ []) (h : files.get? key = some entry) :
    (key, entry) ∈ files.entries := by
  rw [get?_of_ne_nil hk, List.lookup_eq_some_iff] at h
  have ⟨l₁, l₂, he, _⟩ := h
  simp [he]

end Entries

-- Every entry has a name in a directory, and none is there twice. The current directory is there.
structure Valid (files : FileSystem) : Prop where
  distinct : (files.entries.map Prod.fst).Nodup
  named : ∀ e ∈ files.entries, ∀ name ∈ e.1, IsFileName name
  rooted : ∀ e ∈ files.entries, e.1 ≠ [] ∧ files.get? e.1.dropLast = some .directory
  current : files.get? files.current = some .directory

instance (files : FileSystem) : Decidable files.Valid :=
  decidable_of_iff ((files.entries.map Prod.fst).Nodup ∧
      (∀ e ∈ files.entries, ∀ name ∈ e.1, IsFileName name) ∧
      (∀ e ∈ files.entries, e.1 ≠ [] ∧ files.get? e.1.dropLast = some .directory) ∧
      files.get? files.current = some .directory)
    ⟨fun ⟨h₁, h₂, h₃, h₄⟩ => ⟨h₁, h₂, h₃, h₄⟩, fun ⟨h₁, h₂, h₃, h₄⟩ => ⟨h₁, h₂, h₃, h₄⟩⟩

namespace Valid

variable {files : FileSystem} {key : Key} {entry : Entry}

theorem get?_of_mem (hv : files.Valid) (h : (key, entry) ∈ files.entries) :
    files.get? key = some entry := by
  rw [get?_of_ne_nil (hv.rooted _ h).left]
  have ⟨before, after, he⟩ := List.append_of_mem h
  refine List.lookup_eq_some_iff.mpr ⟨before, after, he, fun e hm => ?_⟩
  have hd := hv.distinct
  rw [he, List.map_append, List.map_cons, List.nodup_middle, List.nodup_cons] at hd
  have hne : e.1 ≠ key := fun hk => hd.left (by simp [← hk, List.mem_map_of_mem hm])
  simpa using hne.symm

theorem get?_of_append (hv : files.Valid) {name : Text} {names : List Text}
    (h : files.get? (key ++ name :: names) = some entry) : files.get? key = some .directory := by
  induction names using List.reverseRecOn generalizing entry
  case nil =>
    have hm := mem_entries_of_get? (by simp) h
    simpa using (hv.rooted _ hm).right
  case append_singleton names last ih =>
    have hm := mem_entries_of_get? (by simp) h
    have hr := (hv.rooted _ hm).right
    rw [← List.cons_append, ← List.append_assoc, List.dropLast_concat] at hr
    exact ih hr

theorem isFileName_of_directory (hv : files.Valid) (h : files.get? key = some .directory) :
    ∀ name ∈ key, IsFileName name := by
  cases key
  case nil => simp
  case cons => exact hv.named _ (mem_entries_of_get? (by simp) h)

end Valid

section Follow

variable {files : FileSystem} {d p : Path} {key : Key} {part name : Text}

theorem follow_append (files : FileSystem) (key : Key) (s t : List Step) :
    files.follow key (s ++ t) = (files.follow key s).bind (files.follow · t) := by
  fun_induction follow files key s
  case case1 => rfl
  case case2 h => simp [follow, h, Except.bind]
  case case3 h => simp [follow, h, Except.bind]
  case case4 h ih => simp [follow, h, ih]
  case case5 h ih => simp [follow, h, ih]
  case case6 h _ ih => simp only [List.cons_append, follow, h, ih]

def step? (part : Text) : Option Step :=
  if part = [] then none
  else if part = ['.'] then some .here
  else if part = ['.', '.'] then some .up
  else some (.name part)

theorem steps_eq (p : Path) : steps p = (Text.splitAt '/' p.text).filterMap step? :=
  rfl

theorem step?_name (hn : IsFileName name) : step? name = some (.name name) := by
  simp [step?, hn.ne_nil, hn.ne_here, hn.ne_up]

theorem isFileName_of_mem_steps (h : .name name ∈ steps p) : IsFileName name := by
  rw [steps_eq, List.mem_filterMap] at h
  have ⟨part, hm, hs⟩ := h
  unfold step? at hs
  split_ifs at hs with hnil hhere hup
  · simp at hs
  · simp at hs
  · cases hs
    exact ⟨⟨hnil, hhere, Text.not_mem_of_mem_splitAt hm⟩, hup⟩

theorem follow_named {place : Key} {steps : List Step} (h : files.follow place steps = .ok key)
    (hs : ∀ name, .name name ∈ steps → IsFileName name) (hp : ∀ name ∈ place, IsFileName name) :
    ∀ name ∈ key, IsFileName name := by
  fun_induction follow files place steps
  case case1 => exact Except.ok.inj h ▸ hp
  case case2 => simp at h
  case case3 => simp at h
  case case4 ih => exact ih h (fun name hn => hs name (by simp [hn])) hp
  case case5 k steps _ ih =>
    exact ih h (fun name hn => hs name (by simp [hn])) fun name hn =>
      hp name (List.dropLast_subset k hn)
  case case6 k steps _ last ih =>
    refine ih h (fun name hn => hs name (by simp [hn])) (List.forall_mem_append.mpr ⟨hp, ?_⟩)
    exact List.forall_mem_singleton.mpr (hs last (by simp))

def namesOf (steps : List Step) : List Text :=
  steps.filterMap fun
    | .name text => some text
    | _ => none

theorem follow_eq_append {place : Key} {steps : List Step} (h : files.follow place steps = .ok key)
    (hu : .up ∉ steps) : key = place ++ namesOf steps := by
  fun_induction follow files place steps
  case case1 => simpa [namesOf, eq_comm] using h
  case case2 => simp at h
  case case3 => simp at h
  case case4 ih => simpa [namesOf] using ih h (by simpa using hu)
  case case5 => simp at hu
  case case6 ih => simpa [namesOf] using ih h (by simpa using hu)

theorem steps_join (hd : d.text ≠ []) (hp : '/' ∉ part) :
    steps (d.join ⟨part⟩) = steps d ++ (step? part).toList :=
  Path.splitAt_join hd hp rfl

theorem text_ne_nil_of_locate (h : files.locate p = .ok key) : p.text ≠ [] := by
  intro ht
  simp [locate, ht] at h

theorem Valid.locate_named (hv : files.Valid) (h : files.locate p = .ok key) :
    ∀ name ∈ key, IsFileName name := by
  rw [locate, if_neg (text_ne_nil_of_locate h)] at h
  refine follow_named h (fun name => isFileName_of_mem_steps) ?_
  unfold start
  split
  case isTrue => simp
  case isFalse => exact hv.isFileName_of_directory hv.current

theorem locate_join (hd : d.text ≠ []) (hp : '/' ∉ part) :
    files.locate (d.join ⟨part⟩) =
      (files.locate d).bind (files.follow · (step? part).toList) := by
  rw [locate, if_neg (Path.text_join_ne_nil hd hp), start, Path.isAbsolute_join hd hp,
    steps_join hd hp, follow_append, locate, if_neg hd, start]

end Follow

structure LeadsTo (files : FileSystem) (d : Path) (key : Key) : Prop where
  locate_eq : files.locate d = .ok key
  get?_eq : files.get? key = some .directory

section Directory

variable {files : FileSystem} {p : Path}

theorem isDirectory_iff : files.isDirectory p ↔ ∃ key, files.LeadsTo p key := by
  constructor
  case mp =>
    intro h
    cases hl : files.locate p
    case error => simp [isDirectory, entry, hl] at h
    case ok key =>
      rcases hk : files.get? key with _ | _ | _
      case none => simp [isDirectory, entry, hl, hk] at h
      case some.file =>
        cases hs : endsWithSeparator p <;> simp [isDirectory, entry, hl, hk, hs] at h
      case some.directory => exact ⟨key, hl, hk⟩
  case mpr =>
    intro ⟨key, hl⟩
    simp [isDirectory, entry, hl.locate_eq, hl.get?_eq]

theorem isDirectory_congr {q : Path} (hp : p.text ≠ []) (hq : q.text ≠ [])
    (ha : p.isAbsolute = q.isAbsolute) (hs : steps p = steps q) :
    files.isDirectory p = files.isDirectory q := by
  have hl : files.locate p = files.locate q := by
    rw [locate, locate, if_neg hp, if_neg hq, start, start, ha, hs]
  rw [Bool.eq_iff_iff, isDirectory_iff, isDirectory_iff]
  exact exists_congr fun key => ⟨fun h => ⟨hl.symm.trans h.locate_eq, h.get?_eq⟩,
    fun h => ⟨hl.trans h.locate_eq, h.get?_eq⟩⟩

end Directory

section Parent

variable {files : FileSystem} {d : Path} {part : Text}

theorem isAbsolute_append {t : Text} (ht : t ≠ []) (s : Text) :
    Path.isAbsolute ⟨t ++ s⟩ = Path.isAbsolute ⟨t⟩ := by
  rw [Path.isAbsolute, List.head?_append_of_ne_nil _ ht, Path.isAbsolute]

theorem steps_separator (t : Text) : steps ⟨t ++ ['/']⟩ = steps ⟨t⟩ := by
  rw [steps_eq, steps_eq, Text.splitAt_append, List.filterMap_append]
  simp [Text.splitAt, step?]

theorem steps_here (t : Text) : steps ⟨t ++ ['/', '.']⟩ = steps ⟨t⟩ ++ [.here] := by
  rw [steps_eq, steps_eq, Text.splitAt_append, List.filterMap_append]
  simp [Text.splitAt, step?]

theorem isDirectory_separator {t : Text} (ht : t ≠ []) :
    files.isDirectory ⟨t ++ ['/']⟩ = files.isDirectory ⟨t⟩ :=
  isDirectory_congr (by simp) ht (isAbsolute_append ht _) (steps_separator t)

theorem isDirectory_here {t : Text} (h : files.isDirectory ⟨t ++ ['/', '.']⟩) :
    files.isDirectory ⟨t ++ ['/']⟩ := by
  have ⟨key, hl, hk⟩ := isDirectory_iff.mp h
  have ha : Path.isAbsolute ⟨t ++ ['/', '.']⟩ = Path.isAbsolute ⟨t ++ ['/']⟩ := by
    cases t <;> simp [Path.isAbsolute]
  rw [locate, if_neg (by simp), start, steps_here, follow_append, ha, ← start] at hl
  refine isDirectory_iff.mpr ⟨key, ?_, hk⟩
  rw [locate, if_neg (by simp), steps_separator]
  cases hf : files.follow (files.start ⟨t ++ ['/']⟩) (steps ⟨t⟩)
  case error => simp [hf, Except.bind] at hl
  case ok place =>
    rcases hp : files.get? place with _ | _ | _ <;> simp [hf, Except.bind, follow, hp] at hl ⊢
    exact hl

theorem isDirectory_trimTail {t : Text} (h : files.isDirectory ⟨t.reverse⟩) :
    files.isDirectory ⟨(Path.trimTail t).reverse⟩ := by
  fun_induction Path.trimTail t
  case case1 => exact h
  case case2 t ht ih =>
    apply ih
    have hne : t.reverse ≠ [] := by simpa using ht
    simpa [isDirectory_separator hne] using h
  case case3 t ih =>
    apply ih
    rw [List.reverse_cons]
    exact isDirectory_here (by simpa using h)
  case case4 => exact h

-- The directory of a file is there whatever is written at the end of its path.
theorem exists_parent? (hd : files.isDirectory d) (hp : IsPart part) :
    ∃ parent, (d.join ⟨part⟩).parent? = some parent ∧ files.isDirectory parent := by
  have ⟨_, hl⟩ := isDirectory_iff.mp hd
  have hne := text_ne_nil_of_locate hl.locate_eq
  have ⟨lead, htext, hhead, hparent⟩ := Path.exists_parent? hne hp
  refine ⟨_, hparent, isDirectory_trimTail ?_⟩
  rw [List.reverse_reverse]
  rcases htext with he | he
  case inl => rwa [← he]
  case inr => rw [← he, isDirectory_separator hne]; exact hd

structure Starts (q p : Path) : Prop where
  isAbsolute_eq : q.isAbsolute = p.isAbsolute
  steps_isPrefix : steps q <+: steps p

theorem Starts.refl (p : Path) : Starts p p :=
  ⟨rfl, List.prefix_refl _⟩

theorem Starts.trans {p q r : Path} (h : Starts r q) (h' : Starts q p) : Starts r p :=
  ⟨h.isAbsolute_eq.trans h'.isAbsolute_eq, h.steps_isPrefix.trans h'.steps_isPrefix⟩

theorem starts_append (lead rest : Text) : Starts ⟨lead ++ ['/']⟩ ⟨lead ++ '/' :: rest⟩ := by
  constructor
  case isAbsolute_eq => cases lead <;> simp [Path.isAbsolute]
  case steps_isPrefix =>
    rw [steps_separator, steps_eq, steps_eq, Text.splitAt_append, List.filterMap_append]
    exact List.prefix_append _ _

theorem starts_trimTail (t : Text) : Starts ⟨(Path.trimTail t).reverse⟩ ⟨t.reverse⟩ := by
  fun_induction Path.trimTail t
  case case1 => exact .refl _
  case case2 t ht ih =>
    have hne : t.reverse ≠ [] := by simpa using ht
    refine ih.trans ⟨?_, ?_⟩
    · rw [List.reverse_cons, isAbsolute_append hne]
    · rw [List.reverse_cons, steps_separator]
  case case3 t ih =>
    rw [List.reverse_cons] at ih
    simpa using ih.trans (starts_append t.reverse ['.'])
  case case4 => exact .refl _

theorem starts_of_parent? {p q : Path} (h : p.parent? = some q) : Starts q p := by
  unfold Path.parent? at h
  split at h
  case h_1 => simp at h
  case h_2 => simp at h
  case h_3 c t hroot ht =>
    have htrim := starts_trimTail p.text.reverse
    rw [ht, List.reverse_cons, List.reverse_reverse] at htrim
    refine Option.some.inj h ▸ (starts_trimTail _).trans (.trans ?_ htrim)
    by_cases hsep : '/' ∈ t.reverse
    case pos =>
      obtain ⟨lead, last, hlead, hlast⟩ := Text.exists_last hsep
      have hdrop := Text.dropWhile_reverse_append hlast lead
      rw [← hlead, List.reverse_reverse] at hdrop
      rw [hdrop, hlead, List.reverse_cons, List.reverse_reverse, List.append_assoc]
      exact starts_append lead (last ++ [c])
    case neg =>
      have hdrop : t.dropWhile (· ≠ '/') = [] := by
        refine List.dropWhile_eq_nil_iff.mpr fun d hd => decide_eq_true ?_
        rintro rfl
        exact hsep (List.mem_reverse.mpr hd)
      rw [hdrop]
      refine ⟨?_, List.nil_prefix⟩
      rw [eq_comm, Path.isAbsolute, Path.isAbsolute, decide_eq_decide]
      refine iff_of_false (fun hh => ?_) (by simp)
      by_cases hn : t = []
      case pos => exact hroot (by simpa [hn] using hh) hn
      case neg =>
        rw [List.head?_append_of_ne_nil _ (by simpa using hn)] at hh
        exact hsep (List.mem_of_head? hh)

theorem makeDirectories_eq_self {p : Path} (h : files.isDirectory p) :
    files.makeDirectories p = (files, .ok ()) := by
  have ⟨key, hl⟩ := isDirectory_iff.mp h
  rw [makeDirectories]
  split
  case isTrue => rfl
  case isFalse =>
    have hm : files.makeDirectory p = .error .exists := by
      simp [makeDirectory, hl.locate_eq, hl.get?_eq]
    simp [hm]

end Parent

-- A path that can lead to a file, and the place to which it leads.
structure Addresses (files : FileSystem) (p : Path) (place : Key) : Prop where
  locate_eq : files.locate p = .ok place
  not_directory : meansDirectory p = false

namespace Addresses

variable {files after : FileSystem} {p : Path} {place : Key} {part : Text}

theorem here (hc : files.get? files.current = some .directory) (hn : IsFileName part) :
    files.Addresses ⟨part⟩ (files.current ++ [part]) := by
  have hsteps : steps ⟨part⟩ = [.name part] := by
    rw [steps_eq, Text.splitAt_of_not_mem hn.not_separator]
    simp [step?_name hn]
  have hlast : endsWithSeparator ⟨part⟩ = false := by
    rw [endsWithSeparator, decide_eq_false_iff_not]
    exact fun h => hn.not_separator (List.mem_of_getLast? h)
  refine ⟨?_, by simp [meansDirectory, hlast, hsteps]⟩
  rw [locate, if_neg hn.ne_nil, start, hn.isAbsolute_eq_false, hsteps]
  simp [follow, hc]

theorem entry_eq (h : files.Addresses p place) :
    files.entry p = (files.get? place).elim (.error .notFound) .ok := by
  have hs : endsWithSeparator p = false := (Bool.or_eq_false_iff.mp h.not_directory).left
  rw [entry, h.locate_eq]
  cases hk : files.get? place
  case none => simp [hk]
  case some e => cases e <;> simp [hk, hs]

theorem write_eq (h : files.Addresses p place) (content : ByteArray) :
    files.write p content =
      if files.get? place = some .directory then .error .isDirectory
      else .ok (files.set place (.file content)) := by
  rw [write, h.locate_eq]
  cases hk : files.get? place
  case none => simp [hk, h.not_directory]
  case some e => cases e <;> simp [hk, h.not_directory]

theorem readText_congr (h : files.Addresses p place) (h' : after.Addresses p place)
    (he : after.get? place = files.get? place) : after.readText p = files.readText p := by
  rw [readText, readText, h.entry_eq, h'.entry_eq, he]

end Addresses

namespace LeadsTo

variable {files : FileSystem} {d : Path} {key : Key} {name : Text}

theorem text_ne_nil (h : files.LeadsTo d key) : d.text ≠ [] :=
  text_ne_nil_of_locate h.locate_eq

theorem isDirectory (h : files.LeadsTo d key) : files.isDirectory d :=
  isDirectory_iff.mpr ⟨key, h⟩

theorem locate_name (h : files.LeadsTo d key) (hn : IsFileName name) :
    files.locate (d.join ⟨name⟩) = .ok (key ++ [name]) := by
  rw [locate_join h.text_ne_nil hn.not_separator, h.locate_eq, step?_name hn]
  simp [Except.bind, follow, h.get?_eq]

theorem locate_up (h : files.LeadsTo d key) :
    files.locate (d.join ⟨['.', '.']⟩) = .ok key.dropLast := by
  rw [locate_join h.text_ne_nil (by decide), h.locate_eq]
  simp [Except.bind, step?, follow, h.get?_eq]

theorem join (h : files.LeadsTo d key) (hn : IsFileName name)
    (hk : files.get? (key ++ [name]) = some .directory) :
    files.LeadsTo (d.join ⟨name⟩) (key ++ [name]) :=
  ⟨h.locate_name hn, hk⟩

theorem isDirectory_name_iff (h : files.LeadsTo d key) (hn : IsFileName name) :
    files.isDirectory (d.join ⟨name⟩) ↔ files.get? (key ++ [name]) = some .directory := by
  rw [isDirectory_iff]
  constructor
  case mp =>
    intro ⟨place, hl⟩
    cases hl.locate_eq.symm.trans (h.locate_name hn)
    exact hl.get?_eq
  case mpr => exact fun hk => ⟨_, h.join hn hk⟩

theorem addresses (h : files.LeadsTo d key) (hn : IsFileName name) :
    files.Addresses (d.join ⟨name⟩) (key ++ [name]) := by
  have hs : endsWithSeparator (d.join ⟨name⟩) = false := by
    simpa [endsWithSeparator] using Path.getLast?_join h.text_ne_nil hn.toIsPart
  refine ⟨h.locate_name hn, ?_⟩
  simp [meansDirectory, hs, steps_join h.text_ne_nil hn.not_separator, step?_name hn]

theorem entry_name (h : files.LeadsTo d key) (hn : IsFileName name) :
    files.entry (d.join ⟨name⟩) = (files.get? (key ++ [name])).elim (.error .notFound) .ok :=
  (h.addresses hn).entry_eq

theorem write_name (h : files.LeadsTo d key) (hn : IsFileName name) (content : ByteArray) :
    files.write (d.join ⟨name⟩) content =
      if files.get? (key ++ [name]) = some .directory then .error .isDirectory
      else .ok (files.set (key ++ [name]) (.file content)) :=
  (h.addresses hn).write_eq content

theorem write_up (h : files.LeadsTo d key) (content : ByteArray) :
    files.write (d.join ⟨['.', '.']⟩) content = .error .isDirectory := by
  have hm : meansDirectory (d.join ⟨['.', '.']⟩) := by
    simp [meansDirectory, steps_join h.text_ne_nil isPart_up.not_separator, step?]
  simp [write, h.locate_up, hm]

end LeadsTo

-- Directories that are there stay there, and the current one stays current.
structure KeepsDirectories (files after : FileSystem) : Prop where
  current_eq : after.current = files.current
  get?_eq : ∀ key, files.get? key = some .directory → after.get? key = some .directory

namespace KeepsDirectories

variable {files after : FileSystem}

theorem refl (files : FileSystem) : files.KeepsDirectories files :=
  ⟨rfl, fun _ => id⟩

theorem trans {last : FileSystem} (h : files.KeepsDirectories after)
    (h' : after.KeepsDirectories last) : files.KeepsDirectories last :=
  ⟨h'.current_eq.trans h.current_eq, fun key hk => h'.get?_eq key (h.get?_eq key hk)⟩

theorem follow_eq (h : files.KeepsDirectories after) {place key : Key} {steps : List Step}
    (hf : files.follow place steps = .ok key) : after.follow place steps = .ok key := by
  fun_induction follow files place steps
  case case1 => simpa [follow] using hf
  case case2 => simp at hf
  case case3 => simp at hf
  case case4 hk ih => simpa [follow, h.get?_eq _ hk] using ih hf
  case case5 hk ih => simpa [follow, h.get?_eq _ hk] using ih hf
  case case6 hk _ ih => simpa [follow, h.get?_eq _ hk] using ih hf

theorem locate_eq (h : files.KeepsDirectories after) {p : Path} {key : Key}
    (hl : files.locate p = .ok key) : after.locate p = .ok key := by
  have hne := text_ne_nil_of_locate hl
  rw [locate, if_neg hne, start] at hl
  rw [locate, if_neg hne, start, h.current_eq]
  exact h.follow_eq hl

theorem leadsTo (h : files.KeepsDirectories after) {d : Path} {key : Key}
    (hd : files.LeadsTo d key) : after.LeadsTo d key :=
  ⟨h.locate_eq hd.locate_eq, h.get?_eq key hd.get?_eq⟩

theorem isDirectory (h : files.KeepsDirectories after) {p : Path} (hp : files.isDirectory p) :
    after.isDirectory p := by
  have ⟨key, hl⟩ := isDirectory_iff.mp hp
  exact (h.leadsTo hl).isDirectory

theorem leadsTo_of_isDirectory (h : files.KeepsDirectories after) {p : Path} {key : Key}
    (hp : files.isDirectory p) (hd : after.LeadsTo p key) : files.LeadsTo p key := by
  have ⟨place, hl⟩ := isDirectory_iff.mp hp
  cases hd.locate_eq.symm.trans (h.locate_eq hl.locate_eq)
  exact hl

end KeepsDirectories

theorem keepsDirectories_set {files : FileSystem} {key : Key}
    (h : files.get? key ≠ some .directory) (entry : Entry) :
    files.KeepsDirectories (files.set key entry) := by
  refine ⟨rfl, fun k hk => ?_⟩
  rw [get?_set_of_ne, hk]
  rintro rfl
  exact h hk

end Componentry.FileSystem
