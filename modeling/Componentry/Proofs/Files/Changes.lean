import Componentry.Proofs.Files.Discovery

/-!
How a tree of files changes. Each operation makes a directory, writes a file or removes one, at the
place to which its path leads, and leaves what is at all other places.
-/
namespace Componentry.FileSystem

-- What is below something is below a directory.
def Grounded (files : FileSystem) : Prop :=
  ∀ key name names entry, files.get? (key ++ name :: names) = some entry →
    files.get? key = some .directory

theorem Valid.grounded {files : FileSystem} (hv : files.Valid) : files.Grounded :=
  fun _ _ _ _ h => hv.get?_of_append h

section Erase

variable {files : FileSystem} {key k : Key}

theorem get?_erase_of_isPrefix (hk : key ≠ []) (h : key <+: k) :
    (files.erase key).get? k = none := by
  have hn : k ≠ [] := by
    rintro rfl
    exact hk (List.prefix_nil.mp h)
  have hfilter := lookup_filter (fun k => !key.isPrefixOf k) k files.entries
  rw [get?_of_ne_nil hn, erase, hfilter, if_neg (by simpa using h)]

theorem Grounded.get?_of_isPrefix (hg : files.Grounded) {content : ByteArray}
    (hf : files.get? key = some (.file content)) (hp : key <+: k) (hne : k ≠ key) :
    files.get? k = none := by
  obtain ⟨names, rfl⟩ := hp
  cases names
  case nil => simp at hne
  case cons name names =>
    cases he : files.get? (key ++ name :: names)
    case none => rfl
    case some entry => simp [hg key name names entry he] at hf

end Erase

section Valid

variable {files : FileSystem}

theorem Valid.set (hv : files.Valid) {parent : Key} {name : Text}
    (hp : files.get? parent = some .directory) (hn : IsFileName name) {entry : Entry}
    (hfree : files.get? (parent ++ [name]) ≠ some .directory) :
    (files.set (parent ++ [name]) entry).Valid := by
  have hkeeps := keepsDirectories_set hfree entry
  refine ⟨?distinct, List.forall_mem_cons.mpr ⟨?_, fun e he => ?_⟩,
    List.forall_mem_cons.mpr ⟨⟨by simp, ?_⟩, fun e he => ?_⟩, hkeeps.get?_eq _ hv.current⟩
  case distinct =>
    refine List.nodup_cons.mpr ⟨by simp, ?_⟩
    exact hv.distinct.sublist (List.filter_sublist.map _)
  · exact List.forall_mem_append.mpr ⟨hv.isFileName_of_directory hp, by simpa using hn⟩
  · exact hv.named e (List.mem_of_mem_filter he)
  · rw [List.dropLast_concat]
    exact hkeeps.get?_eq _ hp
  · have ⟨hne, hd⟩ := hv.rooted e (List.mem_of_mem_filter he)
    exact ⟨hne, hkeeps.get?_eq _ hd⟩

theorem Valid.erase (hv : files.Valid) {key : Key} {content : ByteArray}
    (hk : files.get? key = some (.file content)) : (files.erase key).Valid := by
  have hcurrent : ¬key <+: files.current := by
    intro hp
    have hd := hv.current
    by_cases he : files.current = key
    case pos => simp [he, hk] at hd
    case neg => simp [hv.grounded.get?_of_isPrefix hk hp he] at hd
  refine ⟨hv.distinct.sublist (List.filter_sublist.map _),
    fun e he => hv.named e (List.mem_of_mem_filter he), fun e he => ?_, ?current⟩
  case current => exact (get?_erase_of_not_isPrefix hcurrent).trans hv.current
  have ⟨hm, hp⟩ := List.mem_filter.mp he
  have ⟨hne, hd⟩ := hv.rooted e hm
  refine ⟨hne, ?_⟩
  rw [get?_erase_of_not_isPrefix, hd]
  intro h
  simp [List.isPrefixOf_iff_prefix.mpr (h.trans (List.dropLast_prefix e.1))] at hp

end Valid

inductive Change (files : FileSystem) : Key → FileSystem → Prop
  | make {parent name} (hp : files.get? parent = some .directory)
    (hn : files.get? (parent ++ [name]) = none) :
    Change files (parent ++ [name]) (files.set (parent ++ [name]) .directory)
  | write {parent name} (content : ByteArray) (hp : files.get? parent = some .directory)
    (hn : files.get? (parent ++ [name]) ≠ some .directory) :
    Change files (parent ++ [name]) (files.set (parent ++ [name]) (.file content))
  | remove {key content} (hk : files.get? key = some (.file content)) :
    Change files key (files.erase key)

namespace Change

variable {files after : FileSystem} {key : Key}

theorem get?_of_ne (h : files.Change key after) (hg : files.Grounded) {k : Key} (hk : k ≠ key) :
    after.get? k = files.get? k := by
  cases h
  case make => exact get?_set_of_ne hk
  case write => exact get?_set_of_ne hk
  case remove content hf =>
    by_cases hp : key <+: k
    case neg => exact get?_erase_of_not_isPrefix hp
    case pos =>
      have hn : key ≠ [] := by
        rintro rfl
        simp [get?] at hf
      rw [get?_erase_of_isPrefix hn hp, hg.get?_of_isPrefix hf hp hk]

theorem current_eq (h : files.Change key after) : after.current = files.current := by
  cases h <;> rfl

theorem keepsDirectories (h : files.Change key after) (hg : files.Grounded) :
    files.KeepsDirectories after := by
  refine ⟨h.current_eq, fun k hk => ?_⟩
  by_cases he : k = key
  case neg => rw [h.get?_of_ne hg he, hk]
  case pos =>
    subst he
    cases h
    case make hn => simp [hn] at hk
    case write hn => exact absurd hk hn
    case remove hf => simp [hk] at hf

theorem grounded (h : files.Change key after) (hg : files.Grounded) : after.Grounded := by
  intro k name names entry he
  apply (h.keepsDirectories hg).get?_eq
  by_cases hk : k ++ name :: names = key
  case neg =>
    rw [h.get?_of_ne hg hk] at he
    exact hg k name names entry he
  case pos =>
    -- The entry is new, in a directory that was there.
    have hparent {parent : Key} {last : Text} (hl : k ++ name :: names = parent ++ [last])
        (hp : files.get? parent = some .directory) : files.get? k = some .directory := by
      rcases List.eq_nil_or_concat' names with rfl | ⟨between, last', rfl⟩
      case inl => rwa [(List.append_inj' hl rfl).left]
      case inr =>
        rw [← List.cons_append, ← List.append_assoc] at hl
        rw [← (List.append_inj' hl rfl).left] at hp
        exact hg k name between _ hp
    cases h
    case make hp _ => exact hparent hk hp
    case write hp _ => exact hparent hk hp
    case remove hf =>
      rw [hk] at he
      have hn : key ≠ [] := by simp [← hk]
      simp [get?_erase_of_isPrefix hn (List.prefix_refl key)] at he

theorem valid (h : files.Change key after) (hv : files.Valid) (hn : ∀ name ∈ key, IsFileName name) :
    after.Valid := by
  cases h
  case make hp hk => exact hv.set hp (hn _ (by simp)) (by simp [hk])
  case write hp hk => exact hv.set hp (hn _ (by simp)) hk
  case remove hk => exact hv.erase hk

end Change

-- Some changes one after the other, all at certain places.
inductive Changes (places : Key → Prop) (files : FileSystem) : FileSystem → Prop
  | refl : Changes places files files
  | step {now after key} (h : Changes places files now) (hk : places key)
    (hc : now.Change key after) :
    Changes places files after

namespace Changes

variable {places : Key → Prop} {files now after : FileSystem} {key : Key}

theorem single (hk : places key) (h : files.Change key after) : Changes places files after :=
  .step .refl hk h

theorem trans (h : Changes places files now) (h' : Changes places now after) :
    Changes places files after := by
  induction h'
  case refl => exact h
  case step hk hc ih => exact .step ih hk hc

theorem grounded (h : Changes places files after) (hg : files.Grounded) : after.Grounded := by
  induction h
  case refl => exact hg
  case step hc ih => exact hc.grounded ih

theorem keepsDirectories (h : Changes places files after) (hg : files.Grounded) :
    files.KeepsDirectories after := by
  induction h
  case refl => exact .refl files
  case step h _ hc ih => exact ih.trans (hc.keepsDirectories (h.grounded hg))

theorem get?_of_not (h : Changes places files after) (hg : files.Grounded) (hk : ¬places key) :
    after.get? key = files.get? key := by
  induction h
  case refl => rfl
  case step h hp hc ih =>
    have hne : key ≠ _ := fun he => hk (he ▸ hp)
    rw [hc.get?_of_ne (h.grounded hg) hne, ih]

theorem valid (h : Changes places files after) (hv : files.Valid)
    (hn : ∀ key, places key → ∀ name ∈ key, IsFileName name) : after.Valid := by
  induction h
  case refl => exact hv
  case step hk hc ih => exact hc.valid ih (hn _ hk)

end Changes

section Operations

variable {files after : FileSystem} {p : Path} {key : Key}

theorem exists_of_locate {before : List Step} {last : Step} (h : files.locate p = .ok key)
    (hs : steps p = before ++ [last]) :
    ∃ place, files.get? place = some .directory ∧ files.follow place [last] = .ok key := by
  rw [locate, if_neg (text_ne_nil_of_locate h), hs, follow_append] at h
  rcases hf : files.follow (files.start p) before with fault | place
  case error => simp [hf, Except.bind] at h
  case ok =>
    rw [hf, Except.bind] at h
    rcases hk : files.get? place with _ | ⟨content⟩ | _
    case none => simp [follow, hk] at h
    case some.file => simp [follow, hk] at h
    case some.directory => exact ⟨place, hk, h⟩

-- A path that does not end with a name leads to a directory.
theorem Valid.get?_of_locate (hv : files.Valid) (h : files.locate p = .ok key)
    (hn : ∀ name, (steps p).getLast? ≠ some (.name name)) : files.get? key = some .directory := by
  rcases List.eq_nil_or_concat' (steps p) with hs | ⟨before, last, hs⟩
  case inl =>
    rw [locate, if_neg (text_ne_nil_of_locate h), hs, follow, Except.ok.injEq] at h
    rw [← h, start]
    split
    case isTrue => rfl
    case isFalse => exact hv.current
  case inr =>
    obtain ⟨place, hk, hf⟩ := exists_of_locate h hs
    cases last <;> simp only [follow, hk, Except.ok.injEq] at hf
    case here => exact hf ▸ hk
    case name name => simp [hs] at hn
    case up =>
      rw [← hf]
      rcases List.eq_nil_or_concat' place with rfl | ⟨parent, name, rfl⟩
      case inl => rfl
      case inr =>
        rw [List.dropLast_concat]
        exact hv.get?_of_append hk

theorem Valid.locate_cases (hv : files.Valid) (h : files.locate p = .ok key) :
    files.get? key = some .directory ∨
      ∃ parent name, key = parent ++ [name] ∧ files.get? parent = some .directory := by
  by_cases hn : ∃ name, (steps p).getLast? = some (.name name)
  case neg => exact .inl (hv.get?_of_locate h (not_exists.mp hn))
  case pos =>
    obtain ⟨name, hlast⟩ := hn
    obtain ⟨before, hs⟩ := List.getLast?_eq_some_iff.mp hlast
    obtain ⟨parent, hk, hf⟩ := exists_of_locate h hs
    simp only [follow, hk, Except.ok.injEq] at hf
    exact .inr ⟨parent, name, hf.symm, hk⟩

theorem change_of_removeFile (h : files.removeFile p = .ok after) :
    ∃ key, files.locate p = .ok key ∧ files.Change key after := by
  unfold removeFile at h
  split at h
  case h_1 content key he hl =>
    refine ⟨key, hl, ?_⟩
    rw [entry, hl] at he
    rcases hk : files.get? key with _ | ⟨old⟩ | _
    case none => simp [hk] at he
    case some.directory => simp [hk] at he
    case some.file => exact Except.ok.inj h ▸ .remove hk
  case h_2 => simp at h
  case h_3 => simp at h

theorem makeDirectory_eq_ok (h : files.makeDirectory p = .ok after) :
    ∃ key, files.locate p = .ok key ∧ files.get? key = none ∧ after = files.set key .directory := by
  unfold makeDirectory at h
  rcases hl : files.locate p with fault | key
  case error => simp [hl] at h
  case ok =>
    cases hk : files.get? key
    case none => exact ⟨key, rfl, hk, by simpa [hl, hk, eq_comm] using h⟩
    case some => simp [hl, hk] at h

-- What holds at first, and still holds with a directory more on the way, holds in the end.
theorem makeDirectories_induction {motive : FileSystem → Prop} (p : Path) (start : motive files)
    (make : ∀ now q key, Starts q p → motive now → now.locate q = .ok key → now.get? key = none →
      motive (now.set key .directory)) : motive (files.makeDirectories p).1 := by
  have hmake {now next : FileSystem} {q : Path} (hq : Starts q p) (hm : motive now)
      (h : now.makeDirectory q = .ok next) : motive next := by
    have ⟨key, hl, hk, he⟩ := makeDirectory_eq_ok h
    exact he ▸ make now q key hq hm hl hk
  suffices h : ∀ q, Starts q p → motive (files.makeDirectories q).1 from h p (.refl p)
  intro q hq
  fun_induction makeDirectories files q
  case case1 => exact start
  case case2 h => exact hmake hq start h
  case case3 => exact start
  case case4 hp _ _ hr ih => simpa [hr] using ih ((starts_of_parent? hp).trans hq)
  case case5 hp _ hr _ h ih =>
    exact hmake hq (by simpa [hr] using ih ((starts_of_parent? hp).trans hq)) h
  case case6 hp _ hr _ _ ih => simpa [hr] using ih ((starts_of_parent? hp).trans hq)
  case case7 => exact start

theorem get?_makeDirectories (files : FileSystem) (p : Path) (key : Key) :
    (files.makeDirectories p).1.get? key = files.get? key ∨
      files.get? key = none ∧ (files.makeDirectories p).1.get? key = some .directory := by
  refine @makeDirectories_induction files (fun now => now.get? key = files.get? key ∨
    files.get? key = none ∧ now.get? key = some .directory) p (.inl rfl) fun now q k _ h _ hk => ?_
  by_cases he : key = k
  case neg => rwa [get?_set_of_ne he]
  case pos =>
    subst he
    have hn : key ≠ [] := by
      rintro rfl
      simp [get?] at hk
    rw [get?_set_self hn]
    rcases h with h | ⟨_, h⟩
    case inl => exact .inr ⟨h.symm.trans hk, rfl⟩
    case inr => simp [hk] at h

-- A path that does not go up leads through its names, and all that is missing there is made.
theorem isPrefix_of_makeDirectories (hu : .up ∉ steps p) (hn : files.get? key = none)
    (hd : (files.makeDirectories p).1.get? key ≠ none) :
    key <+: files.start p ++ namesOf (steps p) := by
  have h := @makeDirectories_induction files (fun now => now.current = files.current ∧
    (now.get? key ≠ none → key <+: files.start p ++ namesOf (steps p))) p ⟨rfl, absurd hn⟩
    fun now q k hq ⟨hc, h⟩ hl _ => ⟨hc, fun hk => ?_⟩
  · exact h.right hd
  by_cases he : key = k
  case neg => exact h (by rwa [get?_set_of_ne he] at hk)
  case pos =>
    subst he
    rw [locate, if_neg (text_ne_nil_of_locate hl)] at hl
    rw [follow_eq_append hl fun hm => hu (hq.steps_isPrefix.subset hm), start, start, hc,
      hq.isAbsolute_eq]
    exact (List.prefix_append_right_inj _).mpr (hq.steps_isPrefix.filterMap _)

theorem Valid.changes_makeDirectories (hv : files.Valid) (p : Path) :
    (files.makeDirectories p).1.Valid ∧
      Changes (files.get? · = none) files (files.makeDirectories p).1 := by
  refine @makeDirectories_induction files
    (fun now => now.Valid ∧ Changes (files.get? · = none) files now) p ⟨hv, .refl⟩
    fun now q key _ ⟨hv', h⟩ hl hk => ?_
  rcases hv'.locate_cases hl with hd | ⟨parent, name, rfl, hp⟩
  case inl => simp [hk] at hd
  case inr =>
    have hname := hv'.locate_named hl name (by simp)
    refine ⟨hv'.set hp hname (by simp [hk]), .step h ?_ (.make hp hk)⟩
    by_contra hn
    exact hn (h.get?_of_not hv.grounded hn ▸ hk)

theorem find_makeDirectories (p : Path) {q : Path} (hq : files.isDirectory q) (extension : Text) :
    (files.makeDirectories p).1.find q extension = files.find q extension := by
  have h := @makeDirectories_induction files
    (fun now => files.KeepsDirectories now ∧ now.find q extension = files.find q extension) p
    ⟨.refl files, rfl⟩ fun now _ key _ ⟨hd, hf⟩ _ hk => ?_
  · exact h.right
  · have hn : key ≠ [] := by
      rintro rfl
      simp [get?] at hk
    exact ⟨hd.trans (keepsDirectories_set (by simp [hk]) _),
      (find_set_directory hn hk (hd.isDirectory hq) _).trans hf⟩

theorem isDirectory_makeDirectories (h : (files.makeDirectories p).2 = .ok ()) :
    p.text = [] ∨ (files.makeDirectories p).1.isDirectory p := by
  have hmake {now next : FileSystem} (h : now.makeDirectory p = .ok next) : next.isDirectory p := by
    have ⟨key, hl, hk, he⟩ := makeDirectory_eq_ok h
    have hn : key ≠ [] := by
      rintro rfl
      simp [get?] at hk
    have hkeeps : now.KeepsDirectories next := he ▸ keepsDirectories_set (by simp [hk]) _
    exact isDirectory_iff.mpr ⟨key, hkeeps.locate_eq hl, he ▸ get?_set_self hn⟩
  revert h
  fun_cases makeDirectories files p
  case case1 hc => exact fun _ => .inl (by_contra fun hn => Path.components_ne_nil hn hc)
  case case2 hm => exact fun _ => .inr (hmake hm)
  case case3 => simp
  case case4 => simp
  case case5 hm => exact fun _ => .inr (hmake hm)
  case case6 => split <;> simp_all
  case case7 => split <;> simp_all

end Operations
end Componentry.FileSystem
