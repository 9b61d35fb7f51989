import Componentry.Proofs.Files.Tree

/-!
The files that are found below a directory: each once, in the order of paths, with the names that
lead to it from there.
-/
namespace Componentry.FileSystem

section Below

variable {p : Path} {names : List Text} {name : Text}

theorem pathBelow_append (p : Path) (names : List Text) (name : Text) :
    pathBelow p (names ++ [name]) = (pathBelow p names).join ⟨name⟩ := by
  simp [pathBelow]

theorem text_pathBelow_ne_nil (hp : p.text ≠ []) (hn : ∀ name ∈ names, IsFileName name) :
    (pathBelow p names).text ≠ [] := by
  induction names using List.reverseRecOn
  case nil => exact hp
  case append_singleton names name ih =>
    have ⟨hnames, hname⟩ := List.forall_mem_append.mp hn
    rw [pathBelow_append]
    exact Path.text_join_ne_nil (ih hnames) (hname name (by simp)).not_separator

theorem components_pathBelow (hp : p.text ≠ []) (hn : ∀ name ∈ names, IsFileName name) :
    (pathBelow p names).components = p.components ++ names.map .name := by
  induction names using List.reverseRecOn
  case nil => simp [pathBelow]
  case append_singleton names name ih =>
    have ⟨hnames, hname⟩ := List.forall_mem_append.mp hn
    rw [pathBelow_append, Path.components_join (text_pathBelow_ne_nil hp hnames)
      (hname name (by simp)), ih hnames]
    simp

theorem sortKey_pathBelow_inj {others : List Text} (hp : p.text ≠ [])
    (hn : ∀ name ∈ names, IsFileName name) (ho : ∀ name ∈ others, IsFileName name)
    (h : (pathBelow p names).sortKey = (pathBelow p others).sortKey) : names = others := by
  simp only [Path.sortKey, components_pathBelow hp hn, components_pathBelow hp ho, List.map_append,
    List.map_map, List.append_cancel_left_eq] at h
  exact List.map_injective_iff.mpr (fun s t he => by simpa using he) h

end Below

-- A file with an extension, by the names that lead to its directory and its own.
structure Found (files : FileSystem) (p : Path) (root : Key) (extension : Text) (names : List Text)
    (name : Text) : Prop where
  isFileName : IsFileName name
  extension_eq : (Path.splitExtension name).2 = some extension
  leadsTo : files.LeadsTo (pathBelow p names) (root ++ names)
  isFile : ∃ content, files.get? (root ++ names ++ [name]) = some (.file content)

section Find

variable {files : FileSystem} {p f : Path} {root : Key} {extension : Text}

theorem Valid.leadsTo_pathBelow (hv : files.Valid) (hp : files.LeadsTo p root) {names : List Text}
    {name : Text} {entry : Entry} (h : files.get? (root ++ names ++ [name]) = some entry) :
    files.LeadsTo (pathBelow p names) (root ++ names) := by
  induction names using List.reverseRecOn generalizing name entry
  case nil => simpa [pathBelow] using hp
  case append_singleton names last ih =>
    have hdirectory : files.get? (root ++ (names ++ [last])) = some .directory :=
      hv.get?_of_append h
    have hm := mem_entries_of_get? (by simp) hdirectory
    have hlast : IsFileName last := hv.named _ hm last (by simp)
    rw [← List.append_assoc] at hdirectory ⊢
    rw [pathBelow_append]
    exact (ih hdirectory).join hlast hdirectory

theorem filesBelow_eq (hp : files.LeadsTo p root) : files.filesBelow p =
    (files.entries.filter fun e => e.2 ≠ .directory && root.isPrefixOf e.1).map fun e =>
      pathBelow p (e.1.drop root.length) := by
  have he : files.entry p = .ok .directory := by simp [entry, hp.locate_eq, hp.get?_eq]
  simp only [filesBelow, he, hp.locate_eq]
  induction files.entries
  case nil => rfl
  case cons e entries ih =>
    obtain ⟨key, entry⟩ := e
    cases entry
    case directory => simpa using ih
    case file =>
      cases hk : root.isPrefixOf key <;> simp [hk, ih, -List.isPrefixOf_iff_prefix]

theorem exists_names (hv : files.Valid) (hp : files.LeadsTo p root) {e : Key × Entry}
    (he : e ∈ files.entries.filter fun e => e.2 ≠ .directory && root.isPrefixOf e.1) :
    ∃ names name content, e = (root ++ names ++ [name], .file content) ∧
      ∀ n ∈ names ++ [name], IsFileName n := by
  simp only [List.mem_filter, Bool.and_eq_true, decide_eq_true_eq] at he
  obtain ⟨hm, hfile, hroot⟩ := he
  obtain ⟨key, entry⟩ := e
  cases entry
  case directory => simp at hfile
  case file content =>
    have ⟨rest, hk⟩ := List.isPrefixOf_iff_prefix.mp hroot
    dsimp only at hk
    subst hk
    have hnamed := hv.named _ hm
    rcases List.eq_nil_or_concat' rest with hr | ⟨names, name, hr⟩
    case inl =>
      have hg := hv.get?_of_mem hm
      simp [hr, hp.get?_eq] at hg
    case inr =>
      subst hr
      exact ⟨names, name, content, by simp, fun n hn => hnamed n (List.mem_append_right _ hn)⟩

theorem mem_filesBelow_iff (hv : files.Valid) (hp : files.LeadsTo p root) :
    f ∈ files.filesBelow p ↔ ∃ names name content, f = pathBelow p (names ++ [name]) ∧
      files.get? (root ++ names ++ [name]) = some (.file content) := by
  rw [filesBelow_eq hp, List.mem_map]
  constructor
  case mp =>
    intro ⟨e, he, hf⟩
    have ⟨names, name, content, heq, _⟩ := exists_names hv hp he
    have hg := hv.get?_of_mem (heq ▸ (List.mem_filter.mp he).left)
    refine ⟨names, name, content, ?_, hg⟩
    rw [← hf, heq, List.append_assoc, List.drop_left]
  case mpr =>
    intro ⟨names, name, content, hf, hg⟩
    refine ⟨_, List.mem_filter.mpr ⟨mem_entries_of_get? (by simp) hg, by simp⟩, ?_⟩
    simp [hf]

theorem nodup_filesBelow (hv : files.Valid) (hp : files.LeadsTo p root) :
    ((files.filesBelow p).map Path.sortKey).Nodup := by
  rw [filesBelow_eq hp, List.map_map]
  have hd : (files.entries.filter fun e => e.2 ≠ .directory && root.isPrefixOf e.1).Nodup :=
    (List.Nodup.of_map Prod.fst hv.distinct).filter _
  refine List.Nodup.map_on (fun e he e' he' h => ?_) hd
  have ⟨names, name, content, heq, hn⟩ := exists_names hv hp he
  have ⟨names', name', content', heq', hn'⟩ := exists_names hv hp he'
  simp only [Function.comp, heq, heq', List.append_assoc, List.drop_left] at h
  have hnames := sortKey_pathBelow_inj hp.text_ne_nil hn hn' h
  have hkey : e.1 = e'.1 := by simp [heq, heq', hnames]
  have hm := hv.get?_of_mem (List.mem_filter.mp he).left
  have hm' := hv.get?_of_mem (List.mem_filter.mp he').left
  rw [hkey, hm'] at hm
  exact Prod.ext hkey (Option.some.inj hm).symm

theorem find_perm (files : FileSystem) (p : Path) (extension : Text) :
    (files.find p extension).Perm ((files.filesBelow p).filter (·.extension? = some extension)) :=
  List.mergeSort_perm _ _

theorem mem_find_iff (hv : files.Valid) (hp : files.LeadsTo p root) :
    f ∈ files.find p extension ↔ ∃ names name, f = (pathBelow p names).join ⟨name⟩ ∧
      files.Found p root extension names name := by
  rw [(find_perm files p extension).mem_iff, List.mem_filter, mem_filesBelow_iff hv hp]
  constructor
  case mp =>
    intro ⟨⟨names, name, content, hf, hg⟩, hx⟩
    have hl := hv.leadsTo_pathBelow hp hg
    have hn : IsFileName name := hv.named _ (mem_entries_of_get? (by simp) hg) name (by simp)
    rw [pathBelow_append] at hf
    rw [hf, Path.extension?_join hl.text_ne_nil hn] at hx
    exact ⟨names, name, hf, hn, by simpa using hx, hl, content, hg⟩
  case mpr =>
    intro ⟨names, name, hf, hfound⟩
    have ⟨content, hg⟩ := hfound.isFile
    refine ⟨⟨names, name, content, by rw [hf, pathBelow_append], hg⟩, ?_⟩
    rw [hf, Path.extension?_join hfound.leadsTo.text_ne_nil hfound.isFileName]
    simpa using hfound.extension_eq

theorem find_sorted (hv : files.Valid) (hp : files.LeadsTo p root) :
    (files.find p extension).Pairwise (·.sortKey < ·.sortKey) := by
  have hle : (files.find p extension).Pairwise fun p q => decide (¬q.sortKey < p.sortKey) := by
    apply List.pairwise_mergeSort
    case trans =>
      intro a b c hab hbc
      simp only [decide_eq_true_eq] at *
      exact not_lt.mpr (le_trans (not_lt.mp hab) (not_lt.mp hbc))
    case total =>
      intro a b
      rcases le_total a.sortKey b.sortKey with h | h
      case inl => simp [not_lt.mpr h]
      case inr => simp [not_lt.mpr h]
  have hd : ((files.find p extension).map Path.sortKey).Nodup := by
    rw [((find_perm files p extension).map Path.sortKey).nodup_iff]
    exact (nodup_filesBelow hv hp).sublist (List.filter_sublist.map _)
  refine hle.imp₂ (fun a b hab hne => ?_) (List.pairwise_map.mp hd)
  simp only [decide_eq_true_eq] at hab
  exact lt_of_le_of_ne (not_lt.mp hab) hne

theorem nodup_find (hv : files.Valid) (hp : files.LeadsTo p root) :
    (files.find p extension).Nodup := by
  refine (find_sorted hv hp).imp fun h => ?_
  rintro rfl
  exact lt_irrefl _ h

-- A new directory brings no files with it.
theorem find_set_directory {key : Key} (hn : key ≠ []) (hg : files.get? key = none)
    (hp : files.isDirectory p) (extension : Text) :
    (files.set key .directory).find p extension = files.find p extension := by
  have hkeeps : files.KeepsDirectories (files.set key .directory) :=
    keepsDirectories_set (by simp [hg]) _
  have ⟨root, hroot⟩ := isDirectory_iff.mp hp
  have hothers : files.entries.filter (·.1 ≠ key) = files.entries := by
    rw [get?_of_ne_nil hn, List.lookup_eq_none_iff] at hg
    refine List.filter_eq_self.mpr fun e he => ?_
    have hne : key ≠ e.1 := by simpa using hg e he
    simpa using hne.symm
  have hbelow : (files.set key .directory).filesBelow p = files.filesBelow p := by
    rw [filesBelow_eq hroot, filesBelow_eq (hkeeps.leadsTo hroot), set]
    dsimp only
    rw [hothers, List.filter_cons_of_neg (by simp)]
  rw [find, find, hbelow]

end Find
end Componentry.FileSystem
