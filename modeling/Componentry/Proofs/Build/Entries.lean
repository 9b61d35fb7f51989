import Componentry.Proofs.Build.Inputs

/-!
The entries of a cache. A module that was kept is found again, no other look-up is changed by that,
and a look-up by itself changes nothing, but for its own entry if that is corrupt.
-/
namespace Componentry

open FileSystem

theorem FileSystem.exists_of_readText {files : FileSystem} {p : Path} {t : Text}
    (h : files.readText p = .ok t) :
    ∃ place content, files.locate p = .ok place ∧ files.get? place = some (.file content) ∧
      files.removeFile p = .ok (files.erase place) := by
  obtain ⟨content, he⟩ : ∃ content, files.entry p = .ok (.file content) := by
    unfold readText at h
    split at h
    case h_1 => simp at h
    case h_2 => simp at h
    case h_3 content he => exact ⟨content, he⟩
  rcases hl : files.locate p with fault | place
  case error => simp [entry, hl] at he
  case ok =>
    have hfile : files.get? place = some (.file content) := by
      rw [entry, hl] at he
      rcases hk : files.get? place with _ | ⟨old⟩ | _
      case none => simp [hk] at he
      case some.directory => simp [hk] at he
      case some.file =>
        simp only [hk] at he
        split at he
        case isTrue => simp at he
        case isFalse => rw [Entry.file.inj (Except.ok.inj he)]
    exact ⟨place, content, rfl, hfile, by simp [removeFile, he, hl]⟩

namespace Cache

section Entries

variable {cache : Cache} {files after : FileSystem} {directory : Key} {options : Options}
  {source : Text}

theorem get_fst_congr
    (h : after.readText (cache.entryPath (key options source)) =
      files.readText (cache.entryPath (key options source))) :
    (cache.get after options source).1 = (cache.get files options source).1 := by
  unfold get
  dsimp only
  rw [h]
  cases files.readText (cache.entryPath (key options source))
  case error => rfl
  case ok t =>
    dsimp only
    cases decodeEntry t <;> rfl

theorem entryName_inj {options' : Options} {source' : Text} :
    entryName options' source' = entryName options source ↔
    key options' source' = key options source := by
  simp [entryName]

theorem get_files
    (h : ∀ t, files.readText (cache.entryPath (key options source)) = .ok t →
      decodeEntry t ≠ none) :
    (cache.get files options source).2.1 = files := by
  unfold get
  dsimp only
  split
  case h_1 => rfl
  case h_2 t ht =>
    split
    case h_1 => rfl
    case h_2 hn => exact absurd hn (h t ht)

theorem get_files_of_corrupt (hv : files.Valid) {t : Text}
    (ht : files.readText (cache.entryPath (key options source)) = .ok t)
    (hn : decodeEntry t = none) :
    ∃ place, files.locate (cache.entryPath (key options source)) = .ok place ∧
      (cache.get files options source).2.1.get? place = none ∧
      ∀ k, k ≠ place → (cache.get files options source).2.1.get? k = files.get? k := by
  obtain ⟨place, content, hl, hfile, hr⟩ := exists_of_readText ht
  have hget : (cache.get files options source).2.1 = files.erase place := by
    simp [get, ht, hn, hr, Except.toOption]
  have hne : place ≠ [] := by
    rintro rfl
    simp [get?] at hfile
  rw [hget]
  exact ⟨place, hl, get?_erase_of_isPrefix hne (List.prefix_refl place),
    fun k hk => (Change.remove hfile).get?_of_ne hv.grounded hk⟩

end Entries

-- What is kept under a key is found under that key, and what is found under others stays what it
-- was. Looking something up changes nothing, unless what is read is no entry: then that file is
-- removed, and only that.
theorem get_after_set (cache : Cache) {files : FileSystem} (hv : files.Valid) :
    (∀ directory options source m, cache.IsAt files directory →
      files.get? (directory ++ [entryName options source]) ≠ some .directory →
      (cache.get (cache.set files options source m).1 options source).1 = some m ∧
      ∀ options' source', key options' source' ≠ key options source →
        (cache.get (cache.set files options source m).1 options' source').1 =
          (cache.get files options' source').1) ∧
    ∀ options source,
      ((∀ t, files.readText (cache.entryPath (key options source)) = .ok t → decodeEntry t ≠ none) →
        (cache.get files options source).2.1 = files) ∧
      ∀ t, files.readText (cache.entryPath (key options source)) = .ok t → decodeEntry t = none →
        ∃ place, files.locate (cache.entryPath (key options source)) = .ok place ∧
          (cache.get files options source).2.1.get? place = none ∧
          ∀ k, k ≠ place → (cache.get files options source).2.1.get? k = files.get? k := by
  refine ⟨fun directory options source m h hd => ?_, fun options source =>
    ⟨get_files, fun t ht hn => get_files_of_corrupt hv ht hn⟩⟩
  have hafter :=
    h.mono (keepsDirectories_set hd (.file (encode (entryText (key options source) m))))
  rw [h.set_eq hd]
  refine ⟨by rw [hafter.get_of_entry (get?_set_self (by simp))], fun options' source' hk =>
    get_fst_congr ?_⟩
  refine (h.addresses options' source').readText_congr (hafter.addresses options' source')
    (get?_set_of_ne ?_)
  simpa [entryName_inj] using hk

def damaged : FileSystem where
  entries := [([['c']], .directory), ([['c'], entryName {} ['t']], .file (encode ['x']))]

-- A module with characters of all kinds of spelling is kept beside that entry, which is removed
-- when it is looked up.
theorem get_after_set_damaged : ∃ cache m, cache = Cache.mk ⟨['c']⟩ ∧
    m = ⟨"\"\\\n\x01é".toList, some []⟩ ∧
    damaged.Valid ∧ cache.IsAt damaged [['c']] ∧ key {} ['t'] ≠ key {} ['s'] ∧
    (cache.get (cache.set damaged {} ['s'] m).1 {} ['s']).1 = some m ∧
    (cache.get (cache.set damaged {} ['s'] m).1 {} ['t']).1 = (cache.get damaged {} ['t']).1 ∧
    (cache.get damaged {} ['t']).2.1.get? [['c'], entryName {} ['t']] = none := by
  have hv : damaged.Valid := by decide +kernel
  have hat : (Cache.mk ⟨['c']⟩).IsAt damaged [['c']] := ⟨.inr rfl, rfl⟩
  have hkey : key {} ['t'] ≠ key {} ['s'] := by decide +kernel
  have hfile : damaged.get? ([['c']] ++ [entryName {} ['t']]) = some (.file (encode ['x'])) := by
    simp [damaged, get?, List.lookup]
  have hread : damaged.readText ((Cache.mk ⟨['c']⟩).entryPath (key {} ['t'])) = .ok ['x'] := by
    rw [readText, (hat.addresses {} ['t']).entry_eq, hfile, Option.elim_some]
    simp only [decode?_encode]
  obtain ⟨hset, hget⟩ := get_after_set (Cache.mk ⟨['c']⟩) hv
  obtain ⟨hsame, hother⟩ :=
    hset [['c']] {} ['s'] ⟨"\"\\\n\x01é".toList, some []⟩ hat (by decide +kernel)
  obtain ⟨place, hl, hnone, _⟩ := (hget {} ['t']).right ['x'] hread (by decide)
  cases hl.symm.trans (hat.addresses {} ['t']).locate_eq
  exact ⟨_, _, rfl, rfl, hv, hat, hkey, hsame, hother {} ['t'] hkey, hnone⟩

end Cache
end Componentry
