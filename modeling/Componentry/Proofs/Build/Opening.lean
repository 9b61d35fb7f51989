import Componentry.Proofs.Build.Cache
import Componentry.Proofs.Files.Changes

/-!
How a build opens its cache. The directories that are missing on the way to it are made before any
component is read, and all else stays as it is.
-/
namespace Componentry

open FileSystem

namespace Project

section Open

variable {config : Config} {files opened : FileSystem} {cache : Cache} {directory : Path}
  {place : Key}

theorem openCache_eq (hc : config.cacheDir = some directory) (files : FileSystem) :
    openCache config files = ((files.makeDirectories directory).1,
      ((files.makeDirectories directory).2.mapError (.file directory)).map fun _ =>
        some ⟨directory⟩) := by
  rcases hm : files.makeDirectories directory with ⟨opened, _ | _⟩ <;>
    simp [openCache, hc, Cache.make, hm, Except.map, Except.mapError]

theorem makeDirectories_of_openCache
    (h : openCache config files = (opened, .ok (some ⟨directory⟩))) :
    config.cacheDir = some directory ∧ files.makeDirectories directory = (opened, .ok ()) := by
  cases hc : config.cacheDir
  case none => simp [openCache_none hc] at h
  case some d =>
    rw [openCache_eq hc] at h
    rcases hm : files.makeDirectories d with ⟨after, _ | _⟩ <;>
      simp [hm, Except.map, Except.mapError] at h
    obtain ⟨rfl, rfl⟩ := h
    exact ⟨rfl, hm⟩

theorem valid_changes_openCache (hv : files.Valid) (config : Config) :
    (openCache config files).1.Valid ∧
      Changes (files.get? · = none) files (openCache config files).1 := by
  cases hc : config.cacheDir
  case none => rw [openCache_none hc]; exact ⟨hv, .refl⟩
  case some directory => rw [openCache_eq hc]; exact hv.changes_makeDirectories directory

theorem valid_openCache (hv : files.Valid) (config : Config) : (openCache config files).1.Valid :=
  (valid_changes_openCache hv config).left

theorem changes_openCache (hv : files.Valid) (config : Config) :
    Changes (files.get? · = none) files (openCache config files).1 :=
  (valid_changes_openCache hv config).right

theorem keepsDirectories_openCache (hv : files.Valid) (config : Config) :
    files.KeepsDirectories (openCache config files).1 :=
  (changes_openCache hv config).keepsDirectories hv.grounded

theorem find_openCache (config : Config) {p : Path} (hp : files.isDirectory p) (extension : Text) :
    (openCache config files).1.find p extension = files.find p extension := by
  cases hc : config.cacheDir
  case none => rw [openCache_none hc]
  case some directory => rw [openCache_eq hc]; exact find_makeDirectories directory hp extension

theorem get?_openCache (config : Config) (files : FileSystem) (key : Key) :
    (openCache config files).1.get? key = files.get? key ∨
      files.get? key = none ∧ (openCache config files).1.get? key = some .directory := by
  cases hc : config.cacheDir
  case none => rw [openCache_none hc]; exact .inl rfl
  case some directory => rw [openCache_eq hc]; exact get?_makeDirectories files directory key

theorem keeps_openCache {options : Options} {texts : List Text}
    (hk : Cache.Keeps options texts place files) (config : Config) :
    Cache.Keeps options texts place (openCache config files).1 := by
  refine hk.of_files fun names content _ hg => ?_
  rcases get?_openCache config files (place ++ names) with hsame | ⟨_, hdirectory⟩
  case inl => exact hsame ▸ hg
  case inr => simp [hdirectory] at hg

theorem exists_isAt (hv : files.Valid) (h : openCache config files = (opened, .ok (some cache))) :
    ∃ place, cache.IsAt opened place := by
  have ⟨_, hm⟩ := makeDirectories_of_openCache h
  have hv' := (hv.changes_makeDirectories cache.directory).left
  have hd := @isDirectory_makeDirectories files cache.directory
  rw [hm] at hv' hd
  rcases hd rfl with hempty | hd
  case inl => exact ⟨_, .inl ⟨hempty, rfl⟩, hv'.current⟩
  case inr =>
    have ⟨place, hl⟩ := isDirectory_iff.mp hd
    exact ⟨place, .inr hl.locate_eq, hl.get?_eq⟩

theorem openCache_of_isAt (hc : config.cacheDir = some directory)
    (h : Cache.IsAt ⟨directory⟩ files place) :
    openCache config files = (files, .ok (some ⟨directory⟩)) := by
  have hm : files.makeDirectories directory = (files, .ok ()) := by
    rcases h.locate_eq with ⟨hempty, _⟩ | hl
    case inl =>
      have hempty : directory.text = [] := hempty
      have hcomponents : directory.components = [] := by
        simp [Path.components, Path.isAbsolute, hempty, Text.splitAt, Path.component?]
      rw [makeDirectories, if_pos hcomponents]
    case inr => exact makeDirectories_eq_self (LeadsTo.isDirectory ⟨hl, h.get?_eq⟩)
  rw [openCache_eq hc, hm]
  rfl

end Open

def prepared (config : Config) (files : FileSystem) : FileSystem :=
  if files.isDirectory config.routesPath then (openCache config files).1 else files

-- A directory that is there only because the cache was opened.
def Made (config : Config) (files : FileSystem) (key : Key) : Prop :=
  files.get? key = none ∧ (prepared config files).get? key = some .directory

-- Where a module is to be written, no directory was made.
def Clear (config : Config) (files : FileSystem) : Prop :=
  ∀ file ∈ files.find config.routesPath config.sourceExtension,
    (prepared config files).isDirectory (file.moduleOf config) →
      files.isDirectory (file.moduleOf config)

section Prepared

variable {config : Config} {files : FileSystem} {directory : Path} {place key : Key}

theorem prepared_of_not_isDirectory (hd : files.isDirectory config.routesPath = false) :
    prepared config files = files :=
  if_neg (by simp [hd])

theorem get?_prepared (config : Config) (files : FileSystem) (key : Key) :
    (prepared config files).get? key = files.get? key ∨ Made config files key := by
  unfold Made prepared
  split
  case isTrue => exact get?_openCache config files key
  case isFalse => exact .inl rfl

theorem keepsDirectories_prepared (hv : files.Valid) (config : Config) :
    files.KeepsDirectories (prepared config files) := by
  unfold prepared
  split
  case isTrue => exact keepsDirectories_openCache hv config
  case isFalse => exact .refl files

theorem Made.isPrefix (h : Made config files key) (hv : files.Valid)
    (hc : config.cacheDir = some directory) (hu : .up ∉ steps directory)
    (hat : Cache.IsAt ⟨directory⟩ (openCache config files).1 place) : key <+: place := by
  obtain ⟨hn, hd⟩ := h
  unfold prepared at hd
  split at hd
  case isFalse => simp [hn] at hd
  case isTrue =>
    have hkeeps := keepsDirectories_openCache hv config
    rw [openCache_eq hc] at hkeeps hat hd
    have hon := isPrefix_of_makeDirectories hu hn (by rw [hd]; simp)
    rcases hat.locate_eq with ⟨hempty, hplace⟩ | hl
    case inl =>
      have hempty : directory.text = [] := hempty
      have hsteps : namesOf (steps directory) = [] := by
        simp [steps, hempty, Text.splitAt, namesOf]
      have hstart : files.start directory = files.current := by
        simp [start, Path.isAbsolute, hempty]
      rw [hplace, hkeeps.current_eq]
      simpa [hsteps, hstart] using hon
    case inr =>
      rw [locate, if_neg (text_ne_nil_of_locate hl)] at hl
      rw [follow_eq_append hl hu, start, hkeeps.current_eq]
      exact hon

-- All modules are written in the tree of the components.
theorem clear_of_not_isPrefix (hv : files.Valid) (ht : '/' ∉ config.targetExtension)
    (hout : ∀ root key, files.LeadsTo config.routesPath root → Made config files key →
      ¬root <+: key) : Clear config files := by
  intro file hf hd
  cases hroutes : files.isDirectory config.routesPath
  case false => rwa [prepared_of_not_isDirectory hroutes] at hd
  case true =>
    have ⟨root, hr⟩ := isDirectory_iff.mp hroutes
    have ⟨names, name, _, hs⟩ := exists_site hv hr hf
    rw [hs.isDirectory_moduleOf_iff ht]
    rcases ((hs.mono (keepsDirectories_prepared hv config)).isDirectory_moduleOf_iff ht).mp hd with
      hup | hk
    case inl => exact .inl hup
    case inr =>
      rcases get?_prepared config files
        (root ++ names ++ [Path.moduleName config.targetExtension name]) with hsame | hmade
      case inl => exact .inr (hsame ▸ hk)
      case inr => exact absurd (by simp) (hout root _ hr hmade)

end Prepared
end Project
end Componentry
