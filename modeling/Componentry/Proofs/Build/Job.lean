import Componentry.Proofs.Files.Discovery

/-!
What the job of one component does: it fails and changes nothing, or it writes its module beside the
component and changes nothing else.
-/
namespace Componentry

open FileSystem

-- Where a component is: under which name in which directory.
structure Site (files : FileSystem) (file d : Path) (key : Key) (name : Text) : Prop where
  path_eq : file = d.join ⟨name⟩
  isFileName : IsFileName name
  hasExtension : ∃ extension, (Path.splitExtension name).2 = some extension
  leadsTo : files.LeadsTo d key
  rooted : ∀ k, k <+: key → files.get? k = some .directory

theorem FileSystem.Found.site {files : FileSystem} {p : Path} {root : Key} {extension name : Text}
    {names : List Text} (h : files.Found p root extension names name) (hv : files.Valid) :
    Site files ((pathBelow p names).join ⟨name⟩) (pathBelow p names) (root ++ names) name := by
  refine ⟨rfl, h.isFileName, ⟨extension, h.extension_eq⟩, h.leadsTo, fun k ⟨rest, hk⟩ => ?_⟩
  have hd := h.leadsTo.get?_eq
  cases rest
  case nil => simpa [← hk] using hd
  case cons => exact hv.get?_of_append (hk ▸ hd)

namespace Site

variable {config : Config} {files after : FileSystem} {file d : Path} {key : Key} {name : Text}

theorem mono (hs : Site files file d key name) (h : files.KeepsDirectories after) :
    Site after file d key name :=
  ⟨hs.path_eq, hs.isFileName, hs.hasExtension, h.leadsTo hs.leadsTo,
    fun k hk => h.get?_eq k (hs.rooted k hk)⟩

theorem readText_congr (hs : Site files file d key name) (hs' : Site after file d key name)
    (h : after.get? (key ++ [name]) = files.get? (key ++ [name])) :
    after.readText file = files.readText file := by
  have he : after.entry file = files.entry file := by
    rw [hs.path_eq, hs'.leadsTo.entry_name hs.isFileName, hs.leadsTo.entry_name hs.isFileName, h]
  rw [readText, readText, he]

section Output

variable (ht : '/' ∉ config.targetExtension)
include ht

theorem isPart_moduleName (hs : Site files file d key name) :
    IsPart (Path.moduleName config.targetExtension name) := by
  have ⟨_, hx⟩ := hs.hasExtension
  exact Path.isPart_moduleName hs.isFileName hx ht

theorem moduleOf_eq (hs : Site files file d key name) :
    file.moduleOf config = d.join ⟨Path.moduleName config.targetExtension name⟩ := by
  have ⟨_, hx⟩ := hs.hasExtension
  rw [hs.path_eq, Path.moduleOf, Path.withExtension_join hs.leadsTo.text_ne_nil hs.isFileName hx ht]

theorem isFileName_moduleName (hs : Site files file d key name)
    (hup : Path.moduleName config.targetExtension name ≠ ['.', '.']) :
    IsFileName (Path.moduleName config.targetExtension name) :=
  ⟨hs.isPart_moduleName ht, hup⟩

-- A module whose name comes out as two dots would stand in place of the directory above.
theorem isDirectory_moduleOf_iff (hs : Site files file d key name) :
    files.isDirectory (file.moduleOf config) ↔
      Path.moduleName config.targetExtension name = ['.', '.'] ∨
      files.get? (key ++ [Path.moduleName config.targetExtension name]) = some .directory := by
  rw [hs.moduleOf_eq ht]
  by_cases hup : Path.moduleName config.targetExtension name = ['.', '.']
  case pos =>
    simp only [hup, true_or, iff_true]
    exact isDirectory_iff.mpr ⟨_, hs.leadsTo.locate_up, hs.rooted _ (List.dropLast_prefix key)⟩
  case neg =>
    rw [hs.leadsTo.isDirectory_name_iff (hs.isFileName_moduleName ht hup), or_iff_right hup]

theorem isDirectory_moduleOf_eq_false_iff (hs : Site files file d key name) :
    files.isDirectory (file.moduleOf config) = false ↔
      IsFileName (Path.moduleName config.targetExtension name) ∧
      files.get? (key ++ [Path.moduleName config.targetExtension name]) ≠ some .directory := by
  rw [← Bool.not_eq_true, hs.isDirectory_moduleOf_iff ht, not_or]
  exact and_congr_left fun _ => ⟨hs.isFileName_moduleName ht, IsFileName.ne_up⟩

theorem isDirectory_moduleOf_congr (hs : Site files file d key name)
    (hs' : Site after file d key name)
    (h : after.get? (key ++ [Path.moduleName config.targetExtension name]) = some .directory ↔
      files.get? (key ++ [Path.moduleName config.targetExtension name]) = some .directory) :
    after.isDirectory (file.moduleOf config) = files.isDirectory (file.moduleOf config) := by
  rw [Bool.eq_iff_iff, hs.isDirectory_moduleOf_iff ht, hs'.isDirectory_moduleOf_iff ht, h]

theorem writeTo_eq_put (hs : Site files file d key name) (m : Module) :
    m.writeTo files (file.moduleOf config) = Module.writeTo.put m (file.moduleOf config) files := by
  have ⟨parent, hp, hd⟩ := exists_parent? hs.leadsTo.isDirectory (hs.isPart_moduleName ht)
  rw [← hs.moduleOf_eq ht] at hp
  simp [Module.writeTo, hp, makeDirectories_eq_self hd]

theorem writeTo_of_isDirectory (hs : Site files file d key name) (m : Module)
    (h : files.isDirectory (file.moduleOf config)) : m.writeTo files (file.moduleOf config) =
      (files, .error (.file (file.moduleOf config) .isDirectory)) := by
  have hwrite : files.write (file.moduleOf config) (encode m.code) = .error .isDirectory := by
    rw [hs.isDirectory_moduleOf_iff ht] at h
    rw [hs.moduleOf_eq ht]
    by_cases hup : Path.moduleName config.targetExtension name = ['.', '.']
    case pos => rw [hup, hs.leadsTo.write_up]
    case neg =>
      rw [hs.leadsTo.write_name (hs.isFileName_moduleName ht hup), if_pos (h.resolve_left hup)]
  rw [hs.writeTo_eq_put ht, Module.writeTo.put, hwrite]

theorem writeTo_of_not_isDirectory (hs : Site files file d key name) (m : Module)
    (h : files.isDirectory (file.moduleOf config) = false) :
    m.writeTo files (file.moduleOf config) =
      (files.set (key ++ [Path.moduleName config.targetExtension name]) (.file (encode m.code)),
        .ok ()) := by
  have ⟨hn, hg⟩ := (hs.isDirectory_moduleOf_eq_false_iff ht).mp h
  have hwrite : files.write (file.moduleOf config) (encode m.code) =
      .ok (files.set (key ++ [Path.moduleName config.targetExtension name])
        (.file (encode m.code))) := by
    rw [hs.moduleOf_eq ht, hs.leadsTo.write_name hn, if_neg hg]
  rw [hs.writeTo_eq_put ht, Module.writeTo.put, hwrite]

end Output
end Site

def Sited (files : FileSystem) (order : List Path) : Prop :=
  ∀ file ∈ order, ∃ d key name, Site files file d key name

section Sited

variable {files after : FileSystem} {p file : Path} {root : Key} {extension : Text}
  {order : List Path}

theorem Sited.mono (hs : Sited files order) (h : files.KeepsDirectories after) :
    Sited after order := by
  intro file hf
  have ⟨d, key, name, hsite⟩ := hs file hf
  exact ⟨d, key, name, hsite.mono h⟩

theorem FileSystem.exists_site (hv : files.Valid) (hp : files.LeadsTo p root)
    (hf : file ∈ files.find p extension) :
    ∃ names name, files.Found p root extension names name ∧
      Site files file (pathBelow p names) (root ++ names) name := by
  have ⟨names, name, he, hfound⟩ := (mem_find_iff hv hp).mp hf
  exact ⟨names, name, hfound, he ▸ hfound.site hv⟩

theorem FileSystem.sited_of_subset (hv : files.Valid) (hp : files.LeadsTo p root)
    (ho : order ⊆ files.find p extension) : Sited files order := by
  intro file hf
  have ⟨_, _, _, hs⟩ := exists_site hv hp (ho hf)
  exact ⟨_, _, _, hs⟩

end Sited

namespace Project

-- What becomes of a component: its module, or the first thing that stands in the way.
def attempt (config : Config) (files : FileSystem) (file : Path) : Except BuildError Module := do
  let source ← (files.readText file).mapError (.file file)
  let m ← (Component.compile file.text source config.options).mapError .component
  if files.isDirectory (file.moduleOf config) then
    .error (.file (file.moduleOf config) .isDirectory)
  else
    .ok m

def outcome (config : Config) (file : Path) : Except BuildError Module → Outcome
  | .ok _ => .written (file.moduleOf config) false
  | .error error => .failed error

section Attempt

variable {config : Config} {files after : FileSystem} {file d : Path} {key : Key} {name : Text}

theorem attempt_eq_ok_iff {m : Module} : attempt config files file = .ok m ↔
    ∃ source, files.readText file = .ok source ∧
      Component.compile file.text source config.options = .ok m ∧
      files.isDirectory (file.moduleOf config) = false := by
  unfold attempt
  cases files.readText file
  case error => simp [Except.mapError, bind, Except.bind]
  case ok source =>
    cases hc : Component.compile file.text source config.options
    case error => simp [Except.mapError, bind, Except.bind, hc]
    case ok =>
      cases files.isDirectory (file.moduleOf config) <;>
        simp [Except.mapError, bind, Except.bind, hc]

theorem attempt_congr (hr : after.readText file = files.readText file)
    (hd : after.isDirectory (file.moduleOf config) = files.isDirectory (file.moduleOf config)) :
    attempt config after file = attempt config files file := by
  rw [attempt, attempt, hr, hd]

variable (ht : '/' ∉ config.targetExtension)
include ht

theorem buildFile_of_ok (hs : Site files file d key name) {m : Module}
    (h : attempt config files file = .ok m) : buildFile config none files file =
      (files.set (key ++ [Path.moduleName config.targetExtension name]) (.file (encode m.code)), [],
        outcome config file (.ok m)) := by
  have ⟨source, hr, hc, hd⟩ := attempt_eq_ok_iff.mp h
  simp [buildFile, hr, obtain, hc, hs.writeTo_of_not_isDirectory ht m hd, outcome]

theorem buildFile_of_error (hs : Site files file d key name) {error : BuildError}
    (h : attempt config files file = .error error) : buildFile config none files file =
      (files, [], outcome config file (.error error)) := by
  unfold attempt at h
  cases hr : files.readText file
  case error fault => simp_all [buildFile, Except.mapError, bind, Except.bind, outcome]
  case ok source =>
    cases hc : Component.compile file.text source config.options
    case error => simp_all [buildFile, obtain, Except.mapError, bind, Except.bind, outcome]
    case ok m =>
      cases hd : files.isDirectory (file.moduleOf config)
      case false => simp [hr, hc, hd, Except.mapError, bind, Except.bind] at h
      case true =>
        simp [hr, hc, hd, Except.mapError, bind, Except.bind] at h
        simp [buildFile, hr, obtain, hc, hs.writeTo_of_isDirectory ht m hd, outcome, h]

end Attempt

theorem build_of_not_isDirectory {config : Config} {files : FileSystem}
    (hd : files.isDirectory config.routesPath = false) :
    (build config files).1 = files ∧ (build config files).2.2 = .ok {} := by
  simp [build, hd]

theorem build_of_isDirectory {config : Config} {files opened after : FileSystem}
    {cache : Option Cache}
    {said : List Text} {outcomes : List (Path × Outcome)} (hd : files.isDirectory config.routesPath)
    (ho : openCache config files = (opened, .ok cache))
    (hb : buildFiles config cache opened (opened.find config.routesPath config.sourceExtension) =
      (after, said, outcomes)) :
    (build config files).1 = after ∧
      (build config files).2.2 = .ok (Report.ofOutcomes config.root outcomes) := by
  simp [build, hd, ho, hb]

theorem openCache_none {config : Config} (hc : config.cacheDir = none) (files : FileSystem) :
    openCache config files = (files, .ok none) := by
  simp [openCache, hc]

end Project

namespace Outcome

def isWritten : Outcome → Bool
  | .written _ _ => true
  | .failed _ => false

def isCached : Outcome → Bool
  | .written _ cached => cached
  | .failed _ => false

def failure? (root file : Path) : Outcome → Option Failure
  | .written _ _ => none
  | .failed error => some ⟨file.display root, error.message⟩

end Outcome

theorem Report.ofOutcomes_eq (root : Path) (outcomes : List (Path × Outcome)) :
    ofOutcomes root outcomes = ⟨outcomes.countP (·.2.isWritten), outcomes.countP (·.2.isCached),
      outcomes.filterMap fun e => e.2.failure? root e.1⟩ := by
  induction outcomes using List.reverseRecOn
  case nil => rfl
  case append_singleton outcomes last ih =>
    obtain ⟨file, o⟩ := last
    rw [ofOutcomes, List.foldl_append, ← ofOutcomes, ih]
    cases o <;> simp [add, Outcome.isWritten, Outcome.isCached, Outcome.failure?]

end Componentry
