import Componentry.Proofs.Build.Opening

/-!
What a build does to the components it reads. A component is kept as it is, unless it stands where
the module of a component is written, or where the cache keeps a module. Whether the first can
happen is decided by the two extensions, and where it can it does.
-/
namespace Componentry

open FileSystem

def Config.Clashes (config : Config) : Prop :=
  config.targetExtension = [] ∨ '.' :: config.sourceExtension <:+ '.' :: config.targetExtension

theorem Path.isSuffix_of_moduleName_eq {name other old extension : Text} (hn : IsFileName name)
    (hx : (splitExtension name).2 = some old) (hy : (splitExtension other).2 = some old)
    (h : moduleName extension other = name) :
    extension = [] ∨ '.' :: old <:+ '.' :: extension := by
  have ⟨stem, hname, hdot, _⟩ := exists_stem hx
  have ⟨stem', hother, _, hs'⟩ := exists_stem hy
  rw [hother, moduleName_eq hdot hs'] at h
  by_cases hup : stem' = ['.']
  case pos => exact absurd (by simpa [hup] using h.symm) hn.ne_up
  case neg =>
    by_cases he : extension = []
    case pos => exact .inl he
    case neg =>
      rw [if_neg hup, if_neg he, hname] at h
      -- Both extensions end one name, and there is no dot in the shorter one.
      have hsuffix : '.' :: old <:+ name := ⟨stem, hname.symm⟩
      have hsuffix' : '.' :: extension <:+ name := ⟨stem', by rw [h, hname]⟩
      rcases List.suffix_or_suffix_of_suffix hsuffix hsuffix' with hle | hle
      case inl => exact .inr hle
      case inr =>
        rcases List.suffix_cons_iff.mp hle with heq | hlt
        case inl => exact .inr (heq ▸ List.suffix_refl _)
        case inr => exact absurd (hlt.subset (List.mem_cons_self ..)) hdot

namespace Cache

section Changes

variable {cache : Cache} {files : FileSystem} {place : Key} {options : Options} {source : Text}
variable {places : Key → Prop} (h : cache.IsAt files place)
variable (hp : places (place ++ [entryName options source]))
include h hp

theorem changes_get : Changes places files (cache.get files options source).2.1 := by
  unfold get
  dsimp only
  split
  case h_1 => exact .refl
  case h_2 =>
    split
    case h_1 => exact .refl
    case h_2 =>
      cases hr : files.removeFile (cache.entryPath (key options source))
      case error => exact .refl
      case ok after =>
        obtain ⟨k, hl, hc⟩ := change_of_removeFile hr
        cases hl.symm.trans (h.addresses options source).locate_eq
        exact .single hp hc

theorem changes_set (m : Module) : Changes places files (cache.set files options source m).1 := by
  by_cases hd : files.get? (place ++ [entryName options source]) = some .directory
  case pos =>
    have ⟨said, hset⟩ := h.exists_set_eq hd m
    rw [hset]
    exact .refl
  case neg =>
    rw [h.set_eq hd m]
    exact .single hp (.write _ h.get?_eq hd)

end Changes
end Cache

namespace Project

-- What can become of the files in a build, whatever the order in which its jobs are done.
inductive Built (config : Config) (files : FileSystem) : FileSystem → Prop
  | idle (hr : files.isDirectory config.routesPath = false) : Built config files files
  | stopped {opened error} (hr : files.isDirectory config.routesPath)
    (ho : openCache config files = (opened, .error error)) : Built config files opened
  | done {opened cache order} (hr : files.isDirectory config.routesPath)
    (ho : openCache config files = (opened, .ok cache))
    (hp : order.Perm (files.find config.routesPath config.sourceExtension)) :
    Built config files (buildFiles config cache opened order).1

theorem built_build (config : Config) (files : FileSystem) :
    Built config files (build config files).1 := by
  cases hd : files.isDirectory config.routesPath
  case false =>
    rw [(build_of_not_isDirectory hd).left]
    exact .idle hd
  case true =>
    have hfind := find_openCache config hd config.sourceExtension
    rcases ho : openCache config files with ⟨opened, error | cache⟩
    case error =>
      have hb : (build config files).1 = opened := by simp [build, hd, ho]
      exact hb ▸ .stopped hd ho
    case ok =>
      rw [ho] at hfind
      rw [(build_of_isDirectory hd ho rfl).left, hfind]
      exact .done hd ho (List.Perm.refl _)

-- Where jobs change something: where modules are written, and where the cache keeps its entries.
def Touched (config : Config) (cache : Option Cache) (files : FileSystem) (found : List Path)
    (key : Key) : Prop :=
  (∃ file ∈ found, files.locate (file.moduleOf config) = .ok key) ∨
    ∃ c ∈ cache, ∃ source, files.locate (c.entryPath (Cache.key config.options source)) = .ok key

section Jobs

variable {config : Config} {cache : Option Cache} {files now : FileSystem} {found : List Path}
variable {file d : Path} {key : Key} {name : Text}
variable (hg : now.Grounded) (hk : files.KeepsDirectories now)
variable (ho : ∀ c ∈ cache, ∃ place, c.IsAt files place)
include hg hk ho

theorem changes_obtain (file : Path) (source : Text) :
    Changes (Touched config cache files found) now (obtain config cache now file source).1 := by
  cases cache
  case none =>
    rw [obtain]
    split <;> exact .refl
  case some c =>
    obtain ⟨place, hat⟩ := ho c rfl
    have htouched : Touched config (some c) files found
        (place ++ [Cache.entryName config.options source]) :=
      .inr ⟨c, rfl, source, (hat.addresses config.options source).locate_eq⟩
    have hget := Cache.changes_get (hat.mono hk) htouched
    rw [obtain]
    rcases hr : c.get now config.options source with ⟨_ | m, next, said⟩ <;> rw [hr] at hget
    case some => exact hget
    case none =>
      cases hm : Component.compile file.text source config.options
      case error => exact hget
      case ok m =>
        have hnext := hget.keepsDirectories hg
        exact hget.trans (Cache.changes_set (hat.mono (hk.trans hnext)) htouched m)

variable (ht : '/' ∉ config.targetExtension)
include ht

theorem changes_buildFile (hf : file ∈ found) (hs : Site files file d key name) :
    Changes (Touched config cache files found) now (buildFile config cache now file).1 := by
  unfold buildFile
  split
  case h_1 => exact .refl
  case h_2 source _ =>
    have hobtain := @changes_obtain config cache files now found hg hk ho file source
    rcases hr : obtain config cache now file source with ⟨next, said, error | ⟨m, cached⟩⟩ <;>
      rw [hr] at hobtain
    case error => exact hobtain
    case ok =>
      have hnext := hs.mono (hk.trans (hobtain.keepsDirectories hg))
      cases hd : next.isDirectory (file.moduleOf config)
      case true => simpa [hnext.writeTo_of_isDirectory ht m hd] using hobtain
      case false =>
        have ⟨hname, hfree⟩ := (hnext.isDirectory_moduleOf_eq_false_iff ht).mp hd
        have hlocate : files.locate (file.moduleOf config) =
            .ok (key ++ [Path.moduleName config.targetExtension name]) := by
          rw [hs.moduleOf_eq ht, hs.leadsTo.locate_name hname]
        have hwrite := hobtain.step (.inl ⟨file, hf, hlocate⟩)
          (.write (encode m.code) hnext.leadsTo.get?_eq hfree)
        simpa [hnext.writeTo_of_not_isDirectory ht m hd] using hwrite

theorem changes_buildFiles {order : List Path} (hf : order ⊆ found)
    (hs : Sited files order) :
    Changes (Touched config cache files found) now (buildFiles config cache now order).1 := by
  induction order generalizing now
  case nil => exact .refl
  case cons file order ih =>
    have ⟨hfile, hf⟩ := List.cons_subset.mp hf
    have ⟨⟨d, key, name, hsite⟩, hs⟩ := List.forall_mem_cons.mp hs
    have hstep := changes_buildFile hg hk ho ht hfile hsite
    have hrest := ih (hstep.grounded hg) (hk.trans (hstep.keepsDirectories hg)) hf hs
    exact hstep.trans hrest

end Jobs

def InCache (config : Config) (files : FileSystem) (file : Path) : Prop :=
  ∃ opened cache source, openCache config files = (opened, .ok (some cache)) ∧
    opened.locate (cache.entryPath (Cache.key config.options source)) = opened.locate file

section Kept

variable {config : Config} {files opened after : FileSystem} {file other : Path} {root : Key}
variable {names : List Text} {name : Text}

theorem not_inCache_of_cacheDir (hc : config.cacheDir = none) (files : FileSystem) (file : Path) :
    ¬InCache config files file := by
  intro ⟨opened, cache, source, ho, _⟩
  simp [openCache_none hc] at ho

theorem not_inCache_of_extension (hv : files.Valid)
    (hf : files.Found config.routesPath root config.sourceExtension names name)
    (hx : config.sourceExtension ≠ "json".toList) :
    ¬InCache config files ((pathBelow config.routesPath names).join ⟨name⟩) := by
  intro ⟨opened, cache, source, ho, hl⟩
  have hkeeps := keepsDirectories_openCache hv config
  rw [ho] at hkeeps
  have ⟨place, hat⟩ := exists_isAt hv ho
  rw [(hat.addresses config.options source).locate_eq,
    (hkeeps.leadsTo hf.leadsTo).locate_name hf.isFileName] at hl
  have hname : Cache.entryName config.options source = name := by
    simpa using (List.append_inj' (Except.ok.inj hl) rfl).right
  have hstem : Cache.key config.options source ≠ [] := by
    simp [Cache.key, Sha256.hex, Sha256.digest]
  have hsplit := Path.splitExtension_eq_some_iff.mpr
    ⟨(rfl : Cache.entryName config.options source = _ ++ '.' :: "json".toList), by decide, hstem⟩
  have hext := hf.extension_eq
  rw [← hname, hsplit] at hext
  exact hx (Option.some.inj hext).symm

variable (hv : files.Valid) (hr : files.LeadsTo config.routesPath root)
variable (ht : '/' ∉ config.targetExtension)
include hv hr ht

-- Where a component is, no other module is written than one whose path is that of the component.
theorem moduleOf_eq_of_locate
    (ho : other ∈ files.find config.routesPath config.sourceExtension)
    (hk : files.KeepsDirectories opened) {content : ByteArray}
    (hg : opened.get? (root ++ names ++ [name]) = some (.file content))
    (hl : opened.locate (other.moduleOf config) = .ok (root ++ names ++ [name])) :
    other.moduleOf config = (pathBelow config.routesPath names).join ⟨name⟩ := by
  obtain ⟨names', name', he, hother⟩ := (mem_find_iff hv hr).mp ho
  subst he
  have hs := (hother.site hv).mono hk
  have hd : opened.isDirectory
      (((pathBelow config.routesPath names').join ⟨name'⟩).moduleOf config) = false := by
    rw [← Bool.not_eq_true, isDirectory_iff]
    intro ⟨place, hl', hh⟩
    cases hl.symm.trans hl'
    cases hg.symm.trans hh
  obtain ⟨hn, _⟩ := (hs.isDirectory_moduleOf_eq_false_iff ht).mp hd
  rw [hs.moduleOf_eq ht] at hl ⊢
  rw [hs.leadsTo.locate_name hn] at hl
  obtain ⟨hnames, hname⟩ : names' = names ∧ Path.moduleName config.targetExtension name' =
      name := by
    simpa using List.append_inj' (Except.ok.inj hl) rfl
  rw [hnames, hname]

theorem found_moduleName (hf : files.Found config.routesPath root config.sourceExtension names name)
    (hm : ((pathBelow config.routesPath names).join ⟨name⟩).moduleOf config ∈
      files.find config.routesPath config.sourceExtension) :
    files.Found config.routesPath root config.sourceExtension names
      (Path.moduleName config.targetExtension name) := by
  have ⟨names', name', he, hfound⟩ := (mem_find_iff hv hr).mp hm
  have hs := hf.site hv
  have hmodule := hs.moduleOf_eq ht
  have hname : Path.moduleName config.targetExtension name = name' := by
    rw [hmodule, Path.join_eq_join_iff hs.leadsTo.text_ne_nil hfound.leadsTo.text_ne_nil
      (hs.isPart_moduleName ht).not_separator hfound.isFileName.not_separator] at he
    exact he.left
  have hkey : names' = names := by
    have hl := hs.leadsTo.locate_name hfound.isFileName
    rw [← hname, ← hmodule, he, hfound.leadsTo.locate_name hfound.isFileName] at hl
    simpa using (List.append_inj' (Except.ok.inj hl) rfl).left
  rw [hname, ← hkey]
  exact hfound

theorem clashes_of_moduleOf_mem (ho : other ∈ files.find config.routesPath config.sourceExtension)
    (hm : other.moduleOf config ∈ files.find config.routesPath config.sourceExtension) :
    config.Clashes := by
  have ⟨names, name, he, hother⟩ := (mem_find_iff hv hr).mp ho
  have hfound := found_moduleName hv hr ht hother (he ▸ hm)
  exact Path.isSuffix_of_moduleName_eq hfound.isFileName hfound.extension_eq hother.extension_eq rfl

end Kept

section Kept

variable {config : Config} {files after : FileSystem} {file : Path}

theorem Built.eq_or_leadsTo (h : Built config files after) :
    after = files ∨ ∃ root, files.LeadsTo config.routesPath root := by
  cases h
  case idle => exact .inl rfl
  case stopped hr _ | done hr _ _ => exact .inr (isDirectory_iff.mp hr)

theorem Built.entry_eq (h : Built config files after) (hv : files.Valid)
    (ht : '/' ∉ config.targetExtension)
    (hf : file ∈ files.find config.routesPath config.sourceExtension)
    (hm : ∀ other ∈ files.find config.routesPath config.sourceExtension,
      other.moduleOf config ≠ file)
    (hc : ¬InCache config files file) : after.entry file = files.entry file := by
  rcases h.eq_or_leadsTo with rfl | ⟨root, hr⟩
  case inl => rfl
  case inr =>
    have ⟨names, name, he, hfound⟩ := (mem_find_iff hv hr).mp hf
    have ⟨content, hcontent⟩ := hfound.isFile
    have hentry {now : FileSystem} (hk : files.KeepsDirectories now)
        (hg : now.get? (root ++ names ++ [name]) = files.get? (root ++ names ++ [name])) :
        now.entry file = files.entry file := by
      rw [he, (hk.leadsTo hfound.leadsTo).entry_name hfound.isFileName,
        hfound.leadsTo.entry_name hfound.isFileName, hg]
    have hopen := changes_openCache hv config
    have hkeeps := hopen.keepsDirectories hv.grounded
    have hsame := hopen.get?_of_not hv.grounded (by rw [hcontent]; simp)
    cases h
    case idle => rfl
    case stopped ho =>
      rw [ho] at hkeeps hsame
      exact hentry hkeeps hsame
    case done opened cache order _ ho hp =>
      rw [ho] at hopen hkeeps hsame
      have hat : ∀ c ∈ cache, ∃ place, c.IsAt opened place := by
        rintro c ⟨⟩
        exact exists_isAt hv ho
      have hrun := changes_buildFiles (hopen.grounded hv.grounded) (.refl opened) hat ht hp.subset
        ((sited_of_subset hv hr hp.subset).mono hkeeps)
      have huntouched : ¬Touched config cache opened
          (files.find config.routesPath config.sourceExtension) (root ++ names ++ [name]) := by
        rintro (⟨other, ho', hl⟩ | ⟨c, ⟨⟩, source, hl⟩)
        · exact hm other ho' (he ▸ moduleOf_eq_of_locate hv hr ht ho' hkeeps
            (hsame.trans hcontent) hl)
        · refine hc ⟨opened, _, source, ho, hl.trans ?_⟩
          rw [he, (hkeeps.leadsTo hfound.leadsTo).locate_name hfound.isFileName]
      exact hentry (hkeeps.trans (hrun.keepsDirectories (hopen.grounded hv.grounded)))
        ((hrun.get?_of_not (hopen.grounded hv.grounded) huntouched).trans hsame)

end Kept

section Lost

-- Files and directories of the same names, whatever the files hold.
structure Resembles (files alike : FileSystem) : Prop where
  valid : alike.Valid
  current_eq : alike.current = files.current
  directory_iff : ∀ key, alike.get? key = some .directory ↔ files.get? key = some .directory
  file_iff : ∀ key, (∃ content, alike.get? key = some (.file content)) ↔
    ∃ content, files.get? key = some (.file content)

variable {config : Config} {files alike now : FileSystem} {file : Path} {key : Key}
  {content : ByteArray}

theorem Resembles.refl (hv : files.Valid) : Resembles files files :=
  ⟨hv, rfl, fun _ => .rfl, fun _ => .rfl⟩

theorem Resembles.keepsDirectories (h : Resembles files alike) : files.KeepsDirectories alike :=
  ⟨h.current_eq, fun key => (h.directory_iff key).mpr⟩

theorem Resembles.set (h : Resembles files alike)
    (hk : ∃ old, files.get? key = some (.file old)) (content : ByteArray) :
    Resembles files (alike.set key (.file content)) := by
  obtain ⟨old, hold⟩ := (h.file_iff key).mpr hk
  have hn : key ≠ [] := by
    rintro rfl
    simp [get?] at hold
  have hvalid : (alike.set key (.file content)).Valid := by
    obtain ⟨parent, name, rfl⟩ := List.eq_nil_or_concat' key |>.resolve_left hn
    exact h.valid.set (h.valid.get?_of_append hold)
      (h.valid.named _ (mem_entries_of_get? hn hold) name (by simp)) (by simp [hold])
  refine ⟨hvalid, h.current_eq, fun k => ?directory, fun k => ?file⟩
  case directory =>
    rw [← h.directory_iff]
    by_cases he : k = key
    case pos => simp [he, get?_set_self hn, hold]
    case neg => rw [get?_set_of_ne he]
  case file =>
    rw [← h.file_iff]
    by_cases he : k = key
    case pos => simp [he, get?_set_self hn, hold]
    case neg => rw [get?_set_of_ne he]

theorem Resembles.mem_find_iff (h : Resembles files alike) (hv : files.Valid) {p : Path}
    (hp : files.isDirectory p) (extension : Text) :
    file ∈ alike.find p extension ↔ file ∈ files.find p extension := by
  have hkeeps := h.keepsDirectories
  have hkeeps' : alike.KeepsDirectories files :=
    ⟨h.current_eq.symm, fun key => (h.directory_iff key).mp⟩
  obtain ⟨root, hroot⟩ := isDirectory_iff.mp hp
  rw [FileSystem.mem_find_iff hv hroot, FileSystem.mem_find_iff h.valid (hkeeps.leadsTo hroot)]
  constructor
  case mp =>
    rintro ⟨names, name, he, hf⟩
    exact ⟨names, name, he, hf.isFileName, hf.extension_eq, hkeeps'.leadsTo hf.leadsTo,
      (h.file_iff _).mp hf.isFile⟩
  case mpr =>
    rintro ⟨names, name, he, hf⟩
    exact ⟨names, name, he, hf.isFileName, hf.extension_eq, hkeeps.leadsTo hf.leadsTo,
      (h.file_iff _).mpr hf.isFile⟩

def IsGenerated (entry : Option Entry) : Prop :=
  ∃ t : Text, t.head? = some 'i' ∧ entry = some (.file (encode t))

theorem head?_code {file source : Text} {options : Options} {m : Module}
    (h : Component.compile file source options = .ok m) : m.code.head? = some 'i' := by
  have ⟨c, _, hm⟩ := Component.compile_eq_ok_iff.mp h
  rw [← hm]
  rfl

theorem not_isGenerated {t : Text} (h : t.head? ≠ some 'i') :
    ¬IsGenerated (some (.file (encode t))) := by
  intro ⟨u, hu, he⟩
  have hd : decode? (encode t) = decode? (encode u) := by
    rw [Entry.file.inj (Option.some.inj he)]
  rw [decode?_encode, decode?_encode, Option.some.injEq] at hd
  exact h (hd ▸ hu)

theorem entry_ne {after : FileSystem} {d : Path} {name t : Text} (ha : after.LeadsTo d key)
    (hf : files.LeadsTo d key) (hn : IsFileName name)
    (hg : IsGenerated (after.get? (key ++ [name])))
    (ht : files.get? (key ++ [name]) = some (.file (encode t))) (hi : t.head? ≠ some 'i') :
    after.entry (d.join ⟨name⟩) ≠ files.entry (d.join ⟨name⟩) := by
  have ⟨u, _, hu⟩ := hg
  rw [ha.entry_name hn, hf.entry_name hn, hu, ht]
  intro he
  rw [hu, Except.ok.inj he] at hg
  exact not_isGenerated hi hg

theorem buildFiles_append (config : Config) (cache : Option Cache) (files : FileSystem)
    (order others : List Path) : (buildFiles config cache files (order ++ others)).1 =
      (buildFiles config cache (buildFiles config cache files order).1 others).1 := by
  induction order generalizing files
  case nil => rfl
  case cons file order ih => exact ih _

variable (ht : '/' ∉ config.targetExtension)
include ht

theorem keepsDirectories_buildFile {d : Path} {place : Key} {name : Text} (hg : now.Grounded)
    (hs : Site now file d place name) : now.KeepsDirectories (buildFile config none now file).1 ∧
      (buildFile config none now file).1.Grounded := by
  have h :=
    @changes_buildFile config none now now [file] file d place name hg (.refl now) (by simp) ht
    (List.mem_singleton_self file) hs
  exact ⟨h.keepsDirectories hg, h.grounded hg⟩

theorem keepsDirectories_buildFiles {order : List Path} (hg : now.Grounded) (hs : Sited now order) :
    now.KeepsDirectories (buildFiles config none now order).1 ∧
      (buildFiles config none now order).1.Grounded := by
  have h := @changes_buildFiles config none now now order hg (.refl now) (by simp) ht order
    (List.Subset.refl order) hs
  exact ⟨h.keepsDirectories hg, h.grounded hg⟩

theorem get?_buildFile {d : Path} {place : Key} {name : Text} (hs : Site now file d place name)
    (key : Key) :
    (buildFile config none now file).1.get? key = now.get? key ∨
      IsGenerated ((buildFile config none now file).1.get? key) := by
  cases ha : attempt config now file
  case error => exact .inl (by rw [buildFile_of_error ht hs ha])
  case ok m =>
    rw [buildFile_of_ok ht hs ha]
    by_cases hk : key = place ++ [Path.moduleName config.targetExtension name]
    case neg => exact .inl (get?_set_of_ne hk)
    case pos =>
      have ⟨_, _, hc, _⟩ := attempt_eq_ok_iff.mp ha
      exact .inr ⟨m.code, head?_code hc, by rw [hk, get?_set_self (by simp)]⟩

theorem get?_buildFiles {order : List Path} (hg : now.Grounded) (hs : Sited now order) (key : Key) :
    (buildFiles config none now order).1.get? key = now.get? key ∨
      IsGenerated ((buildFiles config none now order).1.get? key) := by
  induction order generalizing now
  case nil => exact .inl rfl
  case cons file order ih =>
    have ⟨⟨d, place, name, hsite⟩, hs⟩ := List.forall_mem_cons.mp hs
    have ⟨hkeeps, hnext⟩ := keepsDirectories_buildFile ht hg hsite
    rcases ih hnext (Sited.mono hs hkeeps) with hsame | hnew
    case inr => exact .inr hnew
    case inl =>
      rcases get?_buildFile ht hsite key with hsame' | hnew
      case inl => exact .inl (hsame.trans hsame')
      case inr =>
        rw [← hsame] at hnew
        exact .inr hnew

theorem IsGenerated.buildFiles {order : List Path} (h : IsGenerated (now.get? key))
    (hg : now.Grounded)
    (hs : Sited now order) : IsGenerated ((buildFiles config none now order).1.get? key) := by
  rcases get?_buildFiles ht hg hs key with hsame | hnew
  case inl => exact hsame ▸ h
  case inr => exact hnew

-- If the module of a component is where a component is, then one of the two is lost: the first
-- before it is compiled, or the second when the module of the first is written.
theorem isGenerated_or_isGenerated {order : List Path} {d : Path} {place : Key} {name : Text}
    (hg : files.Grounded) (hs : Sited files order) (hf : file ∈ order)
    (hsite : Site files file d place name)
    (hsource : files.get? (place ++ [name]) = some (.file (encode Component.blank)))
    (hname : IsFileName (Path.moduleName config.targetExtension name))
    (hmodule : ∃ content, files.get? (place ++ [Path.moduleName config.targetExtension name]) =
      some (.file content)) :
    IsGenerated ((buildFiles config none files order).1.get? (place ++ [name])) ∨
      IsGenerated ((buildFiles config none files order).1.get?
        (place ++ [Path.moduleName config.targetExtension name])) := by
  obtain ⟨before, later, rfl⟩ := List.append_of_mem hf
  obtain ⟨hbefore, hlater⟩ := List.forall_mem_append.mp hs
  obtain ⟨hkeeps, hgnow⟩ := keepsDirectories_buildFiles ht hg hbefore
  rw [buildFiles_append]
  have hnow := get?_buildFiles ht hg hbefore
  generalize (buildFiles config none files before).1 = now at hkeeps hgnow hnow
  have hsnow : Sited now (file :: later) := Sited.mono hlater hkeeps
  have hsite := hsite.mono hkeeps
  rcases hnow (place ++ [name]) with hkept | hlost
  case inr => exact .inl (hlost.buildFiles ht hgnow hsnow)
  case inl =>
    obtain ⟨c, hread⟩ := Component.exists_read_blank
    have hfree : now.get? (place ++ [Path.moduleName config.targetExtension name]) ≠
        some .directory := by
      rcases hnow (place ++ [Path.moduleName config.targetExtension name]) with hsame | ⟨t, _, hnew⟩
      case inl =>
        obtain ⟨content, hcontent⟩ := hmodule
        simp [hsame, hcontent]
      case inr => simp [hnew]
    have hattempt : attempt config now file = .ok (c.toModule config.options) := by
      refine attempt_eq_ok_iff.mpr ⟨Component.blank, ?_,
        Component.compile_eq_ok_iff.mpr ⟨c, hread, rfl⟩,
        (hsite.isDirectory_moduleOf_eq_false_iff ht).mpr ⟨hname, hfree⟩⟩
      rw [readText, hsite.path_eq, hsite.leadsTo.entry_name hsite.isFileName, hkept, hsource]
      simp [decode?_encode]
    obtain ⟨hkeeps', hgnext⟩ := keepsDirectories_buildFile ht hgnow hsite
    have hsnext : Sited (buildFile config none now file).1 later :=
      Sited.mono (List.forall_mem_cons.mp hsnow).right hkeeps'
    have hwritten : IsGenerated ((buildFile config none now file).1.get?
        (place ++ [Path.moduleName config.targetExtension name])) := by
      obtain ⟨_, _, hc, _⟩ := attempt_eq_ok_iff.mp hattempt
      refine ⟨_, head?_code hc, ?_⟩
      rw [buildFile_of_ok ht hsite hattempt, get?_set_self (by simp)]
    exact .inr (hwritten.buildFiles ht hgnext hsnext)

theorem exists_lost (hv : files.Valid) {root : Key} (hr : files.LeadsTo config.routesPath root)
    (hc : config.cacheDir = none) (hf : file ∈ files.find config.routesPath config.sourceExtension)
    (hm : file.moduleOf config ∈ files.find config.routesPath config.sourceExtension) :
    ∃ alike, Resembles files alike ∧ ∀ after, Built config alike after →
      ∃ file ∈ files.find config.routesPath config.sourceExtension,
        after.entry file ≠ alike.entry file := by
  have ⟨names, name, he, hfound⟩ := (mem_find_iff hv hr).mp hf
  have hmodule := found_moduleName hv hr ht hfound (he ▸ hm)
  have hs : Site files file (pathBelow config.routesPath names) (root ++ names) name :=
    he ▸ hfound.site hv
  let moduleKey := root ++ names ++ [Path.moduleName config.targetExtension name]
  let alike := (files.set moduleKey (.file (encode []))).set (root ++ names ++ [name])
    (.file (encode Component.blank))
  have halike : Resembles files alike :=
    ((Resembles.refl hv).set hmodule.isFile _).set hfound.isFile _
  have hkeeps := halike.keepsDirectories
  have hfile : alike.get? (root ++ names ++ [name]) = some (.file (encode Component.blank)) :=
    get?_set_self (by simp)
  have ⟨t, ht', htext⟩ : ∃ t : Text, t.head? ≠ some 'i' ∧
      alike.get? moduleKey = some (.file (encode t)) := by
    by_cases hn : moduleKey = root ++ names ++ [name]
    case pos => exact ⟨Component.blank, by decide, hn ▸ hfile⟩
    case neg =>
      exact ⟨[], by decide, by rw [get?_set_of_ne hn, get?_set_self (by simp [moduleKey])]⟩
  have hfind (file : Path) : file ∈ alike.find config.routesPath config.sourceExtension ↔
      file ∈ files.find config.routesPath config.sourceExtension :=
    halike.mem_find_iff hv hr.isDirectory config.sourceExtension
  refine ⟨alike, halike, fun after h => ?_⟩
  have hd : alike.isDirectory config.routesPath := (hkeeps.leadsTo hr).isDirectory
  cases h
  case idle hn => simp [hd] at hn
  case stopped ho => simp [openCache_none hc] at ho
  case done opened cache order _ ho hp =>
    rw [openCache_none hc] at ho
    cases ho
    have hsites : Sited alike order := sited_of_subset halike.valid (hkeeps.leadsTo hr) hp.subset
    have hleads := hkeeps.leadsTo hfound.leadsTo
    have hleads' :=
      (keepsDirectories_buildFiles ht halike.valid.grounded hsites).left.leadsTo hleads
    rcases isGenerated_or_isGenerated ht halike.valid.grounded hsites
      (hp.mem_iff.mpr ((hfind file).mpr hf))
      (hs.mono hkeeps) hfile hmodule.isFileName ⟨_, htext⟩ with hlost | hlost
    case inl =>
      refine ⟨file, hf, ?_⟩
      rw [he]
      exact entry_ne hleads' hleads hfound.isFileName hlost hfile (by decide)
    case inr =>
      refine ⟨_, hm, ?_⟩
      rw [hs.moduleOf_eq ht]
      exact entry_ne hleads' hleads hmodule.isFileName hlost htext ht'

end Lost

-- In whatever order the jobs of a build are done. The last part says where components are lost: if
-- the module of one can be where another is, no order of the jobs keeps all that they can hold.
theorem build_keeps_components {config : Config} {files : FileSystem} (hv : files.Valid)
    (ht : '/' ∉ config.targetExtension) :
    Built config files (build config files).1 ∧
    (∀ after, Built config files after →
      ∀ file ∈ files.find config.routesPath config.sourceExtension,
        (∀ other ∈ files.find config.routesPath config.sourceExtension,
          other.moduleOf config ≠ file) →
        ¬InCache config files file → after.entry file = files.entry file) ∧
    (¬config.Clashes → config.cacheDir = none ∨ config.sourceExtension ≠ "json".toList →
      ∀ after, Built config files after →
        ∀ file ∈ files.find config.routesPath config.sourceExtension,
          after.entry file = files.entry file) ∧
    (config.cacheDir = none → files.isDirectory config.routesPath →
      ((∃ file ∈ files.find config.routesPath config.sourceExtension,
          file.moduleOf config ∈ files.find config.routesPath config.sourceExtension) ↔
        ∃ alike, Resembles files alike ∧ ∀ after, Built config alike after →
          ∃ file ∈ files.find config.routesPath config.sourceExtension,
            after.entry file ≠ alike.entry file)) := by
  refine ⟨built_build config files, fun after h file hf hm hc => h.entry_eq hv ht hf hm hc,
    fun hclash hcache after h file hf => ?safe, fun hc hd => ⟨fun ⟨file, hf, hm⟩ => ?lost, ?kept⟩⟩
  case safe =>
    rcases h.eq_or_leadsTo with rfl | ⟨root, hr⟩
    case inl => rfl
    case inr =>
      refine h.entry_eq hv ht hf (fun other ho he => ?_) ?_
      · exact hclash (clashes_of_moduleOf_mem hv hr ht ho (he ▸ hf))
      · rcases hcache with hc | hx
        case inl => exact not_inCache_of_cacheDir hc files file
        case inr =>
          have ⟨names, name, he, hfound⟩ := (mem_find_iff hv hr).mp hf
          exact he ▸ not_inCache_of_extension hv hfound hx
  case lost =>
    have ⟨root, hr⟩ := isDirectory_iff.mp hd
    exact exists_lost ht hv hr hc hf hm
  case kept =>
    intro ⟨alike, halike, hlost⟩
    have ⟨file, hf, hne⟩ := hlost _ (built_build config alike)
    have hfind (file : Path) :=
      @Resembles.mem_find_iff files alike file halike hv _ hd config.sourceExtension
    by_contra hn
    refine hne ((built_build config alike).entry_eq halike.valid ht ((hfind file).mpr hf)
      (fun other ho he => hn ⟨other, (hfind other).mp ho, he ▸ hf⟩)
      (not_inCache_of_cacheDir hc alike file))

theorem build_keeps_components_tree : ∃ (config : Config) (files : FileSystem),
    config = { routesDir := ⟨"r".toList⟩, cacheDir := some ⟨"c".toList⟩ } ∧ files.Valid ∧
    files.find config.routesPath config.sourceExtension =
      [⟨"./r/a.dribble".toList⟩, ⟨"./r/s/a.dribble".toList⟩] ∧
    (build config files).1.entry ⟨"./r/a.dribble".toList⟩ = files.entry ⟨"./r/a.dribble".toList⟩ ∧
    (build config files).1.entry ⟨"./r/s/a.dribble".toList⟩ =
      files.entry ⟨"./r/s/a.dribble".toList⟩ := by
  let config : Config := { routesDir := ⟨"r".toList⟩, cacheDir := some ⟨"c".toList⟩ }
  let files : FileSystem :=
    { entries :=
      [(["r".toList], .directory), (["r".toList, "s".toList], .directory),
        (["r".toList, "a.dribble".toList], .file (encode Component.blank)),
        (["r".toList, "s".toList, "a.dribble".toList], .file (encode Component.blank))] }
  have hv : files.Valid := by decide
  have hfound : files.find config.routesPath config.sourceExtension =
      [⟨"./r/a.dribble".toList⟩, ⟨"./r/s/a.dribble".toList⟩] := by cbv
  have hclash : ¬config.Clashes := by
    unfold Config.Clashes
    decide
  obtain ⟨hbuilt, _, hkeeps, _⟩ := @build_keeps_components config files hv (by decide)
  have hall := hkeeps hclash (.inr (by decide)) _ hbuilt
  rw [hfound] at hall
  exact ⟨config, files, rfl, hv, hfound, hall _ (by simp), hall _ (by simp)⟩

-- A component with the extension of modules is replaced by its own module, and one that is where
-- the cache looks for its module is removed.
theorem build_loses_components :
    (∃ (config : Config) (files : FileSystem),
      config = { routesDir := ⟨"r".toList⟩, sourceExtension := "ts".toList } ∧
      files = { entries :=
        [(["r".toList], .directory),
          (["r".toList, "a.ts".toList], .file (encode Component.blank))] } ∧
      files.Valid ∧ files.find config.routesPath config.sourceExtension = [⟨"./r/a.ts".toList⟩] ∧
      (build config files).1.entry ⟨"./r/a.ts".toList⟩ ≠ files.entry ⟨"./r/a.ts".toList⟩) ∧
    ∃ (config : Config) (files : FileSystem) (name : Text),
      config = { routesDir := ⟨"r".toList⟩, cacheDir := some ⟨"r".toList⟩,
                 sourceExtension := "json".toList } ∧
      name = Cache.entryName {} [] ∧
      files = { entries :=
        [(["r".toList], .directory), (["r".toList, name], .file (encode []))] } ∧
      files.Valid ∧ files.find config.routesPath config.sourceExtension =
        [⟨"./r/".toList ++ name⟩] ∧
      (build config files).1.entry ⟨"./r/".toList ++ name⟩ ≠
        files.entry ⟨"./r/".toList ++ name⟩ := by
  refine ⟨⟨_, _, rfl, rfl, by decide, by cbv, ?_⟩,
    _, _, _, rfl, rfl, rfl, by decide +kernel, by decide +kernel, by decide +kernel⟩
  let config : Config := { routesDir := ⟨"r".toList⟩, sourceExtension := "ts".toList }
  let files : FileSystem :=
    { entries :=
      [(["r".toList], .directory), (["r".toList, "a.ts".toList], .file (encode Component.blank))] }
  show (build config files).1.entry ⟨"./r/a.ts".toList⟩ ≠ files.entry ⟨"./r/a.ts".toList⟩
  have hv : files.Valid := by decide
  have hleads : files.LeadsTo config.routesPath ["r".toList] := ⟨rfl, rfl⟩
  have hfound : files.Found config.routesPath ["r".toList] "ts".toList [] "a.ts".toList :=
    ⟨by decide, by decide, hleads, _, rfl⟩
  have hsite : Site files ⟨"./r/a.ts".toList⟩ config.routesPath ["r".toList] "a.ts".toList :=
    hfound.site hv
  have hfind : files.find config.routesPath config.sourceExtension = [⟨"./r/a.ts".toList⟩] := by cbv
  have hsites : Sited files [⟨"./r/a.ts".toList⟩] :=
    List.forall_mem_singleton.mpr ⟨_, _, _, hsite⟩
  have hbuild := (build_of_isDirectory (by decide) (@openCache_none config rfl files) rfl).left
  rw [hbuild, hfind]
  have hname : Path.moduleName config.targetExtension "a.ts".toList = "a.ts".toList := by decide
  have hkeeps := (@keepsDirectories_buildFiles config files (by decide) _ hv.grounded hsites).left
  have hlost := @isGenerated_or_isGenerated config files _ (by decide) _ _ _ _ hv.grounded hsites
    (List.mem_singleton_self _) hsite rfl (by decide) ⟨_, rfl⟩
  rw [hname, or_self] at hlost
  exact entry_ne (hkeeps.leadsTo hleads) hleads hfound.isFileName hlost rfl
    (by decide)

end Project
end Componentry
