import Componentry.Proofs.Build.Inputs
import Componentry.Proofs.Build.Overlay
import Componentry.Proofs.Build.Transparency

/-!
Building twice. The first build leaves in the cache the module of every component that can be
compiled, and in the files the module of every one that can be written. The second build finds all
of them, and writes what is there already.
-/
namespace Componentry

open FileSystem

structure FileSystem.Same (files after : FileSystem) : Prop where
  current_eq : after.current = files.current
  get?_eq : ∀ key, after.get? key = files.get? key

theorem FileSystem.Same.refl (files : FileSystem) : files.Same files :=
  ⟨rfl, fun _ => rfl⟩

theorem FileSystem.Same.keepsDirectories {files after : FileSystem} (h : files.Same after) :
    files.KeepsDirectories after :=
  ⟨h.current_eq, fun key hk => (h.get?_eq key).trans hk⟩

section Find

variable {files after : FileSystem} {p : Path} {root : Key} {extension : Text}

-- The order of paths leaves one way to list the same files.
theorem FileSystem.find_congr (hv : files.Valid) (hv' : after.Valid) (hp : files.LeadsTo p root)
    (hp' : after.LeadsTo p root)
    (h : ∀ names name, after.Found p root extension names name ↔
      files.Found p root extension names name) :
    after.find p extension = files.find p extension := by
  have hperm : (after.find p extension).Perm (files.find p extension) := by
    refine (List.perm_ext_iff_of_nodup (nodup_find hv' hp') (nodup_find hv hp)).mpr fun f => ?_
    simp only [mem_find_iff hv hp, mem_find_iff hv' hp', h]
  refine hperm.eq_of_pairwise (fun f g _ _ hfg hgf => ?_) (find_sorted hv' hp') (find_sorted hv hp)
  exact absurd (hfg.trans hgf) (lt_irrefl _)

end Find

namespace Project

def texts (files : FileSystem) (found : List Path) : List Text :=
  found.filterMap fun file => (files.readText file).toOption

theorem texts_cons (files : FileSystem) (file : Path) (found : List Path) :
    texts files (file :: found) = (files.readText file).toOption.toList ++ texts files found := by
  cases h : (files.readText file).toOption <;> simp [texts, h]

theorem texts_subset {files : FileSystem} {done found : List Path} (h : done ⊆ found) :
    texts files done ⊆ texts files found :=
  List.filterMap_subset _ h

-- The files when some jobs of a build with a cache are done, beside those of a build without one.
structure Filled (config : Config) (cache : Cache) (place : Key) (files a b : FileSystem)
    (done : List Path) : Prop where
  mirrors : Mirrors config cache place files (texts files done) a b
  overlay : Overlay config files b done
  holds : Cache.Holds config.options (texts files done) place a

def hitOutcome (config : Config) (file : Path) : Except BuildError Module → Outcome
  | .ok _ => .written (file.moduleOf config) true
  | .error error => .failed error

theorem ofOutcomes_hit (config : Config) (result : Path → Except BuildError Module)
    (l : List Path) :
    Report.ofOutcomes config.root (l.map fun file => (file, hitOutcome config file (result file))) =
      ⟨l.countP fun file => (result file).isOk, l.countP fun file => (result file).isOk,
        l.filterMap fun file => failure? config file (result file)⟩ := by
  have hwritten (file : Path) : (hitOutcome config file (result file)).isWritten =
      (result file).isOk := by
    cases result file <;> rfl
  have hcached (file : Path) : (hitOutcome config file (result file)).isCached =
      (result file).isOk := by
    cases result file <;> rfl
  have hfailure (file : Path) : (hitOutcome config file (result file)).failure? config.root file =
      failure? config file (result file) := by
    cases result file <;> rfl
  simp [Report.ofOutcomes_eq, Function.comp_def, hwritten, hcached, hfailure]

namespace Filled

variable {config : Config} {cache : Cache} {place root : Key} {files a b now : FileSystem}
variable {file : Path} {done : List Path}
variable (hv : files.Valid) (hr : files.LeadsTo config.routesPath root)
variable (ht : '/' ∉ config.targetExtension) (hout : ∀ rest, ¬place <+: root ++ rest)
variable (hdone : ∀ file ∈ done, file ∈ files.find config.routesPath config.sourceExtension)
variable (hx : ∀ file ∈ files.find config.routesPath config.sourceExtension,
  (file.moduleOf config).extension? ≠ some config.sourceExtension)

-- All texts that were read are in the cache if they can be compiled, and no other text has their
-- keys.
theorem obtain_again (h : Filled config cache place files a b done) (file : Path) {source : Text}
    (hm : source ∈ texts files done) (hc : Cache.NoCollision config.options (texts files done))
    (hnow : a.Same now) : obtain config (some cache) now file source = (now, [],
      ((Component.compile file.text source config.options).mapError .component).map (·, true)) := by
  have hat := h.mirrors.isAt.mono hnow.keepsDirectories
  cases hcompile : Component.compile file.text source config.options
  case error error =>
    have hnone (content : ByteArray) :
        now.get? (place ++ [Cache.entryName config.options source]) ≠ some (.file content) := by
      intro hg
      rw [hnow.get?_eq] at hg
      obtain ⟨source', hm', c, hread, hname, _⟩ := h.mirrors.keeps _ content (by simp) hg
      have hkey : Cache.key config.options source = Cache.key config.options source' := by
        simpa [Cache.entryName] using hname
      rw [← hc.eq_of_key_eq hm hm' hkey] at hread
      simp [Component.compile_eq_ok_iff.mpr ⟨c, hread, rfl⟩] at hcompile
    simp [obtain, hat.get_of_not_file hnone, hcompile, Except.map, Except.mapError]
  case ok m =>
    obtain ⟨c, hread, rfl⟩ := Component.compile_eq_ok_iff.mp hcompile
    have hget := hat.get_of_entry ((hnow.get?_eq _).trans (h.holds.get?_eq source hm c hread))
    simp [obtain, hget, Except.map, Except.mapError]

include hx in
theorem moduleOf_not_mem : ∀ file ∈ files.find config.routesPath config.sourceExtension,
    file.moduleOf config ∉ files.find config.routesPath config.sourceExtension := by
  intro file hf hm
  have hext := (List.mem_filter.mp ((find_perm files _ _).mem_iff.mp hm)).right
  exact hx file hf (by simpa using hext)

include hv hr ht hout hdone hx

theorem get?_source (h : Filled config cache place files a b done) {names : List Text} {name : Text}
    (hf : files.Found config.routesPath root config.sourceExtension names name) :
    a.get? (root ++ names ++ [name]) = files.get? (root ++ names ++ [name]) := by
  have ho : ¬place <+: root ++ names ++ [name] := by simpa using hout (names ++ [name])
  rw [h.mirrors.agree _ ho]
  exact h.overlay.kept _ fun other hm =>
    not_writes_source hv hr ht (moduleOf_not_mem hx) (hdone other hm) hf

theorem found_iff (h : Filled config cache place files a b done) (names : List Text) (name : Text) :
    a.Found config.routesPath root config.sourceExtension names name ↔
      files.Found config.routesPath root config.sourceExtension names name := by
  constructor
  case mp =>
    intro hf
    have ho : ¬place <+: root ++ names ++ [name] := by simpa using hout (names ++ [name])
    have ⟨content, hg⟩ := hf.isFile
    rw [h.mirrors.agree _ ho, h.overlay.kept] at hg
    case a =>
      -- A module that is written is no component.
      intro other hm hw
      have ⟨names', name', hfound, hs⟩ := exists_site hv hr (hdone other hm)
      have ⟨⟨m, ha⟩, hk⟩ := (writes_iff ht hs).mp hw
      have hname : name = Path.moduleName config.targetExtension name' := by
        simpa using (List.append_inj' hk rfl).right
      have hext := hx _ (hdone _ hm)
      rw [hs.moduleOf_eq ht, Path.extension?_join hs.leadsTo.text_ne_nil
        (isFileName_of_attempt ht hs ha), ← hname] at hext
      exact hext hf.extension_eq
    exact ⟨hf.isFileName, hf.extension_eq, hv.leadsTo_pathBelow hr hg, content, hg⟩
  case mpr =>
    intro hf
    have ⟨content, hg⟩ := hf.isFile
    rw [← h.get?_source hv hr ht hout hdone hx hf] at hg
    exact ⟨hf.isFileName, hf.extension_eq, h.mirrors.fromLeft.leadsTo hf.leadsTo, content, hg⟩

theorem readText_eq (h : Filled config cache place files a b done)
    (hf : file ∈ files.find config.routesPath config.sourceExtension) :
    a.readText file = files.readText file := by
  have ⟨names, name, hfound, hs⟩ := exists_site hv hr hf
  exact hs.readText_congr (hs.mono h.mirrors.fromLeft) (h.get?_source hv hr ht hout hdone hx hfound)

theorem step (h : Filled config cache place files a b done)
    (hf : file ∈ files.find config.routesPath config.sourceExtension) (hne : file ∉ done)
    (hc : Cache.NoCollision config.options (texts files (file :: done))) :
    ∃ a' b' said result, buildFile config (some cache) a file = (a', said, result) ∧
      result.uncached = outcome config file (attempt config files file) ∧
      Filled config cache place files a' b' (file :: done) := by
  have hread := h.readText_eq hv hr ht hout hdone hx hf
  have ⟨names, name, _, hs⟩ := exists_site hv hr hf
  have hout' : ∀ name, ¬place <+: root ++ names ++ [name] := fun name => by
    simpa using hout (names ++ [name])
  rw [texts_cons, ← hread] at hc
  have ⟨a', b', said, result, hleft, hright, hmirrors, hholds⟩ := h.mirrors.step hs ht hout' hc
  have ⟨after, hplain, hoverlay⟩ := h.overlay.step hv hr ht hdone (moduleOf_not_mem hx) hf hne
  have hsame := hright.symm.trans hplain
  simp only [Prod.mk.injEq, true_and] at hsame
  refine ⟨a', b', said, result, hleft, hsame.right, ?_, hsame.left ▸ hoverlay, ?_⟩
  · rwa [texts_cons, ← hread]
  · rw [texts_cons, ← hread]
    exact hholds _ h.holds

theorem run {order : List Path} (h : Filled config cache place files a b done)
    (ho : ∀ file ∈ order, file ∈ files.find config.routesPath config.sourceExtension)
    (hn : order.Nodup) (hd : order.Disjoint done)
    (hc : Cache.NoCollision config.options
      (texts files (files.find config.routesPath config.sourceExtension))) :
    ∃ a' b' said outcomes, buildFiles config (some cache) a order = (a', said, outcomes) ∧
      (outcomes.map fun e => (e.1, e.2.uncached)) =
        order.map (fun file => (file, outcome config file (attempt config files file))) ∧
      Filled config cache place files a' b' (order.reverse ++ done) := by
  induction order generalizing a b done
  case nil => exact ⟨a, b, [], [], rfl, rfl, h⟩
  case cons file order ih =>
    have ⟨hf, ho⟩ := List.forall_mem_cons.mp ho
    have ⟨hne, hn⟩ := List.nodup_cons.mp hn
    have ⟨hne', hd⟩ := List.disjoint_cons_left.mp hd
    have hdone' := List.forall_mem_cons.mpr ⟨hf, hdone⟩
    have ⟨a', b', said, result, hbuild, hresult, hnext⟩ :=
      h.step hv hr ht hout hdone hx hf hne' (hc.mono (texts_subset hdone'))
    have ⟨a'', b'', said', outcomes, hrest, hresults, hlast⟩ :=
      ih hdone' hnext ho hn (List.disjoint_cons_right.mpr ⟨hne, hd⟩)
    refine ⟨a'', b'', said ++ said', (file, result) :: outcomes, ?_, ?_, by simpa using hlast⟩
    · simp [buildFiles, hbuild, hrest]
    · simp [hresult, hresults]

theorem again (h : Filled config cache place files a b done) (hf : file ∈ done)
    (hc : Cache.NoCollision config.options (texts files done)) (hnow : a.Same now) :
    ∃ after, buildFile config (some cache) now file =
        (after, [], hitOutcome config file (attempt config files file)) ∧ a.Same after := by
  have ⟨names, name, _, hs⟩ := exists_site hv hr (hdone file hf)
  have hs' := hs.mono (h.mirrors.fromLeft.trans hnow.keepsDirectories)
  have hread : now.readText file = files.readText file := by
    rw [← h.readText_eq hv hr ht hout hdone hx (hdone file hf)]
    exact (hs.mono h.mirrors.fromLeft).readText_congr hs' (hnow.get?_eq _)
  have hkey : now.get? (root ++ names ++ [Path.moduleName config.targetExtension name]) =
      b.get? (root ++ names ++ [Path.moduleName config.targetExtension name]) := by
    rw [hnow.get?_eq, h.mirrors.agree _ (by simpa using hout (names ++ [_]))]
  have hdirectory : now.isDirectory (file.moduleOf config) =
      files.isDirectory (file.moduleOf config) :=
    hs.isDirectory_moduleOf_congr ht hs' (by
      rw [hkey, h.overlay.get?_eq_directory_iff hv hr ht hdone])
  cases hsource : files.readText file
  case error fault =>
    refine ⟨now, ?_, hnow⟩
    simp [buildFile, hread, hsource, attempt, Except.mapError, bind, Except.bind, hitOutcome]
  case ok source =>
    have hm : source ∈ texts files done :=
      List.mem_filterMap.mpr ⟨file, hf, by simp [hsource, Except.toOption]⟩
    have hobtain := h.obtain_again file hm hc hnow
    cases hcompile : Component.compile file.text source config.options <;> rw [hcompile] at hobtain
    case error error =>
      refine ⟨now, ?_, hnow⟩
      simp [buildFile, hread, hsource, hobtain, attempt, hcompile, Except.map,
        Except.mapError, bind, Except.bind, hitOutcome]
    case ok m =>
      cases hd : files.isDirectory (file.moduleOf config) <;> rw [hd] at hdirectory
      case true =>
        refine ⟨now, ?_, hnow⟩
        simp [buildFile, hread, hsource, hobtain, hs'.writeTo_of_isDirectory ht m hdirectory,
          attempt, hcompile, hd, Except.map, Except.mapError, bind, Except.bind, hitOutcome]
      case false =>
        have hattempt := attempt_eq_ok_iff.mpr ⟨source, hsource, hcompile, hd⟩
        have hwritten := h.overlay.written file hf m hattempt
        rw [entry_moduleOf ht hs h.overlay.keepsDirectories hattempt, ← hkey] at hwritten
        refine ⟨now.set (root ++ names ++ [Path.moduleName config.targetExtension name])
          (.file (encode m.code)), ?_, hnow.current_eq, fun key => ?_⟩
        · simp [buildFile, hread, hsource, hobtain, hs'.writeTo_of_not_isDirectory ht m hdirectory,
            hattempt, Except.map, Except.mapError, hitOutcome]
        · by_cases hk : key = root ++ names ++ [Path.moduleName config.targetExtension name]
          case neg => rw [get?_set_of_ne hk, hnow.get?_eq]
          case pos => rw [hk, get?_set_self (by simp), ← hwritten, hnow.get?_eq]

theorem runAgain {order : List Path} (h : Filled config cache place files a b done)
    (ho : order ⊆ done)
    (hc : Cache.NoCollision config.options (texts files done)) (hnow : a.Same now) :
    ∃ after, buildFiles config (some cache) now order = (after, [],
        order.map fun file => (file, hitOutcome config file (attempt config files file))) ∧
      a.Same after := by
  induction order generalizing now
  case nil => exact ⟨now, rfl, hnow⟩
  case cons file order ih =>
    have ⟨hf, ho⟩ := List.cons_subset.mp ho
    have ⟨next, hbuild, hnext⟩ := h.again hv hr ht hout hdone hx hf hc hnow
    have ⟨after, hrest, hafter⟩ := ih ho hnext
    exact ⟨after, by simp [buildFiles, hbuild, hrest], hafter⟩

end Filled

-- A cache whose directory is there or is made, with nothing in it, outside the tree of the
-- components.
structure Fresh (config : Config) (files : FileSystem) (directory : Path) (place : Key) : Prop where
  opens : (openCache config files).2 = .ok (some ⟨directory⟩)
  isAt : Cache.IsAt ⟨directory⟩ (openCache config files).1 place
  empty : ∀ names, names ≠ [] → (openCache config files).1.get? (place ++ names) = none
  outside : ∀ root, files.LeadsTo config.routesPath root → ¬root <+: place

section Twice

variable {config : Config} {files : FileSystem} {directory : Path} {place root : Key}

theorem valid_buildFiles {cache : Option Cache} {order : List Path} (hv : files.Valid)
    (hr : files.LeadsTo config.routesPath root) (ht : '/' ∉ config.targetExtension)
    (ho : ∀ c ∈ cache, ∃ place, c.IsAt files place)
    (hf : order ⊆ files.find config.routesPath config.sourceExtension) :
    (buildFiles config cache files order).1.Valid := by
  have hchanges := changes_buildFiles hv.grounded (.refl files) ho ht (List.Subset.refl order)
    (sited_of_subset hv hr hf)
  refine hchanges.valid hv fun key hk => ?_
  rcases hk with ⟨_, _, hl⟩ | ⟨_, _, _, hl⟩
  case inl => exact hv.locate_named hl
  case inr => exact hv.locate_named hl

theorem texts_openCache (hv : files.Valid) (hd : files.isDirectory config.routesPath) :
    texts (openCache config files).1 (files.find config.routesPath config.sourceExtension) =
      texts files (files.find config.routesPath config.sourceExtension) := by
  have ⟨root, hroot⟩ := isDirectory_iff.mp hd
  have hchanges := changes_openCache hv config
  refine List.filterMap_congr fun file hf => ?_
  have ⟨names, name, hfound, hs⟩ := exists_site hv hroot hf
  have ⟨content, hg⟩ := hfound.isFile
  have hsame := hchanges.get?_of_not hv.grounded (hg ▸ Option.some_ne_none _)
  rw [hs.readText_congr (hs.mono (hchanges.keepsDirectories hv.grounded)) hsame]

-- The jobs of a build with an empty cache, and then the same jobs again.
theorem jobs_twice {opened : FileSystem} (hv : opened.Valid) (ht : '/' ∉ config.targetExtension)
    (hr : opened.isDirectory config.routesPath) (hat : Cache.IsAt ⟨directory⟩ opened place)
    (hempty : ∀ names, names ≠ [] → opened.get? (place ++ names) = none)
    (hout : ∀ root, opened.LeadsTo config.routesPath root → ¬root <+: place)
    (hx : ∀ file ∈ opened.find config.routesPath config.sourceExtension,
      (file.moduleOf config).extension? ≠ some config.sourceExtension)
    (hc : Cache.NoCollision config.options
      (texts opened (opened.find config.routesPath config.sourceExtension))) :
    ∃ found a said outcomes after, opened.find config.routesPath config.sourceExtension = found ∧
      buildFiles config (some ⟨directory⟩) opened found = (a, said, outcomes) ∧
      (outcomes.map fun e => (e.1, e.2.uncached)) =
        found.map (fun file => (file, outcome config file (attempt config opened file))) ∧
      opened.KeepsDirectories a ∧ a.find config.routesPath config.sourceExtension = found ∧
      buildFiles config (some ⟨directory⟩) a found = (after, [],
        found.map fun file => (file, hitOutcome config file (attempt config opened file))) ∧
      a.Same after := by
  have ⟨root, hroot⟩ := isDirectory_iff.mp hr
  have hkeeps : Cache.Keeps config.options [] place opened := by
    intro names content hn hg
    simp [hempty names hn] at hg
  have hout' (rest : Key) : ¬place <+: root ++ rest := by
    intro hp
    rcases List.prefix_or_prefix_of_prefix hp (List.prefix_append root rest) with ⟨names, he⟩ | hn
    case inr => exact hout root hroot hn
    case inl =>
      have hnames : names = [] := by
        by_contra hn
        have hg := he ▸ hroot.get?_eq
        simp [hempty names hn] at hg
      exact hout root hroot (by simp [← he, hnames])
  have hstart : Filled config ⟨directory⟩ place opened opened opened [] :=
    ⟨⟨hat, hkeeps, .refl place opened, .refl opened, .refl opened⟩, .start config opened,
      fun names hn => by simp [hempty names hn], by simp [texts]⟩
  have ⟨a, b, said, outcomes, hbuild, houtcomes, hlast⟩ := hstart.run hv hroot ht hout' (by simp) hx
    (fun _ => id) (nodup_find hv hroot) (by simp) hc
  have hdone : ∀ file ∈ (opened.find config.routesPath config.sourceExtension).reverse ++ [],
      file ∈ opened.find config.routesPath config.sourceExtension := by simp
  have hvalid : a.Valid := by
    have hcache : ∀ c ∈ some (Cache.mk directory), ∃ place, c.IsAt opened place := by
      rintro _ ⟨⟩
      exact ⟨place, hat⟩
    have h := valid_buildFiles hv hroot ht hcache (List.Subset.refl _)
    rwa [hbuild] at h
  have hfind : a.find config.routesPath config.sourceExtension =
      opened.find config.routesPath config.sourceExtension :=
    find_congr hv hvalid hroot (hlast.mirrors.fromLeft.leadsTo hroot)
      (hlast.found_iff hv hroot ht hout' hdone hx)
  have hsubset : opened.find config.routesPath config.sourceExtension ⊆
      (opened.find config.routesPath config.sourceExtension).reverse ++ [] := by simp
  have ⟨after, hagain, hafter⟩ := hlast.runAgain hv hroot ht hout' hdone hx hsubset
    (hc.mono (texts_subset hdone)) (.refl a)
  exact ⟨_, a, said, outcomes, after, rfl, hbuild, houtcomes, hlast.mirrors.fromLeft, hfind, hagain,
    hafter⟩

end Twice

theorem build_twice {config : Config} {files : FileSystem} {directory : Path} {place : Key}
    (hv : files.Valid) (hf : Fresh config files directory place) (ht : '/' ∉ config.targetExtension)
    (hx : ∀ file ∈ files.find config.routesPath config.sourceExtension,
      (file.moduleOf config).extension? ≠ some config.sourceExtension)
    (hc : Cache.NoCollision config.options
      (texts files (files.find config.routesPath config.sourceExtension))) :
    ∃ first second, (build config files).2.2 = .ok first ∧
      (build config (build config files).1).2.2 = .ok second ∧
      second.compiled = first.compiled ∧ second.failures = first.failures ∧
      second.cached = second.compiled ∧
      ∀ key, (build config (build config files).1).1.get? key =
        (build config files).1.get? key := by
  cases hd : files.isDirectory config.routesPath
  case false =>
    have ⟨hfiles, hreport⟩ := build_of_not_isDirectory hd
    refine ⟨{}, {}, hreport, ?_, rfl, rfl, rfl, fun key => ?_⟩
    · rw [hfiles, hreport]
    · rw [hfiles, hfiles]
  case true =>
    have hopen : openCache config files = ((openCache config files).1, .ok (some ⟨directory⟩)) :=
      Prod.ext rfl hf.opens
    have hkeeps := keepsDirectories_openCache hv config
    have hfind := find_openCache config hd config.sourceExtension
    have hd' := hkeeps.isDirectory hd
    have ⟨found, a, said, outcomes, after, hfound, hbuild, houtcomes, hkept,
        hsame, hagain, hafter⟩ :=
      jobs_twice (valid_openCache hv config) ht hd' hf.isAt hf.empty
        (fun root hr => hf.outside root (hkeeps.leadsTo_of_isDirectory hd hr)) (hfind ▸ hx)
        (by rwa [hfind, texts_openCache hv hd])
    have ⟨hfiles, hreport⟩ := build_of_isDirectory hd hopen (hfound ▸ hbuild)
    have hopen' := openCache_of_isAt (makeDirectories_of_openCache hopen).left (hf.isAt.mono hkept)
    rw [← hsame] at hagain
    have ⟨hfiles', hreport'⟩ := build_of_isDirectory (hkept.isDirectory hd') hopen' hagain
    have ⟨hcompiled, hfailures⟩ := ofOutcomes_uncached config.root outcomes
    rw [houtcomes, ofOutcomes_map] at hcompiled hfailures
    rw [hsame, ofOutcomes_hit] at hreport'
    rw [hfiles]
    exact ⟨_, _, hreport, hreport', hcompiled, hfailures, rfl, fun key => by
      rw [hfiles', hafter.get?_eq]⟩

-- A cache in a directory that is still to be made, for one module that is written, one component
-- that fails, and one module that is kept in the cache but would replace a directory.
def pagesConfig : Config :=
  { routesDir := ⟨"r".toList⟩, cacheDir := some ⟨"k/c".toList⟩ }

theorem fresh_pages : Fresh pagesConfig pages ⟨"k/c".toList⟩ ["k".toList, "c".toList] := by
  have hopen : openCache pagesConfig pages =
      ((pages.set ["k".toList] .directory).set ["k".toList, "c".toList] .directory,
        .ok (some ⟨⟨"k/c".toList⟩⟩)) := by decide +kernel
  refine ⟨by rw [hopen], by rw [hopen]; exact ⟨.inr (by decide), by decide⟩, fun names hn => ?_,
    fun root hr => ?_⟩
  · have ⟨name, others, he⟩ := List.exists_cons_of_ne_nil hn
    rw [hopen, get?_set_of_ne (by simp [he]), get?_set_of_ne (by simp)]
    simp [he, pages, get?, List.lookup_cons]
  · have hroot : pages.locate pagesConfig.routesPath = .ok ["r".toList] := rfl
    cases hroot.symm.trans hr.locate_eq
    decide

theorem build_twice_pages : ∃ first second, (build pagesConfig pages).2.2 = .ok first ∧
    (build pagesConfig (build pagesConfig pages).1).2.2 = .ok second ∧
    second.compiled = first.compiled ∧ second.failures = first.failures ∧
    second.cached = second.compiled ∧
    ∀ key, (build pagesConfig (build pagesConfig pages).1).1.get? key =
      (build pagesConfig pages).1.get? key := by
  have hfound : pages.find pagesConfig.routesPath pagesConfig.sourceExtension =
      [⟨"./r/a.dribble".toList⟩, ⟨"./r/b.dribble".toList⟩, ⟨"./r/c.dribble".toList⟩] := by cbv
  have hkeys : ((texts pages [⟨"./r/a.dribble".toList⟩, ⟨"./r/b.dribble".toList⟩,
      ⟨"./r/c.dribble".toList⟩]).map (Cache.key pagesConfig.options)).Nodup := by decide +kernel
  refine build_twice (by decide) fresh_pages (by decide) ?_ ?_
  · rw [hfound]
    decide
  · rw [hfound]
    rintro message ⟨s, hs, rfl⟩ other ⟨t, ht, rfl⟩ h
    rw [List.inj_on_of_nodup_map hkeys hs ht h]

end Project
end Componentry
