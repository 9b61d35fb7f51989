import Componentry.Proofs.Build.Opening

/-!
The cache changes nothing but itself and the way to it. A build that takes modules from the cache
goes through the same files as one that compiles everything, side by side, and the two differ at
most where the cache is. What differs from the files before are the directories that were made for
the cache.
-/
namespace Componentry

open FileSystem

def FileSystem.AgreeOutside (place : Key) (a b : FileSystem) : Prop :=
  ∀ key, ¬place <+: key → a.get? key = b.get? key

-- No file is below a key that was not there before.
def FileSystem.AddsNoFile (place : Key) (before after : FileSystem) : Prop :=
  ∀ names content, names ≠ [] → after.get? (place ++ names) = some (.file content) →
    before.get? (place ++ names) = some (.file content)

namespace FileSystem.AgreeOutside

variable {place : Key} {a b : FileSystem}

theorem refl (place : Key) (a : FileSystem) : AgreeOutside place a a :=
  fun _ _ => rfl

theorem set (h : AgreeOutside place a b) (key : Key) (entry : Entry) :
    AgreeOutside place (a.set key entry) (b.set key entry) := by
  intro k hk
  by_cases he : k = key
  case pos =>
    subst he
    cases k
    case nil => rfl
    case cons => rw [get?_set_self (by simp), get?_set_self (by simp)]
  case neg => rw [get?_set_of_ne he, get?_set_of_ne he, h k hk]

theorem set_below (h : AgreeOutside place a b) {key : Key} (hk : place <+: key) (entry : Entry) :
    AgreeOutside place (a.set key entry) b := by
  intro k hn
  rw [get?_set_of_ne, h k hn]
  rintro rfl
  exact hn hk

end FileSystem.AgreeOutside

def Outcome.uncached : Outcome → Outcome
  | .written output _ => .written output false
  | .failed error => .failed error

namespace Project

-- Two builds side by side since `files`, one with the cache and one without.
structure Mirrors (config : Config) (cache : Cache) (place : Key) (files : FileSystem)
    (texts : List Text) (a b : FileSystem) : Prop where
  isAt : cache.IsAt a place
  keeps : Cache.Keeps config.options texts place a
  agree : AgreeOutside place a b
  fromLeft : files.KeepsDirectories a
  fromRight : files.KeepsDirectories b

namespace Mirrors

variable {config : Config} {cache : Cache} {place key : Key} {files a b : FileSystem}
  {texts : List Text}
variable {file d : Path} {name : Text}

theorem mono {others : List Text} (h : Mirrors config cache place files texts a b)
    (hs : texts ⊆ others) : Mirrors config cache place files others a b :=
  ⟨h.isAt, h.keeps.mono hs, h.agree, h.fromLeft, h.fromRight⟩

-- What the cache gives is what would have been compiled, and what it keeps is what was compiled.
theorem obtain_eq (h : Mirrors config cache place files texts a b) (file : Path) {source : Text}
    (hc : Cache.NoCollision config.options (source :: texts)) :
    ∃ after said hit, obtain config (some cache) a file source = (after, said,
        ((Component.compile file.text source config.options).mapError .component).map (·, hit)) ∧
      Mirrors config cache place files (source :: texts) after b ∧
      ∀ held, Cache.Holds config.options held place a →
        Cache.Holds config.options (source :: held) place after := by
  have hmore := h.mono (List.subset_cons_self source texts)
  by_cases hfile : ∃ content,
      a.get? (place ++ [Cache.entryName config.options source]) = some (.file content)
  case pos =>
    obtain ⟨content, hg⟩ := hfile
    obtain ⟨source', hm, c, hread, hname, he⟩ := h.keeps _ content (by simp) hg
    have hkey : Cache.key config.options source = Cache.key config.options source' := by
      simpa [Cache.entryName] using hname
    have hsource := hc.eq_of_key_eq (List.mem_cons_self ..) (List.mem_cons_of_mem _ hm) hkey
    subst hsource
    have hget := h.isAt.get_of_entry (he ▸ hg)
    have hcompile : Component.compile file.text source config.options =
        .ok (c.toModule config.options) := Component.compile_eq_ok_iff.mpr ⟨c, hread, rfl⟩
    refine ⟨a, [], true, by simp [obtain, hget, hcompile, Except.map, Except.mapError], hmore,
      fun held hh => hh.cons fun c' hc' => ?_⟩
    cases hread.symm.trans hc'
    rw [hg, he]
  case neg =>
    have hget := h.isAt.get_of_not_file (not_exists.mp hfile)
    cases hcompile : Component.compile file.text source config.options
    case error =>
      refine ⟨a, [], false, by simp [obtain, hget, hcompile, Except.map, Except.mapError], hmore,
        fun held hh => hh.cons fun c hread => ?_⟩
      simp [Component.compile_eq_ok_iff.mpr ⟨c, hread, rfl⟩] at hcompile
    case ok m =>
      obtain ⟨c, hread, hm⟩ := Component.compile_eq_ok_iff.mp hcompile
      subst hm
      rcases hg : a.get? (place ++ [Cache.entryName config.options source]) with _ | ⟨content⟩ | _
      case none =>
        have hfree : a.get? (place ++ [Cache.entryName config.options source]) ≠
            some .directory := by simp [hg]
        have hset := h.isAt.set_eq hfree (c.toModule config.options)
        have hdirectories := keepsDirectories_set hfree (.file (encode
          (Cache.entryText (Cache.key config.options source) (c.toModule config.options))))
        refine ⟨_, [], false, ?_, ⟨h.isAt.mono hdirectories, h.keeps.set hread,
          h.agree.set_below (List.prefix_append ..) _, h.fromLeft.trans hdirectories,
          h.fromRight⟩, fun held hh => hh.set hread hg⟩
        simp [obtain, hget, hcompile, hset, Except.map, Except.mapError]
      case some.file => exact absurd ⟨content, hg⟩ hfile
      case some.directory =>
        obtain ⟨said, hset⟩ := h.isAt.exists_set_eq hg (c.toModule config.options)
        refine ⟨a, said, false, ?_, hmore, fun held hh => absurd hg (hh.get?_ne _ (by simp))⟩
        simp [obtain, hget, hcompile, hset, Except.map, Except.mapError]

section Output

variable (hs : Site files file d key name) (ht : '/' ∉ config.targetExtension)
variable (hout : ∀ name, ¬place <+: key ++ [name])
include hs ht hout

theorem isDirectory_moduleOf_eq (h : Mirrors config cache place files texts a b) :
    b.isDirectory (file.moduleOf config) = a.isDirectory (file.moduleOf config) :=
  (hs.mono h.fromLeft).isDirectory_moduleOf_congr ht (hs.mono h.fromRight)
    (by rw [h.agree _ (hout _)])

theorem write (h : Mirrors config cache place files texts a b)
    (hd : a.isDirectory (file.moduleOf config) = false) (entry : Entry) :
    Mirrors config cache place files texts
      (a.set (key ++ [Path.moduleName config.targetExtension name]) entry)
      (b.set (key ++ [Path.moduleName config.targetExtension name]) entry) := by
  have hd' := (h.isDirectory_moduleOf_eq hs ht hout).trans hd
  have hleft := keepsDirectories_set
    (((hs.mono h.fromLeft).isDirectory_moduleOf_eq_false_iff ht).mp hd).right entry
  have hright := keepsDirectories_set
    (((hs.mono h.fromRight).isDirectory_moduleOf_eq_false_iff ht).mp hd').right entry
  refine ⟨h.isAt.mono hleft, h.keeps.congr fun names _ => get?_set_of_ne fun he => ?_,
    h.agree.set _ _, h.fromLeft.trans hleft, h.fromRight.trans hright⟩
  exact hout (Path.moduleName config.targetExtension name) (he ▸ List.prefix_append place names)

theorem step (h : Mirrors config cache place files texts a b)
    (hc : Cache.NoCollision config.options ((a.readText file).toOption.toList ++ texts)) :
    ∃ a' b' said result, buildFile config (some cache) a file = (a', said, result) ∧
      buildFile config none b file = (b', [], result.uncached) ∧
      Mirrors config cache place files ((a.readText file).toOption.toList ++ texts) a' b' ∧
      ∀ held, Cache.Holds config.options held place a →
        Cache.Holds config.options ((a.readText file).toOption.toList ++ held) place a' := by
  have hread : b.readText file = a.readText file :=
    (hs.mono h.fromLeft).readText_congr (hs.mono h.fromRight) (h.agree _ (hout name)).symm
  cases hr : a.readText file
  case error fault =>
    exact ⟨a, b, [], .failed (.file file fault), by simp [buildFile, hr],
      by simp [buildFile, hread, hr, Outcome.uncached], h, fun _ => id⟩
  case ok source =>
    have hc : Cache.NoCollision config.options (source :: texts) := by
      simpa [hr, Except.toOption] using hc
    obtain ⟨after, said, hit, hobtain, hafter, hholds⟩ := h.obtain_eq file hc
    cases hcompile : Component.compile file.text source config.options
    case error error =>
      rw [hcompile] at hobtain
      exact ⟨after, b, said, .failed (.component error),
        by simp [buildFile, hr, hobtain, Except.map, Except.mapError],
        by simp [buildFile, hread, hr, obtain, hcompile, Outcome.uncached], hafter, hholds⟩
    case ok m =>
      rw [hcompile] at hobtain
      have hsa := hs.mono hafter.fromLeft
      have hsb := hs.mono hafter.fromRight
      have hdirectory := hafter.isDirectory_moduleOf_eq hs ht hout
      cases hd : after.isDirectory (file.moduleOf config) <;> rw [hd] at hdirectory
      case true =>
        refine ⟨after, b, said, .failed (.file (file.moduleOf config) .isDirectory),
          ?_, ?_, hafter, hholds⟩
        · simp [buildFile, hr, hobtain, Except.map, Except.mapError,
            hsa.writeTo_of_isDirectory ht m hd]
        · simp [buildFile, hread, hr, obtain, hcompile, hsb.writeTo_of_isDirectory ht m hdirectory,
            Outcome.uncached]
      case false =>
        refine ⟨_, _, said, .written (file.moduleOf config) hit, ?_, ?_,
          hafter.write hs ht hout hd (.file (encode m.code)), fun held hh =>
            (hholds held hh).congr ?_⟩
        · simp [buildFile, hr, hobtain, Except.map, Except.mapError,
            hsa.writeTo_of_not_isDirectory ht m hd]
        · simp [buildFile, hread, hr, obtain, hcompile,
            hsb.writeTo_of_not_isDirectory ht m hdirectory, Outcome.uncached]
        · exact fun names _ => get?_set_of_ne fun he => hout _ (he ▸ List.prefix_append place names)

end Output
end Mirrors

def hashedIn (config : Config) (cache : Cache) (files : FileSystem) : List Path → List Text
  | [] => []
  | file :: others =>
    (files.readText file).toOption.toList ++
      hashedIn config cache (buildFile config (some cache) files file).1 others

theorem Mirrors.run {config : Config} {cache : Cache} {place root : Key} {files a b : FileSystem}
    {texts : List Text} {order : List Path} (h : Mirrors config cache place files texts a b)
    (hv : files.Valid) (hr : files.LeadsTo config.routesPath root)
    (ht : '/' ∉ config.targetExtension)
    (hout : ∀ names name, files.Found config.routesPath root config.sourceExtension names name →
      ∀ last, ¬place <+: root ++ names ++ [last])
    (ho : ∀ file ∈ order, file ∈ files.find config.routesPath config.sourceExtension)
    (hc : Cache.NoCollision config.options (hashedIn config cache a order ++ texts)) :
    ∃ a' b' said outcomes, buildFiles config (some cache) a order = (a', said, outcomes) ∧
      buildFiles config none b order = (b', [], outcomes.map fun e => (e.1, e.2.uncached)) ∧
      Mirrors config cache place files (hashedIn config cache a order ++ texts) a' b' := by
  induction order generalizing a b texts
  case nil => exact ⟨a, b, [], [], rfl, rfl, h⟩
  case cons file order ih =>
    have ⟨hf, ho⟩ := List.forall_mem_cons.mp ho
    have ⟨names, name, hfound, hs⟩ := exists_site hv hr hf
    have ⟨a', b', said, result, hleft, hright, hnext, _⟩ :=
      h.step hs ht (hout names name hfound) (hc.mono (by simp [hashedIn]))
    have hnextc : Cache.NoCollision config.options
        (hashedIn config cache a' order ++ ((a.readText file).toOption.toList ++ texts)) :=
      hc.mono (by simp [hashedIn, hleft])
    have ⟨a'', b'', said', outcomes, hleft', hright', hlast⟩ := ih hnext ho hnextc
    refine ⟨a'', b'', said ++ said', (file, result) :: outcomes,
      by simp [buildFiles, hleft, hleft'], by simp [buildFiles, hright, hright'], hlast.mono ?_⟩
    simp [hashedIn, hleft]

theorem ofOutcomes_uncached (root : Path) (outcomes : List (Path × Outcome)) :
    (Report.ofOutcomes root (outcomes.map fun e => (e.1, e.2.uncached))).compiled =
      (Report.ofOutcomes root outcomes).compiled ∧
    (Report.ofOutcomes root (outcomes.map fun e => (e.1, e.2.uncached))).failures =
      (Report.ofOutcomes root outcomes).failures := by
  have hwritten (o : Outcome) : o.uncached.isWritten = o.isWritten := by cases o <;> rfl
  have hfailure (o : Outcome) (file : Path) :
      o.uncached.failure? root file = o.failure? root file := by
    cases o <;> rfl
  simp [Report.ofOutcomes_eq, Function.comp_def, hwritten, hfailure]

def hashed (config : Config) (files : FileSystem) : List Text :=
  if files.isDirectory config.routesPath then
    match openCache config files with
    | (files, .ok (some cache)) =>
      hashedIn config cache files (files.find config.routesPath config.sourceExtension)
    | _ => []
  else []

theorem hashed_eq {config : Config} {files opened : FileSystem} {cache : Cache}
    (hd : files.isDirectory config.routesPath)
    (h : openCache config files = (opened, .ok (some cache))) :
    hashed config files = hashedIn config cache opened
      (opened.find config.routesPath config.sourceExtension) := by
  simp only [hashed, hd, ↓reduceIte, h]

-- A build with a cache outside the tree of the components, which is there or is made.
structure Ready (options : Options) (directory : Path) (place : Key) (config : Config)
    (files : FileSystem) : Prop where
  valid : files.Valid
  options_eq : config.options = options
  cacheDir_eq : config.cacheDir = some directory
  opens : (openCache config files).2 = .ok (some ⟨directory⟩)
  isAt : Cache.IsAt ⟨directory⟩ (openCache config files).1 place
  not_separator : '/' ∉ config.targetExtension
  outside : ∀ root, files.LeadsTo config.routesPath root → ¬root <+: place

theorem buildFiles_cacheDir (config : Config) (cacheDir : Option Path) (cache : Option Cache)
    (files : FileSystem) (order : List Path) :
    buildFiles { config with cacheDir := cacheDir } cache files order =
      buildFiles config cache files order := by
  induction order generalizing files
  case nil => rfl
  case cons file order ih => simp only [buildFiles, ih]; rfl

theorem build_uncached {config : Config} {files after : FileSystem} {said : List Text}
    {outcomes : List (Path × Outcome)} (hd : files.isDirectory config.routesPath)
    (hb : buildFiles config none files (files.find config.routesPath config.sourceExtension) =
      (after, said, outcomes)) :
    (build { config with cacheDir := none } files).1 = after ∧
      (build { config with cacheDir := none } files).2.2 =
        .ok (Report.ofOutcomes config.root outcomes) :=
  @build_of_isDirectory { config with cacheDir := none } files _ _ _ _ _ hd
    (openCache_none rfl files) ((buildFiles_cacheDir config none none files _).trans hb)

-- Two builds with equal reports, what came from a cache apart, that leave the same at some places.
def AgreeAt (places : Key → Prop) (a b : FileSystem × Log × Except BuildError Report) : Prop :=
  ∃ report plain, a.2.2 = .ok report ∧ b.2.2 = .ok plain ∧ report.compiled = plain.compiled ∧
    report.failures = plain.failures ∧ ∀ key, places key → a.1.get? key = b.1.get? key

section Build

variable {options : Options} {directory : Path} {place root : Key} {config : Config}
variable {files : FileSystem} {texts : List Text}

-- The components are not in the cache either: all files that are there are entries.
theorem not_place_isPrefix (hk : Cache.Keeps options texts place files) {names : List Text}
    {name extension : Text} {p : Path} (hf : files.Found p root extension names name)
    (hn : ¬root <+: place) (last : Text) : ¬place <+: root ++ names ++ [last] := by
  intro hp
  rw [List.append_assoc] at hp
  rcases List.prefix_or_prefix_of_prefix hp (List.prefix_append root _) with ⟨more, he⟩ | hroot
  case inr => exact hn hroot
  case inl =>
    obtain ⟨content, hg⟩ := hf.isFile
    rw [← he, List.append_assoc, List.append_assoc] at hg
    obtain ⟨_, _, _, _, hentry, _⟩ := hk _ content (by simp) hg
    have hmore : more = [] := by
      have hlength := congrArg List.length hentry
      simp only [List.length_append, List.length_singleton] at hlength
      exact List.eq_nil_of_length_eq_zero (by omega)
    exact hn (by simp [← he, hmore])

theorem build_of_ready (h : Ready options directory place config files)
    (hk : Cache.Keeps options texts place files)
    (hc : Cache.NoCollision options (hashed config files ++ texts)) :
    AgreeAt (¬place <+: ·) (build config files)
        (build { config with cacheDir := none } (prepared config files)) ∧
      (prepared config files).KeepsDirectories (build config files).1 ∧
      Cache.Keeps options (hashed config files ++ texts) place (build config files).1 := by
  have ho := h.options_eq
  subst ho
  cases hd : files.isDirectory config.routesPath
  case false =>
    have hd' : files.isDirectory (Config.routesPath { config with cacheDir := none }) = false := hd
    have ⟨hfiles, hreport⟩ := build_of_not_isDirectory hd
    have ⟨hfiles', hreport'⟩ := build_of_not_isDirectory hd'
    rw [prepared_of_not_isDirectory hd, hfiles]
    refine ⟨⟨{}, {}, hreport, hreport', rfl, rfl, fun key _ => ?_⟩, .refl files, ?_⟩
    · rw [hfiles, hfiles']
    · simpa [hashed, hd] using hk
  case true =>
    have hkeeps := keepsDirectories_openCache h.valid config
    have hfound := find_openCache config hd config.sourceExtension
    have hopen : openCache config files = ((openCache config files).1, .ok (some ⟨directory⟩)) :=
      Prod.ext rfl h.opens
    have hv := valid_openCache h.valid config
    have hat := h.isAt
    have hbelow := keeps_openCache hk config
    have hout (root : Key) (hr : (openCache config files).1.LeadsTo config.routesPath root) :=
      h.outside root (hkeeps.leadsTo_of_isDirectory hd hr)
    have hhashed := hashed_eq hd hopen
    rw [prepared, if_pos hd]
    generalize (openCache config files).1 = opened at *
    have hd' : opened.isDirectory config.routesPath := hkeeps.isDirectory hd
    have ⟨root, hroot⟩ := isDirectory_iff.mp hd'
    have hstart : Mirrors config ⟨directory⟩ place opened texts opened opened :=
      ⟨hat, hbelow, .refl place opened, .refl opened, .refl opened⟩
    have ⟨a, b, said, outcomes, hleft, hright, hlast⟩ := hstart.run hv hroot h.not_separator
      (fun names name hf => not_place_isPrefix hbelow hf (hout root hroot)) (fun _ => id)
      (hhashed ▸ hc)
    have ⟨hfiles, hreport⟩ := build_of_isDirectory hd hopen hleft
    have ⟨hfiles', hreport'⟩ := build_uncached hd' hright
    have ⟨hcompiled, hfailures⟩ := ofOutcomes_uncached config.root outcomes
    refine ⟨⟨_, _, hreport, hreport', hcompiled.symm, hfailures.symm, ?_⟩, ?_, ?_⟩
    · rw [hfiles, hfiles']
      exact hlast.agree
    · rw [hfiles]
      exact hlast.fromLeft
    · rw [hfiles, hhashed]
      exact hlast.keeps

end Build

-- Two builds without a cache side by side, one with the directories that were made for a cache.
structure Beside (config : Config) (files a b : FileSystem) : Prop where
  agree : ∀ key, ¬Made config files key → a.get? key = b.get? key
  made : ∀ key, Made config files key → a.get? key = some .directory ∧ b.get? key = none
  fromLeft : files.KeepsDirectories a
  fromRight : files.KeepsDirectories b

namespace Beside

variable {config : Config} {files a b : FileSystem} {file d : Path} {key root : Key} {name : Text}

theorem start (hv : files.Valid) (config : Config) :
    Beside config files (prepared config files) files :=
  ⟨fun key hk => (get?_prepared config files key).resolve_right hk, fun _ hk => ⟨hk.right, hk.left⟩,
    keepsDirectories_prepared hv config, .refl files⟩

variable (hv : files.Valid) (ht : '/' ∉ config.targetExtension)
include hv ht

theorem step (h : Beside config files a b) (hs : Site files file d key name)
    (hf : files.get? (key ++ [name]) ≠ none)
    (hclear : (prepared config files).isDirectory (file.moduleOf config) →
      files.isDirectory (file.moduleOf config)) :
    ∃ a' b' result, buildFile config none a file = (a', [], result) ∧
      buildFile config none b file = (b', [], result) ∧ Beside config files a' b' := by
  have hsa := hs.mono h.fromLeft
  have hsb := hs.mono h.fromRight
  have hread : a.readText file = b.readText file :=
    hsb.readText_congr hsa (h.agree _ fun hm => hf hm.left)
  have hdirectory : a.isDirectory (file.moduleOf config) =
      b.isDirectory (file.moduleOf config) := by
    by_cases hm : Made config files (key ++ [Path.moduleName config.targetExtension name])
    case neg => exact hsb.isDirectory_moduleOf_congr ht hsa (by rw [h.agree _ hm])
    case pos =>
      have hs' := hs.mono (keepsDirectories_prepared hv config)
      have hd := hclear ((hs'.isDirectory_moduleOf_iff ht).mpr (.inr hm.right))
      rw [h.fromLeft.isDirectory hd, h.fromRight.isDirectory hd]
  have hattempt := attempt_congr hread hdirectory
  cases hb : attempt config b file
  case error error =>
    exact ⟨a, b, _, buildFile_of_error ht hsa (hattempt.trans hb), buildFile_of_error ht hsb hb, h⟩
  case ok m =>
    have ⟨_, _, _, hd⟩ := attempt_eq_ok_iff.mp hb
    have hfree := ((hsb.isDirectory_moduleOf_eq_false_iff ht).mp hd).right
    have hfree' := ((hsa.isDirectory_moduleOf_eq_false_iff ht).mp (hdirectory.trans hd)).right
    refine ⟨_, _, _, buildFile_of_ok ht hsa (hattempt.trans hb), buildFile_of_ok ht hsb hb,
      fun k hk => ?_, fun k hk => ?_, h.fromLeft.trans (keepsDirectories_set hfree' _),
      h.fromRight.trans (keepsDirectories_set hfree _)⟩
    · by_cases he : k = key ++ [Path.moduleName config.targetExtension name]
      case pos => rw [he, get?_set_self (by simp), get?_set_self (by simp)]
      case neg => rw [get?_set_of_ne he, get?_set_of_ne he, h.agree k hk]
    · have he : k ≠ key ++ [Path.moduleName config.targetExtension name] := by
        rintro rfl
        exact hfree' (h.made _ hk).left
      rw [get?_set_of_ne he, get?_set_of_ne he]
      exact h.made k hk

theorem run {order : List Path} (h : Beside config files a b)
    (hr : files.LeadsTo config.routesPath root) (hclear : Clear config files)
    (ho : order ⊆ files.find config.routesPath config.sourceExtension) :
    ∃ a' b' outcomes, buildFiles config none a order = (a', [], outcomes) ∧
      buildFiles config none b order = (b', [], outcomes) ∧ Beside config files a' b' := by
  induction order generalizing a b
  case nil => exact ⟨a, b, [], rfl, rfl, h⟩
  case cons file order ih =>
    have ⟨hf, ho⟩ := List.cons_subset.mp ho
    have ⟨names, name, hfound, hs⟩ := exists_site hv hr hf
    have hthere : files.get? (root ++ names ++ [name]) ≠ none := by
      have ⟨content, hg⟩ := hfound.isFile
      rw [hg]
      simp
    have ⟨a', b', result, hleft, hright, hnext⟩ := h.step hv ht hs hthere (hclear file hf)
    have ⟨a'', b'', outcomes, hleft', hright', hlast⟩ := ih hnext ho
    exact ⟨a'', b'', (file, result) :: outcomes, by simp [buildFiles, hleft, hleft'],
      by simp [buildFiles, hright, hright'], hlast⟩

theorem exists_build (hclear : Clear config files) :
    ∃ report, (build { config with cacheDir := none } (prepared config files)).2.2 = .ok report ∧
      (build { config with cacheDir := none } files).2.2 = .ok report ∧
      Beside config files (build { config with cacheDir := none } (prepared config files)).1
        (build { config with cacheDir := none } files).1 := by
  have hstart := start hv config
  cases hd : files.isDirectory config.routesPath
  case false =>
    have ⟨hfiles, hreport⟩ := @build_of_not_isDirectory { config with cacheDir := none } files hd
    rw [prepared_of_not_isDirectory hd] at hstart ⊢
    exact ⟨{}, hreport, hreport, by rwa [hfiles]⟩
  case true =>
    have hopened : prepared config files = (openCache config files).1 := if_pos hd
    have hfind := find_openCache config hd config.sourceExtension
    rw [← hopened] at hfind
    have hd' := hstart.fromLeft.isDirectory hd
    have ⟨root, hroot⟩ := isDirectory_iff.mp hd
    have ⟨a, b, outcomes, hleft, hright, hlast⟩ := hstart.run hv ht hroot hclear (fun _ => id)
    rw [← hfind] at hleft
    have ⟨hfiles, hreport⟩ := build_uncached hd' hleft
    have ⟨hfiles', hreport'⟩ := build_uncached hd hright
    exact ⟨_, hreport, hreport', by rwa [hfiles, hfiles']⟩

end Beside

-- What can have happened to the files, with the texts that were hashed on the way: at first no file
-- is in the cache, and then come changes that put none there, each with a build after it.
inductive History (options : Options) (directory : Path) (place : Key) :
    FileSystem → List Text → Prop
  | start {files}
    (hn : ∀ names content, names ≠ [] → files.get? (place ++ names) ≠ some (.file content)) :
    History options directory place files []
  | build {before edited texts config} (h : History options directory place before texts)
    (hu : AddsNoFile place before edited) (hr : Ready options directory place config edited) :
    History options directory place (build config edited).1 (hashed config edited ++ texts)

theorem History.keeps {options : Options} {directory : Path} {place : Key} {files : FileSystem}
    {texts : List Text} (h : History options directory place files texts)
    (hc : Cache.NoCollision options texts) : Cache.Keeps options texts place files := by
  induction h
  case start hn => exact fun names content hne hg => absurd hg (hn names content hne)
  case build before edited texts config h hu hr ih =>
    have ⟨_, _, hkeeps⟩ := build_of_ready hr ((ih (hc.mono (by simp))).of_files hu) hc
    exact hkeeps

-- A build with a cache does what a build without one does once the way to the cache is there. It
-- does what one does on the files as they are, the directories apart that were made, unless one of
-- them is where a module is to be written. A path that does not go up makes only directories on
-- that way.
theorem build_eq_uncached {options : Options} {directory : Path} {place : Key}
    {before edited : FileSystem} {texts : List Text} {config : Config}
    (h : History options directory place before texts) (hu : AddsNoFile place before edited)
    (hr : Ready options directory place config edited)
    (hc : Cache.NoCollision options (hashed config edited ++ texts)) :
    AgreeAt (¬place <+: ·) (build config edited)
      (build { config with cacheDir := none } (prepared config edited)) ∧
    (Clear config edited →
      AgreeAt (fun key => ¬place <+: key ∧ ¬Made config edited key) (build config edited)
        (build { config with cacheDir := none } edited) ∧
      ∀ key, Made config edited key → (build config edited).1.get? key = some .directory ∧
        (build { config with cacheDir := none } edited).1.get? key = none) ∧
    (.up ∉ steps directory →
      Clear config edited ∧ ∀ key, Made config edited key → key <+: place) := by
  have hkeeps := (h.keeps (hc.mono (by simp))).of_files hu
  have ⟨hagree, hdirectories, _⟩ := build_of_ready hr hkeeps hc
  refine ⟨hagree, fun hclear => ?_, fun hup => ?_⟩
  · have ⟨report, plain, hreport, hplain, hcompiled, hfailures, hfiles⟩ := hagree
    have ⟨plain', hplain', hsame, hbeside⟩ := Beside.exists_build hr.valid hr.not_separator hclear
    cases hplain.symm.trans hplain'
    refine ⟨⟨report, plain, hreport, hsame, hcompiled, hfailures, fun key hk => ?_⟩,
      fun key hk => ⟨hdirectories.get?_eq key hk.right, (hbeside.made key hk).right⟩⟩
    rw [hfiles key hk.left, hbeside.agree key hk.right]
  · have hmade (key : Key) (hk : Made config edited key) : key <+: place :=
      hk.isPrefix hr.valid hr.cacheDir_eq hup hr.isAt
    exact ⟨clear_of_not_isPrefix hr.valid hr.not_separator fun root key hroot hk hp =>
      hr.outside root hroot (hp.trans (hmade key hk)), hmade⟩

def pageText : Text :=
  "export ephemeral A() \x7b render(a) \x7d".toList

def page : FileSystem where
  entries :=
    [(["p".toList], .directory),
      (["p".toList, "r".toList], .directory),
      (["p".toList, "r".toList, "a.dribble".toList], .file (encode pageText))]
  current := ["p".toList]

def pageConfig : Config :=
  { routesDir := ⟨"r".toList⟩, cacheDir := some ⟨".dribble/cache".toList⟩ }

def pageCache : Key :=
  ["p".toList, ".dribble".toList, "cache".toList]

def movedPage : FileSystem :=
  ((build pageConfig page).1.erase ["p".toList, "r".toList, "a.dribble".toList]).set
    ["p".toList, "r".toList, "b.dribble".toList] (.file (encode pageText))

theorem ready_pageConfig {files : FileSystem} (hv : files.Valid)
    (ho : (openCache pageConfig files).2 = .ok (some ⟨⟨".dribble/cache".toList⟩⟩))
    (hc : (openCache pageConfig files).1.locate ⟨".dribble/cache".toList⟩ = .ok pageCache)
    (hd : (openCache pageConfig files).1.get? pageCache = some .directory)
    (hr : files.locate pageConfig.routesPath = .ok ["p".toList, "r".toList]) :
    Ready {} ⟨".dribble/cache".toList⟩ pageCache pageConfig files := by
  refine ⟨hv, rfl, rfl, ho, ⟨.inr hc, hd⟩, by decide, fun root hroot => ?_⟩
  cases hr.symm.trans hroot.locate_eq
  decide

-- The module was kept under the other name, in directories that the first build made.
theorem build_eq_uncached_movedPage :
    Made pageConfig page ["p".toList, ".dribble".toList] ∧
    AgreeAt (fun key => ¬pageCache <+: key ∧ ¬Made pageConfig movedPage key)
      (build pageConfig movedPage) (build { pageConfig with cacheDir := none } movedPage) := by
  have hempty : History {} ⟨".dribble/cache".toList⟩ pageCache page [] := by
    refine .start fun names content hn h => ?_
    obtain ⟨name, others, he⟩ := List.exists_cons_of_ne_nil hn
    simp [he, page, pageCache, get?, List.lookup_cons] at h
  have hbuilt := hempty.build (fun _ _ _ => id) (ready_pageConfig (by decide) (by decide +kernel)
    (by decide +kernel) (by decide +kernel) (by decide +kernel))
  have hwithin : AddsNoFile pageCache (build pageConfig page).1 movedPage := by
    intro names content _ h
    rwa [movedPage, get?_set_of_ne (by simp [pageCache]),
      get?_erase_of_not_isPrefix (by simp [pageCache])] at h
  have hready : Ready {} ⟨".dribble/cache".toList⟩ pageCache pageConfig movedPage :=
    ready_pageConfig (by decide +kernel) (by decide +kernel) (by decide +kernel)
      (by decide +kernel) (by decide +kernel)
  have hfirst : hashed pageConfig page = [pageText] := by decide +kernel
  have hsecond : hashed pageConfig movedPage = [pageText] := by decide +kernel
  have hcollision : Cache.NoCollision {}
      (hashed pageConfig movedPage ++ (hashed pageConfig page ++ [])) := by
    rw [hfirst, hsecond]
    exact .of_forall_eq (t := pageText) (by simp)
  obtain ⟨_, hfiles, hup⟩ := build_eq_uncached hbuilt hwithin hready hcollision
  exact ⟨⟨by decide, by decide +kernel⟩, (hfiles (hup (by decide)).left).left⟩

-- The path to the cache leads through a directory that is made where the module is to be written.
theorem build_ne_uncached : ∃ (config : Config) (files : FileSystem) (directory : Path)
    (place : Key), config = { routesDir := ⟨"r".toList⟩, cacheDir := some directory } ∧
    directory = ⟨"r/a.ts/../../c".toList⟩ ∧
    files = { entries :=
      [(["r".toList], .directory),
        (["r".toList, "a.dribble".toList], .file (encode pageText))] } ∧
    History {} directory place files [] ∧ Ready {} directory place config files ∧
    Cache.NoCollision {} (hashed config files) ∧
    (build config files).2.2 = .ok ⟨0, 0, [⟨"r/a.dribble".toList,
      "failed to access ./r/a.ts: Is a directory (os error 21)".toList⟩]⟩ ∧
    (build { config with cacheDir := none } files).2.2 = .ok ⟨1, 0, []⟩ := by
  refine ⟨_, _, _, ["c".toList], rfl, rfl, rfl, .start fun names content hn h => ?empty,
    ⟨by decide, rfl, rfl, by decide +kernel, ⟨.inr (by decide +kernel), by decide +kernel⟩,
      by decide, fun root hroot => ?outside⟩, ?collision, by decide +kernel, by decide +kernel⟩
  case empty =>
    obtain ⟨name, others, he⟩ := List.exists_cons_of_ne_nil hn
    simp [he, get?, List.lookup_cons] at h
  case outside =>
    have hr : root = ["r".toList] := (Except.ok.inj hroot.locate_eq).symm
    rw [hr]
    decide
  case collision =>
    exact .of_forall_eq (t := pageText) (by decide +kernel)

end Project
end Componentry
