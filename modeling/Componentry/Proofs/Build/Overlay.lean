import Componentry.Proofs.Build.Job

/-!
A build without a cache lays the modules over the files. Each job reads and writes what no other job
writes, so that the files come out the same in whatever order the jobs run.
-/
namespace Componentry

open FileSystem

namespace Project

def Writes (config : Config) (files : FileSystem) (file : Path) (key : Key) : Prop :=
  ∃ m, attempt config files file = .ok m ∧ files.locate (file.moduleOf config) = .ok key

-- The files when some jobs are done: the modules of those that succeed are there, all else is as it
-- was.
structure Overlay (config : Config) (files now : FileSystem) (done : List Path) : Prop where
  written : ∀ file ∈ done, ∀ m, attempt config files file = .ok m →
    now.entry (file.moduleOf config) = .ok (.file (encode m.code))
  kept : ∀ key, (∀ file ∈ done, ¬Writes config files file key) → now.get? key = files.get? key
  current_eq : now.current = files.current

namespace Overlay

variable {config : Config} {files now : FileSystem} {done : List Path}

theorem start (config : Config) (files : FileSystem) : Overlay config files files [] :=
  ⟨by simp, fun _ _ => rfl, rfl⟩

theorem of_subset {others : List Path} (h : Overlay config files now done) (hs : others ⊆ done)
    (hd : done ⊆ others) : Overlay config files now others :=
  ⟨fun file hf => h.written file (hs hf),
    fun key hk => h.kept key fun file hf => hk file (hd hf), h.current_eq⟩

end Overlay

theorem Writes.get?_ne_directory {config : Config} {files : FileSystem} {file : Path} {key : Key}
    (h : Writes config files file key) : files.get? key ≠ some .directory := by
  have ⟨m, ha, hl⟩ := h
  have ⟨_, _, _, hd⟩ := attempt_eq_ok_iff.mp ha
  intro hk
  simp [isDirectory_iff.mpr ⟨_, hl, hk⟩] at hd

section Output

variable {config : Config} {files : FileSystem} {file d : Path} {key : Key} {name : Text}
  {m : Module}
variable (ht : '/' ∉ config.targetExtension)
include ht

theorem isFileName_of_attempt (hs : Site files file d key name)
    (h : attempt config files file = .ok m) :
    IsFileName (Path.moduleName config.targetExtension name) := by
  have ⟨_, _, _, hd⟩ := attempt_eq_ok_iff.mp h
  exact ((hs.isDirectory_moduleOf_eq_false_iff ht).mp hd).left

theorem entry_moduleOf {now : FileSystem} (hs : Site files file d key name)
    (hk : files.KeepsDirectories now) (h : attempt config files file = .ok m) {entry : Entry} :
    now.entry (file.moduleOf config) = .ok entry ↔
      now.get? (key ++ [Path.moduleName config.targetExtension name]) = some entry := by
  rw [hs.moduleOf_eq ht, (hs.mono hk).leadsTo.entry_name (isFileName_of_attempt ht hs h)]
  cases now.get? (key ++ [Path.moduleName config.targetExtension name]) <;> simp

theorem writes_iff (hs : Site files file d key name) {k : Key} : Writes config files file k ↔
    (∃ m, attempt config files file = .ok m) ∧
      k = key ++ [Path.moduleName config.targetExtension name] := by
  have hl : ∀ m, attempt config files file = .ok m → files.locate (file.moduleOf config) =
      .ok (key ++ [Path.moduleName config.targetExtension name]) := by
    intro m h
    rw [hs.moduleOf_eq ht, hs.leadsTo.locate_name (isFileName_of_attempt ht hs h)]
  constructor
  case mp =>
    intro ⟨m, ha, hk⟩
    rw [hl m ha] at hk
    exact ⟨⟨m, ha⟩, by simpa using hk.symm⟩
  case mpr =>
    intro ⟨⟨m, ha⟩, hk⟩
    exact ⟨m, ha, by rw [hl m ha, hk]⟩

end Output

section Run

variable {config : Config} {files now : FileSystem} {file other : Path} {done : List Path}
  {root : Key}
variable (hv : files.Valid) (hr : files.LeadsTo config.routesPath root)
variable (ht : '/' ∉ config.targetExtension)
include hv hr ht

theorem eq_of_writes (hf : file ∈ files.find config.routesPath config.sourceExtension)
    (ho : other ∈ files.find config.routesPath config.sourceExtension) {key : Key}
    (h : Writes config files file key) (h' : Writes config files other key) : file = other := by
  have ⟨names, name, he, hfound⟩ := (mem_find_iff hv hr).mp hf
  have ⟨names', name', he', hfound'⟩ := (mem_find_iff hv hr).mp ho
  subst he he'
  have ⟨⟨m, ha⟩, hk⟩ := (writes_iff ht (hfound.site hv)).mp h
  have ⟨_, hk'⟩ := (writes_iff ht (hfound'.site hv)).mp h'
  have ⟨hnames, hname⟩ : names = names' ∧ Path.moduleName config.targetExtension name =
      Path.moduleName config.targetExtension name' := by
    simpa using List.append_inj' (hk.symm.trans hk') rfl
  have hup := (isFileName_of_attempt ht (hfound.site hv) ha).ne_up
  rw [hnames, Path.eq_of_moduleName_eq hfound.extension_eq hfound'.extension_eq hname hup]

variable (hsep : ∀ file ∈ files.find config.routesPath config.sourceExtension,
  file.moduleOf config ∉ files.find config.routesPath config.sourceExtension)
include hsep

theorem not_writes_source (ho : other ∈ files.find config.routesPath config.sourceExtension)
    {names : List Text} {name : Text}
    (hf : files.Found config.routesPath root config.sourceExtension names name) :
    ¬Writes config files other (root ++ names ++ [name]) := by
  intro h
  have ⟨names', name', he, hfound⟩ := (mem_find_iff hv hr).mp ho
  subst he
  have ⟨_, hk⟩ := (writes_iff ht (hfound.site hv)).mp h
  have ⟨hnames, hname⟩ : names = names' ∧ name = Path.moduleName config.targetExtension name' := by
    simpa using List.append_inj' hk rfl
  have hm := hsep _ ho
  rw [(hfound.site hv).moduleOf_eq ht, ← hnames, ← hname] at hm
  exact hm ((mem_find_iff hv hr).mpr ⟨names, name, rfl, hf⟩)

end Run

namespace Overlay

variable {config : Config} {files now : FileSystem} {file : Path} {done : List Path} {root : Key}

theorem keepsDirectories (h : Overlay config files now done) : files.KeepsDirectories now := by
  refine ⟨h.current_eq, fun key hk => ?_⟩
  rw [h.kept key fun file _ hw => hw.get?_ne_directory hk, hk]

theorem fail (h : Overlay config files now done) {error : BuildError}
    (ha : attempt config files file = .error error) : Overlay config files now (file :: done) := by
  refine ⟨List.forall_mem_cons.mpr ⟨fun m hm => ?_, h.written⟩, fun key hk => ?_, h.current_eq⟩
  · simp [ha] at hm
  · exact h.kept key (List.forall_mem_cons.mp hk).right

variable (hv : files.Valid) (hr : files.LeadsTo config.routesPath root)
variable (ht : '/' ∉ config.targetExtension)
variable (hdone : ∀ file ∈ done, file ∈ files.find config.routesPath config.sourceExtension)
include hv hr ht hdone

theorem get?_ne_directory (h : Overlay config files now done) (hf : file ∈ done) {key : Key}
    (hw : Writes config files file key) : now.get? key ≠ some .directory := by
  have ⟨names, name, _, hs⟩ := exists_site hv hr (hdone file hf)
  have ⟨⟨m, ha⟩, hk⟩ := (writes_iff ht hs).mp hw
  have hentry := h.written file hf m ha
  rw [entry_moduleOf ht hs h.keepsDirectories ha, ← hk] at hentry
  simp [hentry]

theorem get?_eq_directory_iff (h : Overlay config files now done) (key : Key) :
    now.get? key = some .directory ↔ files.get? key = some .directory := by
  constructor
  case mp =>
    intro hk
    rwa [h.kept key fun file hf hw => h.get?_ne_directory hv hr ht hdone hf hw hk] at hk
  case mpr => exact h.keepsDirectories.get?_eq key

theorem write (h : Overlay config files now done)
    (hf : file ∈ files.find config.routesPath config.sourceExtension) (hne : file ∉ done)
    {d : Path} {key : Key} {name : Text} (hs : Site files file d key name) {m : Module}
    (ha : attempt config files file = .ok m) :
    Overlay config files (now.set (key ++ [Path.moduleName config.targetExtension name])
      (.file (encode m.code))) (file :: done) := by
  have hw := (writes_iff ht hs).mpr ⟨⟨m, ha⟩, rfl⟩
  have hkeeps := h.keepsDirectories.trans <| keepsDirectories_set
    (mt (h.get?_eq_directory_iff hv hr ht hdone _).mp hw.get?_ne_directory) (.file (encode m.code))
  refine ⟨List.forall_mem_cons.mpr ⟨fun m' hm => ?own, fun other ho m' hm => ?others⟩,
    fun k hk => ?kept, h.current_eq⟩
  case own =>
    rw [entry_moduleOf ht hs hkeeps hm, get?_set_self (by simp)]
    cases ha.symm.trans hm
    rfl
  case others =>
    have ⟨names', name', _, hs'⟩ := exists_site hv hr (hdone other ho)
    have hentry := h.written other ho m' hm
    rw [entry_moduleOf ht hs' h.keepsDirectories hm] at hentry
    rw [entry_moduleOf ht hs' hkeeps hm, get?_set_of_ne ?ne, hentry]
    case ne =>
      intro hk
      have hw' := (writes_iff ht hs').mpr ⟨⟨m', hm⟩, hk.symm⟩
      exact hne (eq_of_writes hv hr ht hf (hdone _ ho) hw hw' ▸ ho)
  case kept =>
    have ⟨hfile, hothers⟩ := List.forall_mem_cons.mp hk
    have hkey : k ≠ key ++ [Path.moduleName config.targetExtension name] := by
      rintro rfl
      exact hfile hw
    rw [get?_set_of_ne hkey, h.kept k hothers]

variable (hsep : ∀ file ∈ files.find config.routesPath config.sourceExtension,
  file.moduleOf config ∉ files.find config.routesPath config.sourceExtension)
include hsep

-- A job does on the files as they are now what it would have done at first.
theorem step (h : Overlay config files now done)
    (hf : file ∈ files.find config.routesPath config.sourceExtension) (hne : file ∉ done) :
    ∃ after, buildFile config none now file =
      (after, [], outcome config file (attempt config files file)) ∧
      Overlay config files after (file :: done) := by
  have ⟨names, name, hfound, hs⟩ := exists_site hv hr hf
  have hs' := hs.mono h.keepsDirectories
  have hread := hs.readText_congr hs' <| h.kept _ fun other ho =>
    not_writes_source hv hr ht hsep (hdone other ho) hfound
  have hdirectory := hs.isDirectory_moduleOf_congr ht hs' (h.get?_eq_directory_iff hv hr ht hdone _)
  have hattempt := attempt_congr hread hdirectory
  cases ha : attempt config files file
  case error => exact ⟨now, buildFile_of_error ht hs' (hattempt.trans ha), h.fail ha⟩
  case ok =>
    exact ⟨_, buildFile_of_ok ht hs' (hattempt.trans ha), h.write hv hr ht hdone hf hne hs ha⟩

theorem run {order : List Path} (h : Overlay config files now done)
    (ho : ∀ file ∈ order, file ∈ files.find config.routesPath config.sourceExtension)
    (hn : order.Nodup) (hd : order.Disjoint done) :
    ∃ after, buildFiles config none now order =
      (after, [], order.map fun file => (file, outcome config file (attempt config files file))) ∧
      Overlay config files after (order.reverse ++ done) := by
  induction order generalizing now done
  case nil => exact ⟨now, rfl, h⟩
  case cons file order ih =>
    have ⟨hf, ho⟩ := List.forall_mem_cons.mp ho
    have ⟨hne, hn⟩ := List.nodup_cons.mp hn
    have ⟨hne', hd⟩ := List.disjoint_cons_left.mp hd
    have ⟨next, hbuild, hnext⟩ := h.step hv hr ht hdone hsep hf hne'
    have hdone' := List.forall_mem_cons.mpr ⟨hf, hdone⟩
    have ⟨after, hrest, hafter⟩ := ih hdone' hnext ho hn (List.disjoint_cons_right.mpr ⟨hne, hd⟩)
    refine ⟨after, ?_, by simpa using hafter⟩
    simp [buildFiles, hbuild, hrest]

end Overlay

-- Two components of one directory whose names are two and three dots before the extension.
def AreDots (config : Config) (files : FileSystem) (file other : Path) : Prop :=
  ∃ d, files.isDirectory d ∧
    (file = d.join ⟨'.' :: '.' :: config.sourceExtension⟩ ∧
      other = d.join ⟨'.' :: '.' :: '.' :: config.sourceExtension⟩ ∨
    file = d.join ⟨'.' :: '.' :: '.' :: config.sourceExtension⟩ ∧
      other = d.join ⟨'.' :: '.' :: config.sourceExtension⟩)

section Unique

variable {config : Config} {files a b : FileSystem} {file other : Path} {root : Key}
variable (hv : files.Valid) (hr : files.LeadsTo config.routesPath root)
variable (ht : '/' ∉ config.targetExtension)
include hv hr ht

theorem Overlay.get?_eq
    (ha : Overlay config files a (files.find config.routesPath config.sourceExtension))
    (hb : Overlay config files b (files.find config.routesPath config.sourceExtension))
    (key : Key) :
    a.get? key = b.get? key := by
  by_cases hw : ∃ file ∈ files.find config.routesPath config.sourceExtension,
    Writes config files file key
  case neg =>
    have hw : ∀ file ∈ files.find config.routesPath config.sourceExtension,
        ¬Writes config files file key := fun file hf h => hw ⟨file, hf, h⟩
    rw [ha.kept key hw, hb.kept key hw]
  case pos =>
    have ⟨file, hf, hw⟩ := hw
    have ⟨names, name, _, hs⟩ := exists_site hv hr hf
    have ⟨⟨m, hm⟩, hk⟩ := (writes_iff ht hs).mp hw
    have hentry := ha.written file hf m hm
    have hentry' := hb.written file hf m hm
    rw [entry_moduleOf ht hs ha.keepsDirectories hm] at hentry
    rw [entry_moduleOf ht hs hb.keepsDirectories hm] at hentry'
    rw [hk, hentry, hentry']

-- Where modules have no extension, what is left of the two names stands for the directory above.
theorem moduleOf_eq_iff (hf : file ∈ files.find config.routesPath config.sourceExtension)
    (ho : other ∈ files.find config.routesPath config.sourceExtension) (hne : file ≠ other) :
    file.moduleOf config = other.moduleOf config ↔
      config.targetExtension = [] ∧ AreDots config files file other := by
  have ⟨names, name, he, hfound⟩ := (mem_find_iff hv hr).mp hf
  have ⟨names', name', he', hfound'⟩ := (mem_find_iff hv hr).mp ho
  subst he he'
  have hs := hfound.site hv
  have hs' := hfound'.site hv
  have htext := hs.leadsTo.text_ne_nil
  have htext' := hs'.leadsTo.text_ne_nil
  have hsep := hs.isFileName.not_separator
  have hsep' := hs'.isFileName.not_separator
  rw [hs.moduleOf_eq ht, hs'.moduleOf_eq ht, Path.join_eq_join_iff htext htext'
    (hs.isPart_moduleName ht).not_separator (hs'.isPart_moduleName ht).not_separator,
    Path.moduleName_eq_iff hfound.extension_eq hfound'.extension_eq]
  constructor
  case mp =>
    rintro ⟨rfl | ⟨htarget, hdots⟩, hjoin⟩
    · exact absurd (hjoin name hsep) hne
    · refine ⟨htarget, _, hs.leadsTo.isDirectory, ?_⟩
      rw [← hjoin name' hsep']
      exact hdots.imp (fun ⟨h, h'⟩ => ⟨by rw [h], by rw [h']⟩) fun ⟨h, h'⟩ =>
        ⟨by rw [h], by rw [h']⟩
  case mpr =>
    intro ⟨htarget, d, hd, hdots⟩
    have ⟨_, hl, _⟩ := isDirectory_iff.mp hd
    have hdtext := text_ne_nil_of_locate hl
    have hext : '/' ∉ config.sourceExtension := by
      have ⟨stem, hname, _⟩ := Path.exists_stem hfound.extension_eq
      intro hm
      exact hsep (hname ▸ by simp [hm])
    have h₂ : '/' ∉ '.' :: '.' :: config.sourceExtension := by simp [hext]
    have h₃ : '/' ∉ '.' :: '.' :: '.' :: config.sourceExtension := by simp [hext]
    rcases hdots with ⟨hf, hg⟩ | ⟨hf, hg⟩
    case inl =>
      have ⟨hn, hj⟩ := (Path.join_eq_join_iff htext hdtext hsep h₂).mp hf
      have ⟨hn', hj'⟩ := (Path.join_eq_join_iff htext' hdtext hsep' h₃).mp hg
      exact ⟨.inr ⟨htarget, .inl ⟨hn, hn'⟩⟩, fun q hq => (hj q hq).trans (hj' q hq).symm⟩
    case inr =>
      have ⟨hn, hj⟩ := (Path.join_eq_join_iff htext hdtext hsep h₃).mp hf
      have ⟨hn', hj'⟩ := (Path.join_eq_join_iff htext' hdtext hsep' h₂).mp hg
      exact ⟨.inr ⟨htarget, .inr ⟨hn, hn'⟩⟩, fun q hq => (hj q hq).trans (hj' q hq).symm⟩

end Unique

section Report

def failure? (config : Config) (file : Path) : Except BuildError Module → Option Failure
  | .ok _ => none
  | .error error => some ⟨file.display config.root, error.message⟩

theorem ofOutcomes_map (config : Config) (result : Path → Except BuildError Module)
    (l : List Path) :
    Report.ofOutcomes config.root (l.map fun file => (file, outcome config file (result file))) =
      ⟨l.countP fun file => (result file).isOk, 0,
        l.filterMap fun file => failure? config file (result file)⟩ := by
  have hwritten (file : Path) : (outcome config file (result file)).isWritten =
      (result file).isOk := by
    cases result file <;> rfl
  have hcached (file : Path) : (outcome config file (result file)).isCached = false := by
    cases result file <;> rfl
  have hfailure (file : Path) :
      (outcome config file (result file)).failure? config.root file =
        failure? config file (result file) := by
    cases result file <;> rfl
  simp [Report.ofOutcomes_eq, Function.comp_def, hwritten, hcached, hfailure]

def inOrder (found : List Path) (outcomes : List (Path × Outcome)) : List (Path × Outcome) :=
  found.filterMap fun file => (outcomes.lookup file).map (file, ·)

theorem lookup_map {order : List Path} {file : Path} (h : file ∈ order) (result : Path → Outcome) :
    (order.map fun file => (file, result file)).lookup file = some (result file) := by
  induction order
  case nil => simp at h
  case cons other order ih =>
    by_cases he : file = other
    case pos => simp [he]
    case neg =>
      have hf : file ∈ order := by simpa [he] using h
      rw [List.map_cons, List.lookup_cons, beq_false_of_ne he, ih hf]

theorem inOrder_map {found order : List Path} (h : found ⊆ order) (result : Path → Outcome) :
    inOrder found (order.map fun file => (file, result file)) =
      found.map fun file => (file, result file) := by
  rw [inOrder, ← List.filterMap_eq_map]
  exact List.filterMap_congr fun file hf => by simp [lookup_map (h hf)]

end Report

-- The report is on the outcomes in the order of the files, and does not depend on the order of the
-- jobs.
theorem build_overlay {config : Config} {files : FileSystem} {order : List Path} (hv : files.Valid)
    (hc : config.cacheDir = none) (hr : files.isDirectory config.routesPath)
    (ht : '/' ∉ config.targetExtension)
    (hsep : ∀ file ∈ files.find config.routesPath config.sourceExtension,
      file.moduleOf config ∉ files.find config.routesPath config.sourceExtension)
    (ho : order.Perm (files.find config.routesPath config.sourceExtension)) :
    ∃ found after outcomes report, files.find config.routesPath config.sourceExtension = found ∧
      found.Pairwise (·.sortKey < ·.sortKey) ∧
      buildFiles config none files order = (after, [], outcomes) ∧
      Overlay config files after found ∧
      report = Report.ofOutcomes config.root (inOrder found outcomes) ∧
      report.compiled = found.countP (fun file => (attempt config files file).isOk) ∧
      report.failures = found.filterMap (fun file =>
        failure? config file (attempt config files file)) ∧
      report.compiled + report.failures.length = found.length ∧
      (∀ key, (build config files).1.get? key = after.get? key) ∧
      (build config files).2.2 = .ok report ∧
      ∀ file ∈ found, ∀ other ∈ found, file ≠ other →
        (file.moduleOf config = other.moduleOf config ↔
          config.targetExtension = [] ∧ AreDots config files file other) := by
  have ⟨root, hroot⟩ := isDirectory_iff.mp hr
  have hsorted : (files.find config.routesPath config.sourceExtension).Pairwise
      (·.sortKey < ·.sortKey) := find_sorted hv hroot
  have hnodup : (files.find config.routesPath config.sourceExtension).Nodup := by
    refine hsorted.imp fun h => ?_
    rintro rfl
    exact lt_irrefl _ h
  have hstart := Overlay.start config files
  have ⟨after, hjobs, hafter⟩ := hstart.run hv hroot ht (by simp) hsep (fun _ => ho.mem_iff.mp)
    (ho.nodup_iff.mpr hnodup) (by simp)
  have ⟨final, hbuild, hfinal⟩ :=
    hstart.run hv hroot ht (by simp) hsep (fun _ => id) hnodup (by simp)
  have hafter' : Overlay config files after (files.find config.routesPath config.sourceExtension) :=
    hafter.of_subset (fun _ hf => by simpa using ho.mem_iff.mpr hf)
      (fun _ hf => ho.mem_iff.mp (by simpa using hf))
  have hfinal' : Overlay config files final (files.find config.routesPath config.sourceExtension) :=
    hfinal.of_subset (by simp) (by simp)
  have ⟨hfiles, hreport⟩ := build_of_isDirectory hr (openCache_none hc files) hbuild
  have htotal := Report.total_ofOutcomes config.root ((files.find config.routesPath
    config.sourceExtension).map fun file => (file, outcome config file (attempt config files file)))
  rw [ofOutcomes_map] at hreport htotal
  refine ⟨_, after, _, _, rfl, hsorted, hjobs, hafter', rfl, ?_⟩
  rw [inOrder_map (fun _ => ho.mem_iff.mpr), ofOutcomes_map]
  refine ⟨rfl, rfl, ?_, fun key => ?_, hreport, fun file hf other hg hne => ?_⟩
  · rw [Report.total, List.length_map] at htotal
    rw [← htotal, Nat.add_comm]
  · rw [hfiles, hfinal'.get?_eq hv hroot ht hafter']
  · exact moduleOf_eq_iff hv hroot ht hf hg hne

def pages : FileSystem where
  entries :=
    [(["r".toList], .directory),
      (["r".toList, "a.dribble".toList],
        .file (encode "export ephemeral A() \x7b render(a) \x7d".toList)),
      (["r".toList, "b.dribble".toList], .file (encode "export".toList)),
      (["r".toList, "c.dribble".toList],
        .file (encode "export ephemeral C() \x7b render(c) \x7d".toList)),
      (["r".toList, "c.ts".toList], .directory)]

theorem build_overlay_pages : ∃ config : Config, config = { routesDir := ⟨"r".toList⟩ } ∧
    ∃ after outcomes report,
      buildFiles config none pages
        [⟨"./r/c.dribble".toList⟩, ⟨"./r/a.dribble".toList⟩, ⟨"./r/b.dribble".toList⟩] =
          (after, [], outcomes) ∧
      (∀ key, (build config pages).1.get? key = after.get? key) ∧
      (build config pages).2.2 = .ok report ∧ report.compiled = 1 ∧
      report.failures.map Failure.path = ["r/b.dribble".toList, "r/c.dribble".toList] := by
  refine ⟨_, rfl, ?_⟩
  have hfound : pages.find (Config.routesPath { routesDir := ⟨"r".toList⟩ }) "dribble".toList =
      [⟨"./r/a.dribble".toList⟩, ⟨"./r/b.dribble".toList⟩, ⟨"./r/c.dribble".toList⟩] := by cbv
  have hsep : ∀ file ∈ pages.find (Config.routesPath
      { routesDir := ⟨"r".toList⟩ }) "dribble".toList, file.moduleOf { routesDir := ⟨"r".toList⟩ } ∉
        pages.find (Config.routesPath { routesDir := ⟨"r".toList⟩ }) "dribble".toList := by
    rw [hfound]
    decide
  obtain ⟨found, after, outcomes, report, hf, _, hjobs, _, _, hcompiled, hfailures, _,
    hfiles, hreport, _⟩ :=
    @build_overlay { routesDir := ⟨"r".toList⟩ } pages
      [⟨"./r/c.dribble".toList⟩, ⟨"./r/a.dribble".toList⟩, ⟨"./r/b.dribble".toList⟩]
      (by decide) rfl (by decide) (by decide) hsep (by rw [hfound]; decide)
  refine ⟨after, outcomes, report, hjobs, hfiles, hreport, ?_, ?_⟩
  · rw [hcompiled, ← hf, hfound]
    decide +kernel
  · rw [hfailures, ← hf, hfound]
    decide +kernel

-- Two components for one module, in place of the directory above.
theorem moduleOf_dots : ∃ (config : Config) (files : FileSystem),
    config = { routesDir := ⟨"r".toList⟩, targetExtension := [] } ∧
    files = { entries :=
      [(["r".toList], .directory),
        (["r".toList, "..dribble".toList],
          .file (encode "export ephemeral A() \x7b render(a) \x7d".toList)),
        (["r".toList, "...dribble".toList],
          .file (encode "export ephemeral B() \x7b render(b) \x7d".toList))] } ∧
    files.Valid ∧ files.isDirectory config.routesPath ∧
    ∃ file other, file ≠ other ∧
      files.find config.routesPath config.sourceExtension = [file, other] ∧
      file.moduleOf config = other.moduleOf config ∧ file.moduleOf config ∉ [file, other] := by
  refine ⟨_, _, rfl, rfl, by decide, by decide, ⟨"./r/...dribble".toList⟩, ⟨"./r/..dribble".toList⟩,
    by decide, by cbv, by decide, by decide⟩

end Project
end Componentry
