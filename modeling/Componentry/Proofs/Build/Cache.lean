import Componentry.Proofs.Build.Job
import Componentry.Proofs.Component.Opening
import Componentry.Proofs.Json.Written

/-!
The cache. An entry is read back as it was kept, and as long as only builds write there, every entry
is the module of a text under the key of that text.
-/
namespace Componentry

open FileSystem

theorem Text.bytes_injective : Function.Injective Text.bytes := by
  intro s t h
  have he : s.utf8Encode = t.utf8Encode := congrArg List.toByteArray h
  exact String.ofList_injective (String.toByteArray_inj.mp he)

theorem Json.text?_ofText (t : Text) : (ofText t).text? = some t :=
  denoted?_quoted t

namespace Module

theorem ofJson?_toJson (m : Module) : ofJson? m.toJson = some m := by
  obtain ⟨code, map⟩ := m
  cases map
  case none =>
    have hf : (toJson ⟨code, none⟩).fields? ["code".toList, "map".toList] =
        some [some (.ofText code), none] := rfl
    rw [ofJson?, hf]
    simp [Json.text?_ofText, Json.orDefault]
  case some map =>
    have hf : (toJson ⟨code, some map⟩).fields? ["code".toList, "map".toList] =
        some [some (.ofText code), some (.ofText map)] := rfl
    have hmap : Json.optional Json.text? (.ofText map) = some (some map) :=
      congrArg (Option.map some) (Json.text?_ofText map)
    rw [ofJson?, hf]
    simp [Json.text?_ofText, Json.orDefault, hmap]

theorem readsBack_toJson (m : Module) : m.toJson.ReadsBack := by
  obtain ⟨code, map⟩ := m
  have hcode := Json.readsBack_ofText code
  apply Json.readsBack_object
  cases map
  case none => exact List.forall_mem_singleton.mpr ⟨⟨"code".toList, rfl⟩, hcode⟩
  case some map =>
    have hmap := Json.readsBack_ofText map
    exact List.forall_mem_cons.mpr ⟨⟨⟨"code".toList, rfl⟩, hcode⟩,
      List.forall_mem_singleton.mpr ⟨⟨"map".toList, rfl⟩, hmap⟩⟩

end Module

def Component.blank : Text :=
  "export ephemeral A() \x7b render() \x7d".toList

theorem Component.exists_read_blank : ∃ c, read blank = .ok c := by
  have h : (read blank).isOk := by decide +kernel
  cases hr : read blank
  case error =>
    rw [hr] at h
    cases h
  case ok c => exact ⟨c, rfl⟩

namespace Cache

theorem decodeEntry_entryText (key : Text) (m : Module) :
    decodeEntry (entryText key m) = some (key, m) := by
  have hr : (Json.object [("hash".toList, .ofText key),
      ("module".toList, m.toJson)]).ReadsBack := by
    apply Json.readsBack_object
    exact List.forall_mem_cons.mpr ⟨⟨⟨"hash".toList, rfl⟩, Json.readsBack_ofText key⟩,
      List.forall_mem_singleton.mpr ⟨⟨"module".toList, rfl⟩, m.readsBack_toJson⟩⟩
  have hf : (Json.object [("hash".toList, .ofText key), ("module".toList, m.toJson)]).fields?
      ["hash".toList, "module".toList] = some [some (.ofText key), some m.toJson] := rfl
  rw [decodeEntry, entryText, hr.parse?_write]
  simp only [Option.bind_eq_bind, Option.bind_some]
  rw [hf]
  simp [Json.text?_ofText, Module.ofJson?_toJson]

theorem keyText_injective (options : Options) : Function.Injective (keyText options) := by
  intro s t h
  simpa [keyText] using h

def entryName (options : Options) (source : Text) : Text :=
  key options source ++ ".json".toList

theorem separator_not_mem_hex (message : List UInt8) : '/' ∉ Sha256.hex message := by
  have hdigit : ∀ n < 16, Nat.digitChar n ≠ '/' := by decide
  intro h
  simp only [Sha256.hex, List.mem_flatMap, List.mem_map] at h
  have ⟨word, _, i, _, hi⟩ := h
  exact hdigit _ (Nat.mod_lt _ (by decide)) hi

theorem isFileName_entryName (options : Options) (source : Text) :
    IsFileName (entryName options source) := by
  have hlength : 5 ≤ (entryName options source).length := by simp [entryName]
  have hsep : '/' ∉ entryName options source := by
    simp [entryName, key, separator_not_mem_hex]
  refine ⟨⟨?_, ?_, hsep⟩, ?_⟩
  all_goals
    intro he
    rw [he] at hlength
    simp at hlength

-- The directory of the cache is there, under a key. The empty path stands for the current one.
structure IsAt (cache : Cache) (files : FileSystem) (directory : Key) : Prop where
  locate_eq : cache.directory.text = [] ∧ directory = files.current ∨
    files.locate cache.directory = .ok directory
  get?_eq : files.get? directory = some .directory

namespace IsAt

variable {cache : Cache} {files after : FileSystem} {directory : Key}
variable {options : Options} {source : Text}

theorem mono (h : cache.IsAt files directory) (hk : files.KeepsDirectories after) :
    cache.IsAt after directory := by
  refine ⟨h.locate_eq.imp (fun hc => ?_) hk.locate_eq, hk.get?_eq _ h.get?_eq⟩
  rwa [hk.current_eq]

theorem addresses (h : cache.IsAt files directory) (options : Options) (source : Text) :
    files.Addresses (cache.entryPath (key options source))
      (directory ++ [entryName options source]) := by
  have hn := isFileName_entryName options source
  have hentry : cache.entryPath (key options source) =
      cache.directory.join ⟨entryName options source⟩ := rfl
  rw [hentry]
  rcases h.locate_eq with ⟨hempty, rfl⟩ | hl
  case inr => exact LeadsTo.addresses ⟨hl, h.get?_eq⟩ hn
  case inl =>
    have hjoin : cache.directory.join ⟨entryName options source⟩ = ⟨entryName options source⟩ := by
      simp [Path.join, hn.isAbsolute_eq_false, hempty]
    rw [hjoin]
    exact .here h.get?_eq hn

theorem get_of_not_file (h : cache.IsAt files directory)
    (hf : ∀ content, files.get? (directory ++ [entryName options source]) ≠ some (.file content)) :
    cache.get files options source = (none, files, []) := by
  have he := (h.addresses options source).entry_eq
  rcases hg : files.get? (directory ++ [entryName options source]) with _ | ⟨content⟩ | _ <;>
    rw [hg] at he
  case none => simp [get, readText, he]
  case some.file => exact absurd hg (hf content)
  case some.directory => simp [get, readText, he]

theorem get_of_entry (h : cache.IsAt files directory) {m : Module}
    (hf : files.get? (directory ++ [entryName options source]) =
      some (.file (encode (entryText (key options source) m)))) :
    cache.get files options source = (some m, files, []) := by
  have he := (h.addresses options source).entry_eq
  rw [hf, Option.elim_some] at he
  simp [get, readText, he, decode?_encode, decodeEntry_entryText]

theorem set_eq (h : cache.IsAt files directory)
    (hd : files.get? (directory ++ [entryName options source]) ≠ some .directory) (m : Module) :
    cache.set files options source m = (files.set (directory ++ [entryName options source])
      (.file (encode (entryText (key options source) m))), []) := by
  have hw := (h.addresses options source).write_eq (encode (entryText (key options source) m))
  rw [if_neg hd] at hw
  simp [set, hw]

-- Where a directory has the name of an entry, nothing is kept, and that is said.
theorem exists_set_eq (h : cache.IsAt files directory)
    (hd : files.get? (directory ++ [entryName options source]) = some .directory) (m : Module) :
    ∃ said, cache.set files options source m = (files, said) := by
  have hw := (h.addresses options source).write_eq (encode (entryText (key options source) m))
  rw [if_pos hd] at hw
  simp [set, hw]

end IsAt

def NoCollision (options : Options) (texts : List Text) : Prop :=
  Set.InjOn Sha256.hex {message | ∃ source ∈ texts, message = (keyText options source).bytes}

namespace NoCollision

variable {options : Options} {texts others : List Text}

theorem mono (h : NoCollision options texts) (hs : others ⊆ texts) :
    NoCollision options others := by
  refine Set.InjOn.mono ?_ h
  intro message ⟨source, hm, he⟩
  exact ⟨source, hs hm, he⟩

theorem of_forall_eq {t : Text} (h : ∀ s ∈ texts, s = t) : NoCollision options texts := by
  rintro message ⟨s, hs, rfl⟩ other ⟨s', hs', rfl⟩ _
  rw [h s hs, h s' hs']

theorem eq_of_key_eq (h : NoCollision options texts) {s t : Text} (hs : s ∈ texts) (ht : t ∈ texts)
    (hk : key options s = key options t) : s = t := by
  have hbytes : (keyText options s).bytes = (keyText options t).bytes :=
    h ⟨s, hs, rfl⟩ ⟨t, ht, rfl⟩ hk
  exact keyText_injective options (Text.bytes_injective hbytes)

end NoCollision

-- All files below the directory of the cache hold modules of texts, each under the key of its text.
def Keeps (options : Options) (texts : List Text) (directory : Key) (files : FileSystem) : Prop :=
  ∀ names content, names ≠ [] → files.get? (directory ++ names) = some (.file content) →
    ∃ source ∈ texts, ∃ c, Component.read source = .ok c ∧ names = [entryName options source] ∧
      content = encode (entryText (key options source) (c.toModule options))

namespace Keeps

variable {options : Options} {texts : List Text} {directory : Key} {files : FileSystem}

theorem mono {others : List Text} (h : Keeps options texts directory files) (hs : texts ⊆ others) :
    Keeps options others directory files := by
  intro names content hn hg
  have ⟨source, hm, hc⟩ := h names content hn hg
  exact ⟨source, hs hm, hc⟩

theorem of_files {after : FileSystem} (h : Keeps options texts directory files)
    (ha : ∀ names content, names ≠ [] → after.get? (directory ++ names) = some (.file content) →
      files.get? (directory ++ names) = some (.file content)) :
    Keeps options texts directory after :=
  fun names content hn hg => h names content hn (ha names content hn hg)

theorem congr {after : FileSystem} (h : Keeps options texts directory files)
    (ha : ∀ names, names ≠ [] → after.get? (directory ++ names) = files.get? (directory ++ names)) :
    Keeps options texts directory after :=
  h.of_files fun names _ hn hg => (ha names hn).symm.trans hg

theorem set (h : Keeps options texts directory files) {source : Text} {c : Component}
    (hc : Component.read source = .ok c) :
    Keeps options (source :: texts) directory (files.set (directory ++ [entryName options source])
      (.file (encode (entryText (key options source) (c.toModule options))))) := by
  intro names content hn hg
  by_cases he : names = [entryName options source]
  case pos =>
    rw [he, get?_set_self (by simp), Option.some.injEq, Entry.file.injEq] at hg
    exact ⟨source, by simp, c, hc, he, hg.symm⟩
  case neg =>
    rw [get?_set_of_ne (by simpa using he)] at hg
    exact (h.mono (List.subset_cons_self _ _)) names content hn hg

end Keeps

-- The modules of all texts that are components are there, and nothing is in their way.
structure Holds (options : Options) (texts : List Text) (directory : Key) (files : FileSystem) :
    Prop where
  get?_ne : ∀ names, names ≠ [] → files.get? (directory ++ names) ≠ some .directory
  get?_eq : ∀ source ∈ texts, ∀ c, Component.read source = .ok c →
    files.get? (directory ++ [entryName options source]) =
      some (.file (encode (entryText (key options source) (c.toModule options))))

namespace Holds

variable {options : Options} {texts : List Text} {directory : Key} {files after : FileSystem}

theorem congr (h : Holds options texts directory files)
    (ha : ∀ names, names ≠ [] → after.get? (directory ++ names) = files.get? (directory ++ names)) :
    Holds options texts directory after := by
  refine ⟨fun names hn => ?_, fun source hm c hc => ?_⟩
  · rw [ha names hn]
    exact h.get?_ne names hn
  · rw [ha _ (by simp), h.get?_eq source hm c hc]

theorem cons (h : Holds options texts directory files) {source : Text}
    (hs : ∀ c, Component.read source = .ok c →
      files.get? (directory ++ [entryName options source]) =
        some (.file (encode (entryText (key options source) (c.toModule options))))) :
    Holds options (source :: texts) directory files :=
  ⟨h.get?_ne, List.forall_mem_cons.mpr ⟨hs, h.get?_eq⟩⟩

-- An entry is written where there was none, so that no other is lost.
theorem set (h : Holds options texts directory files) {source : Text} {c : Component}
    (hc : Component.read source = .ok c)
    (hn : files.get? (directory ++ [entryName options source]) = none) :
    Holds options (source :: texts) directory (files.set (directory ++ [entryName options source])
      (.file (encode (entryText (key options source) (c.toModule options))))) := by
  refine ⟨fun names hne => ?_, List.forall_mem_cons.mpr ⟨fun c' hc' => ?_,
    fun other hm c' hc' => ?_⟩⟩
  · by_cases he : names = [entryName options source]
    case pos => simp [he, get?_set_self]
    case neg =>
      rw [get?_set_of_ne (by simpa using he)]
      exact h.get?_ne names hne
  · cases hc.symm.trans hc'
    rw [get?_set_self (by simp)]
  · have hother := h.get?_eq other hm c' hc'
    rw [get?_set_of_ne, hother]
    intro he
    simp [he, hn] at hother

end Holds

end Cache
end Componentry
