import Componentry.Proofs.Build.Cache
import Componentry.Proofs.Component.Opening
import Componentry.Proofs.Component.Splitting

/-!
Keys of the cache. A key is made of the options and the source, one after the other with a mark
between them, so that builds with different options can come to one key. Wherever they can, some
module that one of them keeps is wrong for the other.
-/
namespace Componentry

theorem Text.append_cons_inj_left {c : Char} {s t s' t' : Text} (h : c ∉ s) (h' : c ∉ s') :
    s ++ c :: t = s' ++ c :: t' ↔ s = s' ∧ t = t' := by
  have hr : c ∉ s.reverse := by simpa using h
  have hr' : c ∉ s'.reverse := by simpa using h'
  have hlast := @Text.append_cons_inj c t.reverse s.reverse t'.reverse s'.reverse hr hr'
  rw [List.reverse_inj, List.reverse_inj] at hlast
  rw [and_comm, ← hlast, ← List.reverse_inj]
  simp

theorem Location.after_eq_first_iff {t : Text} {column : Nat} :
    after t = ⟨1, column⟩ ↔ '\n' ∉ t ∧ column = t.length + 1 := by
  rw [after, Location.mk.injEq, Nat.add_eq_right, List.count_eq_zero]
  refine and_congr_right fun h => ?_
  have htake : t.reverse.takeWhile (· ≠ '\n') = t.reverse := by
    rw [List.takeWhile_eq_self_iff]
    exact Text.ne_of_mem_reverse h
  rw [htake, List.length_reverse, eq_comm]

namespace Options

-- The mark between the parts of a key is not in the parts.
structure IsPlain (options : Options) : Prop where
  runtimeModule : '\x00' ∉ options.runtimeModule
  renderHelper : '\x00' ∉ options.renderHelper
  sourceMap : '\x00' ∉ options.sourceMap.getD []

def SameKey (o o' : Options) (s s' : Text) : Prop :=
  (Cache.keyText o s).bytes = (Cache.keyText o' s').bytes

def Overlap (o o' : Options) : Prop :=
  ∃ s s', SameKey o o' s s'

-- What is kept under a key with the one is right for that key with the other.
def Exchangeable (o o' : Options) : Prop :=
  ∀ s s', SameKey o o' s s' → ∀ file, Component.compile file s o = Component.compile file s' o'

variable {o o' : Options} {s s' : Text}

theorem sameKey_iff : SameKey o o' s s' ↔ Cache.keyText o s = Cache.keyText o' s' :=
  Text.bytes_injective.eq_iff

theorem keyText_append (o : Options) (s : Text) : Cache.keyText o s = Cache.keyText o [] ++ s := by
  simp [Cache.keyText]

theorem Exchangeable.symm (h : Exchangeable o o') : Exchangeable o' o :=
  fun s s' hk file => (h s' s hk.symm file).symm

theorem Exchangeable.refl (o : Options) : Exchangeable o o := by
  intro s s' hk file
  rw [Cache.keyText_injective o (sameKey_iff.mp hk)]

-- Of two options that overlap, what is hashed for the one starts with what is hashed for the other.
theorem Overlap.exists_more (h : Overlap o o') :
    (∃ more, Cache.keyText o' [] = Cache.keyText o more) ∨
      ∃ more, Cache.keyText o [] = Cache.keyText o' more := by
  have ⟨s, s', hk⟩ := h
  rw [sameKey_iff, keyText_append, keyText_append o'] at hk
  rcases List.append_eq_append_iff.mp hk with ⟨more, hm, _⟩ | ⟨more, hm, _⟩
  case inl => exact .inl ⟨more, by rw [hm, ← keyText_append]⟩
  case inr => exact .inr ⟨more, by rw [hm, ← keyText_append]⟩

theorem overlap_iff (h : IsPlain o) (h' : IsPlain o') : Overlap o o' ↔
    o.runtimeModule = o'.runtimeModule ∧ o.renderHelper = o'.renderHelper ∧
      o.sourceMap.getD [] = o'.sourceMap.getD [] := by
  constructor
  case mp =>
    rintro ⟨s, s', hk⟩
    simp only [sameKey_iff, Cache.keyText, fingerprint, List.append_assoc, List.cons_append] at hk
    obtain ⟨hmodule, hk⟩ := (Text.append_cons_inj_left h.runtimeModule h'.runtimeModule).mp hk
    obtain ⟨hhelper, hk⟩ := (Text.append_cons_inj_left h.renderHelper h'.renderHelper).mp hk
    obtain ⟨hmap, _⟩ := (Text.append_cons_inj_left h.sourceMap h'.sourceMap).mp hk
    exact ⟨hmodule, hhelper, hmap⟩
  case mpr =>
    rintro ⟨hmodule, hhelper, hmap⟩
    refine ⟨[], [], sameKey_iff.mpr ?_⟩
    simp only [Cache.keyText, fingerprint, hmodule, hhelper, hmap]

end Options

namespace Component

theorem exists_brace_of_missingRender {source : Text} {offset : Nat} {context : Option Text}
    (h : read source = .error ⟨.missingRender, offset, context⟩) :
    ∃ before after, source = before ++ '{' :: after ∧ offset = Text.size (before ++ ['{']) := by
  unfold read at h
  cases hh : Header.extract source
  case error problem =>
    have hp : problem.fault = .invalidHeader := by
      unfold Header.extract at hh
      split at hh
      case h_1 => simp at hh
      case h_2 => cases hh; rfl
    simp [hh, bind, Except.bind] at h
    simp [h] at hp
  case ok header =>
    have ⟨before, statements, hs, hstart⟩ := Header.opens_of_extract hh
    refine ⟨before, statements, hs, hstart ▸ ?_⟩
    simp only [hh, bind, Except.bind] at h
    cases hb : Body.split source header.bodyStart
    case ok body =>
      simp only [hb] at h
      split at h <;> simp at h
    case error problem =>
      simp only [hb, Except.error.injEq] at h
      subst h
      unfold Body.split at hb
      dsimp only at hb
      split at hb
      case h_1 => simp at hb
      case h_2 =>
        split at hb
        case isTrue => simp at hb
        case isFalse =>
          cases hb
          rfl
      case h_3 =>
        split at hb
        case h_1 => simp at hb
        case h_2 => split at hb <;> cases hb

def lead (n : Nat) : Text :=
  "export".toList ++ (List.replicate (n + 1) ' ' ++
    (Kind.ephemeral.keyword ++ [' ', 'A', '(', ')', ' ']))

def silent (n : Nat) : Text :=
  lead n ++ '{' :: [';', '}']

theorem length_lead (n : Nat) : (lead n).length = n + 21 := by
  have hexport : "export".toList.length = 6 := rfl
  have hkeyword : Kind.ephemeral.keyword.length = 9 := rfl
  unfold lead
  simp only [List.length_append, List.length_replicate, hexport, hkeyword, List.length_cons,
    List.length_nil]
  omega

theorem not_mem_lead (n : Nat) : '{' ∉ lead n ∧ '\n' ∉ lead n := by
  have hexport : "export".toList.all (fun c => c ≠ '{' && c ≠ '\n') := by decide
  have hkeyword : Kind.ephemeral.keyword.all (fun c => c ≠ '{' && c ≠ '\n') := by decide
  have hall : (lead n).all (fun c => c ≠ '{' && c ≠ '\n') := by
    unfold lead
    simp only [List.all_append, hexport, hkeyword, List.all_replicate]
    simp
  rw [List.all_eq_true] at hall
  exact ⟨fun h => absurd (hall _ h) (by decide), fun h => absurd (hall _ h) (by decide)⟩

theorem extract_silent (n : Nat) :
    Header.extract (silent n) = .ok ⟨.ephemeral, ['A'], [], Text.size (lead n ++ ['{'])⟩ := by
  have hblank : ∀ c ∈ List.replicate (n + 1) ' ', isBlank c := by
    intro c hc
    rw [(List.mem_replicate.mp hc).right]
    rfl
  have hdeclaration : Header.declaration? (silent n) =
      some (.ephemeral, ['A'], ['(', ')', ' ', '{', ';', '}']) := by
    have hwritten :=
      @Header.declaration?_append ['A'] (List.replicate (n + 1) ' ') [' '] [] (by decide)
      (by simp) (by simp) hblank (by simp [isBlank]) (by simp) .ephemeral [')', ' ', '{', ';', '}']
    unfold silent lead
    simpa only [List.append_assoc, List.cons_append, List.nil_append] using hwritten
  have hcode : Code.isCodeAt (silent n) ((silent n).offset (silent n)) = true := by
    rw [Text.offset, Nat.sub_self]
    rfl
  have hoffset : (silent n).offset [';', '}'] = Text.size (lead n ++ ['{']) := by
    have happend : silent n = (lead n ++ ['{']) ++ [';', '}'] := by simp [silent]
    rw [happend, Text.offset_append]
  have hgroup : Code.group? ['(', ')', ' ', '{', ';', '}'] = some ([], [' ', '{', ';', '}']) := rfl
  have hskip : Text.skipSpace [' ', '{', ';', '}'] = ['{', ';', '}'] := rfl
  have hhere : Header.here? (silent n) none (silent n) =
      some ⟨.ephemeral, ['A'], [], Text.size (lead n ++ ['{'])⟩ := by
    simp [Header.here?, hdeclaration, startsWord, hcode, hgroup, hskip, hoffset]
  rw [Header.extract, Header.find?, Header.go_eq_some hhere]

theorem read_silent (n : Nat) :
    read (silent n) = .error ⟨.missingRender, Text.size (lead n ++ ['{']), none⟩ := by
  have happend : silent n = (lead n ++ ['{']) ++ [';', '}'] := by simp [silent]
  have hstatements : (silent n).dropBytes (Text.size (lead n ++ ['{'])) = [';', '}'] := by
    rw [happend, Text.dropBytes_append]
  have hscan (previous : Option Char) : Body.scan previous [] [';', '}'] = .closed ['}'] := rfl
  have hoffset : (silent n).offset ['}'] = Text.size (lead n ++ ['{']) + 1 := by
    have happend : silent n = (lead n ++ ['{', ';']) ++ ['}'] := by simp [silent]
    rw [happend, Text.offset_append]
    simp
    rfl
  have hsplit : Body.split (silent n) (Text.size (lead n ++ ['{'])) =
      .error ⟨.missingRender, Text.size (lead n ++ ['{']), none⟩ := by
    unfold Body.split
    simp only [hstatements, hscan, hoffset]
    rw [if_neg (by omega)]
  simp only [read, extract_silent, bind, Except.bind, hsplit]

theorem compile_silent (file : Text) (n : Nat) (options : Options) :
    compile file (silent n) options = .error ⟨.missingRender, file, ⟨1, n + 23⟩, none⟩ := by
  have hlocation : Location.ofOffset (silent n) (Text.size (lead n ++ ['{'])) = ⟨1, n + 23⟩ := by
    have happend : silent n = (lead n ++ ['{']) ++ [';', '}'] := by simp [silent]
    rw [Location.ofOffset, happend, Text.cut_append_size, Location.after_eq_first_iff]
    simp [not_mem_lead, length_lead]
  simp only [compile, analyze, read_silent, Except.mapError, Except.map, Problem.inFile, hlocation]

-- Where text comes before it, nothing is wrong with that component at the place where it was.
theorem compile_append_silent_ne {more : Text} (hn : more ≠ []) (file : Text)
    (options o' : Options) :
    compile file (more ++ silent more.length) options ≠ compile file (silent more.length) o' := by
  intro h
  rw [compile_silent] at h
  unfold compile analyze at h
  cases hr : read (more ++ silent more.length)
  case ok => simp [hr, Except.mapError, Except.map] at h
  case error problem =>
    obtain ⟨fault, offset, context⟩ := problem
    simp [hr, Except.mapError, Except.map, Problem.inFile] at h
    obtain ⟨hfault, hlocation, _⟩ := h
    subst hfault
    obtain ⟨before, after, hsource, hoffset⟩ := exists_brace_of_missingRender hr
    rw [hoffset, Location.ofOffset, hsource, List.append_cons, Text.cut_append_size,
      Location.after_eq_first_iff] at hlocation
    -- The brace is where it was, and what is there now is the declaration before the brace.
    have hlength : before.length = more.length + 21 := by simpa using hlocation.right.symm
    have hbrace : (more ++ silent more.length)[more.length + 21]? = some '{' := by
      rw [hsource, ← hlength]
      simp
    have hlead : 21 < (lead more.length).length := by
      have hpos := List.length_pos_of_ne_nil hn
      rw [length_lead]
      omega
    rw [List.getElem?_append_right (by omega), Nat.add_sub_cancel_left, silent,
      List.getElem?_append_left hlead] at hbrace
    exact (not_mem_lead _).left (List.mem_of_getElem? hbrace)

theorem length_generate (header : Header) (prelude expression : Text) (options : Options) :
    (Module.generate header prelude expression options).length =
      (Module.generate header prelude expression ⟨[], [], none⟩).length +
        options.runtimeModule.length +
        2 * options.renderHelper.length := by
  unfold Module.generate Module.lines
  simp only [List.flatten_cons, List.flatten_nil, List.length_append, List.length_nil]
  omega

theorem options_eq_of_toModule {c : Component} {o o' : Options}
    (hk : Cache.keyText o [] = Cache.keyText o' []) (h : c.toModule o = c.toModule o') :
    o = o' := by
  obtain ⟨hcode, hmap⟩ := Module.mk.inj h
  have hlength := congrArg List.length hcode
  rw [length_generate, length_generate _ _ _ o'] at hlength
  have hkey : o.runtimeModule ++ '\x00' :: o.renderHelper =
      o'.runtimeModule ++ '\x00' :: o'.renderHelper := by
    rw [Cache.keyText, Cache.keyText, Options.fingerprint, Options.fingerprint, hmap] at hk
    exact List.append_cancel_right (List.append_cancel_right hk)
  have hsum := congrArg List.length hkey
  simp only [List.length_append, List.length_cons] at hsum
  obtain ⟨hruntime, hhelper⟩ := List.append_inj hkey (by omega)
  cases o
  cases o'
  simp_all

end Component

namespace Options

variable {o o' : Options}

-- If what is hashed for the other options only starts with what is hashed for these, a problem with
-- a source is reported with the one where there is nothing wrong with the other.
theorem Exchangeable.eq_nil {more : Text} (h : Exchangeable o o')
    (hm : Cache.keyText o' [] = Cache.keyText o more) : more = [] := by
  by_contra hn
  refine Component.compile_append_silent_ne hn [] o o' (h _ _ (sameKey_iff.mpr ?_) [])
  rw [keyText_append o', hm, keyText_append, keyText_append o more, List.append_assoc]

theorem Exchangeable.eq (h : Exchangeable o o') (hk : Cache.keyText o [] = Cache.keyText o' []) :
    o = o' := by
  have ⟨c, hc⟩ := Component.exists_read_blank
  have hsame : SameKey o o' Component.blank Component.blank := by
    rw [sameKey_iff, keyText_append, hk, ← keyText_append]
  have hcompile {options : Options} :
      Component.compile [] Component.blank options = .ok (c.toModule options) :=
    Component.compile_eq_ok_iff.mpr ⟨c, hc, rfl⟩
  have hmodule := h _ _ hsame []
  rw [hcompile, hcompile, Except.ok.injEq] at hmodule
  exact Component.options_eq_of_toModule hk hmodule

theorem Exchangeable.eq_of_overlap (h : Exchangeable o o') (ho : Overlap o o') : o = o' := by
  rcases ho.exists_more with ⟨more, hm⟩ | ⟨more, hm⟩
  case inl => exact h.eq (h.eq_nil hm ▸ hm).symm
  case inr => exact h.eq (h.symm.eq_nil hm ▸ hm)

end Options

-- Options can be exchanged only if they are the same, or never come to one key. If the mark is not
-- in them, they come to one key while they differ only as no map and an empty map do.
theorem exchangeable_iff (o o' : Options) :
    (o.Exchangeable o' ↔ o = o' ∨ ¬o.Overlap o') ∧
    (o.IsPlain → o'.IsPlain → (o.Overlap o' ↔ o.runtimeModule = o'.runtimeModule ∧
      o.renderHelper = o'.renderHelper ∧ o.sourceMap.getD [] = o'.sourceMap.getD [])) := by
  refine ⟨⟨fun h => ?_, fun h => ?_⟩, Options.overlap_iff⟩
  · by_cases ho : o.Overlap o'
    case pos => exact .inl (h.eq_of_overlap ho)
    case neg => exact .inr ho
  · rcases h with rfl | hn
    case inl => exact .refl o
    case inr => exact fun s s' hk => absurd ⟨s, s', hk⟩ hn

theorem exchangeable_iff_emptyMap : Options.IsPlain {} ∧ Options.IsPlain { sourceMap := some [] } ∧
    Options.Overlap {} { sourceMap := some [] } ∧
    ¬Options.Exchangeable {} { sourceMap := some [] } := by
  have hplain : Options.IsPlain {} := ⟨by decide, by decide, by decide⟩
  have hplain' : Options.IsPlain { sourceMap := some [] } := ⟨by decide, by decide, by decide⟩
  have ⟨hiff, hoverlap⟩ := exchangeable_iff {} { sourceMap := some [] }
  have ho := (hoverlap hplain hplain').mpr ⟨rfl, rfl, rfl⟩
  refine ⟨hplain, hplain', ho, fun h => ?_⟩
  rcases hiff.mp h with he | hn
  case inl => simp at he
  case inr => exact hn ho

-- One key for a component with the two, and two modules.
theorem compile_ne_of_sameKey : ∃ source, source =
    "export ephemeral A() \x7b render(a) \x7d".toList ∧
    Options.SameKey {} { sourceMap := some [] } source source ∧
    Component.compile "a.dribble".toList source {} ≠
      Component.compile "a.dribble".toList source { sourceMap := some [] } :=
  ⟨_, rfl, rfl, by decide +kernel⟩

end Componentry
