import Componentry.Editor.Snapshot
import Componentry.Proofs.Files.Listing

/-!
Which files are components: for the editor, which looks at the whole path, and for a build, which
looks at the last name in it. They agree on all files but those whose name is nothing but the
extension, where a directory is written before it.
-/
namespace Componentry

namespace Path

structure NamesFile (p : Path) : Prop where
  ne_nil : p.text ≠ []
  not_separator : ¬['/'] <:+ p.text
  not_here : ¬['/', '.'] <:+ p.text

instance (p : Path) : Decidable p.NamesFile :=
  decidable_of_iff (p.text ≠ [] ∧ ¬['/'] <:+ p.text ∧ ¬['/', '.'] <:+ p.text)
    ⟨fun ⟨h₁, h₂, h₃⟩ => ⟨h₁, h₂, h₃⟩, fun ⟨h₁, h₂, h₃⟩ => ⟨h₁, h₂, h₃⟩⟩

-- A directory, and in it a name that has nothing before the dot.
def IsHidden (p : Path) (extension : Text) : Prop :=
  '/' :: '.' :: extension <:+ p.text

instance (p : Path) (extension : Text) : Decidable (p.IsHidden extension) :=
  inferInstanceAs (Decidable (_ <:+ _))

variable {p : Path} {part extension : Text}

theorem EndsWith.extension?_up (h : EndsWith ['.', '.'] p) : p.extension? = none := by
  cases h
  case here => rfl
  case join d hd =>
    obtain ⟨lead, _, _, hjoin⟩ := exists_lead hd
    have hsep : '/' ∉ ['.', '.'] := by decide
    have htrim : trimTail (lead ++ '/' :: ['.', '.']).reverse =
        (lead ++ '/' :: ['.', '.']).reverse := by
      simpa using trimTail_part isPart_up lead.reverse
    simp only [extension?, lastName?, hjoin _ hsep, htrim, Text.takeWhile_reverse_append hsep]
    rfl

-- Where a directory is written, the name in it has no separator, and the last one is before it.
theorem EndsWith.eq_of_isHidden (h : EndsWith part p) (hp : '/' ∉ part) (hx : '/' ∉ extension)
    (hh : p.IsHidden extension) : part = '.' :: extension := by
  rcases h.text_eq hp with htext | ⟨lead, htext⟩
  case inl => exact absurd (htext ▸ hh.mem (List.mem_cons_self ..)) hp
  case inr =>
    obtain ⟨before, hbefore⟩ := hh
    rw [htext, Text.append_cons_inj (by simp [hx]) hp] at hbefore
    exact hbefore.right.symm

-- What is before the last dot of a path is more than what is before it in the name.
theorem EndsWith.exists_stem_iff (h : EndsWith part p) (hp : '/' ∉ part) (hx : '/' ∉ extension) :
    (∃ stem, p.text = stem ++ '.' :: extension ∧ stem ≠ []) ↔
      (∃ stem, part = stem ++ '.' :: extension ∧ stem ≠ []) ∨ p.IsHidden extension := by
  constructor
  case mp =>
    rintro ⟨stem, hstem, hne⟩
    rcases h.text_eq hp with htext | ⟨lead, htext⟩
    case inl => exact .inl ⟨stem, htext ▸ hstem, hne⟩
    case inr =>
      have hdot : '.' :: extension <:+ p.text := ⟨stem, hstem.symm⟩
      have hpart : '/' :: part <:+ p.text := ⟨lead, htext.symm⟩
      rcases List.suffix_or_suffix_of_suffix hdot hpart with hs | hs
      case inl =>
        rcases List.suffix_cons_iff.mp hs with he | ⟨before, hbefore⟩
        case inl => simp at he
        case inr =>
          by_cases hnil : before = []
          case pos => exact .inr ⟨lead, by rw [htext, ← hbefore, hnil, List.nil_append]⟩
          case neg => exact .inl ⟨before, hbefore.symm, hnil⟩
      case inr => exact absurd (hs.mem (List.mem_cons_self ..)) (by simp [hx])
  case mpr =>
    rintro (⟨stem, rfl, hne⟩ | ⟨before, hbefore⟩)
    case inl =>
      rcases h.text_eq hp with htext | ⟨lead, htext⟩
      case inl => exact ⟨stem, htext, hne⟩
      case inr => exact ⟨lead ++ '/' :: stem, by simp [htext], by simp⟩
    case inr => exact ⟨before ++ ['/'], by simp [← hbefore], by simp⟩

theorem NamesFile.exists_endsWith (h : p.NamesFile) :
    p = ⟨['.']⟩ ∨ ∃ part, IsPart part ∧ EndsWith part p := by
  obtain ⟨part, hpart, hends⟩ := p.exists_endsWith
  by_cases hhere : p.text = ['.']
  case pos => exact .inl (congrArg Path.mk hhere)
  case neg =>
    refine .inr ⟨part, ⟨?_, ?_, hpart⟩, hends⟩
    all_goals
      rintro rfl
      rcases hends.text_eq hpart with htext | ⟨lead, htext⟩
    · exact h.ne_nil htext
    · exact h.not_separator ⟨lead, htext.symm⟩
    · exact hhere htext
    · exact h.not_here ⟨lead, htext.symm⟩

theorem EndsWith.extension?_eq_some_iff (h : EndsWith part p) (hp : IsPart part)
    (hx : '.' ∉ extension)
    (hn : extension ≠ []) : p.extension? = some extension ↔
    ∃ stem, part = stem ++ '.' :: extension ∧ stem ≠ [] := by
  by_cases hup : part = ['.', '.']
  case pos =>
    subst hup
    rw [h.extension?_up]
    refine iff_of_false (by simp) ?_
    rintro ⟨stem, hstem, hne⟩
    have hlength := congrArg List.length hstem
    have hstem := List.length_pos_of_ne_nil hne
    have hextension := List.length_pos_of_ne_nil hn
    simp at hlength
    omega
  case neg =>
    rw [(h.extension?_eq ⟨hp, hup⟩).right]
    constructor
    case mp =>
      intro he
      obtain ⟨stem, hstem, _, hne⟩ := exists_stem he
      exact ⟨stem, hstem, hne⟩
    case mpr =>
      rintro ⟨stem, hstem, hne⟩
      rw [splitExtension_eq_some_iff.mpr ⟨hstem, hx, hne⟩]

end Path

namespace Editor

theorem isComponent_iff {path : Text} :
    isComponent path ↔ ∃ stem, path = stem ++ '.' :: "dribble".toList ∧ stem ≠ [] := by
  have hx : '.' ∉ "dribble".toList := by decide
  simp only [isComponent, Bool.and_eq_true, decide_eq_true_eq]
  constructor
  case mp =>
    rintro ⟨htake, hdrop⟩
    by_cases hdot : '.' ∈ path
    case neg =>
      rw [List.dropWhile_eq_nil_iff.mpr (Text.ne_of_mem_reverse hdot)] at hdrop
      simp at hdrop
    case pos =>
      obtain ⟨stem, extension, rfl, hlast⟩ := Text.exists_last hdot
      have hextension := Text.takeWhile_reverse_append hlast stem
      rw [htake, List.reverse_reverse] at hextension
      rw [Text.dropWhile_reverse_append hlast] at hdrop
      exact ⟨stem, by rw [hextension], by rintro rfl; simp at hdrop⟩
  case mpr =>
    rintro ⟨stem, rfl, hne⟩
    rw [Text.dropWhile_reverse_append hx, ← List.reverse_inj, Text.takeWhile_reverse_append hx]
    simpa using List.length_pos_of_ne_nil hne

variable {p : Path}

theorem isComponent_iff_extension? (h : p.NamesFile) :
    isComponent p.text ↔ p.extension? = some "dribble".toList ∨ p.IsHidden "dribble".toList := by
  rcases h.exists_endsWith with rfl | ⟨part, hp, hends⟩
  case inl => decide
  case inr =>
    rw [isComponent_iff, hends.exists_stem_iff hp.not_separator (by decide),
      hends.extension?_eq_some_iff hp (by decide) (by decide)]

theorem extension?_ne_of_isHidden (h : p.NamesFile) (hh : p.IsHidden "dribble".toList) :
    p.extension? ≠ some "dribble".toList := by
  rcases h.exists_endsWith with rfl | ⟨part, hp, hends⟩
  case inl => decide
  case inr =>
    rw [ne_eq, hends.extension?_eq_some_iff hp (by decide) (by decide),
      hends.eq_of_isHidden hp.not_separator (by decide) hh]
    rintro ⟨stem, hstem, hne⟩
    exact hne (List.append_left_eq_self.mp hstem.symm)

-- The editor and a build agree on a file, by its path alone and among the files that are found,
-- unless it is hidden.
theorem isComponent_agrees_iff (h : p.NamesFile) :
    ((isComponent p.text ↔ p.extension? = some ({} : Config).sourceExtension) ↔
      ¬p.IsHidden ({} : Config).sourceExtension) ∧
    ∀ (files : FileSystem) (directory : Path), files.Valid → files.IsFileBelow directory p →
      ((isComponent p.text ↔ p ∈ files.find directory ({} : Config).sourceExtension) ↔
        ¬p.IsHidden ({} : Config).sourceExtension) := by
  have hagree : (isComponent p.text ↔ p.extension? = some "dribble".toList) ↔
      ¬p.IsHidden "dribble".toList := by
    have hne := extension?_ne_of_isHidden h
    rw [isComponent_iff_extension? h]
    tauto
  refine ⟨hagree, fun files directory hv hp => ?_⟩
  obtain ⟨content, hf⟩ := hp.isFile
  obtain ⟨name, hn, hends⟩ := hv.exists_endsWith hf
  rw [FileSystem.mem_find_iff_isFileBelow hv, and_iff_right hp, hends.hasExtension_iff hn]
  exact hagree

def pages : FileSystem where
  entries :=
    [ (["r".toList], .directory),
      (["r".toList, "..dribble".toList], .file (FileSystem.encode [])),
      (["r".toList, ".dribble".toList], .file (FileSystem.encode [])) ]

theorem isComponent_agrees_iff_pages : pages.Valid ∧
    (pages.IsFileBelow ⟨['r']⟩ ⟨"r/..dribble".toList⟩ ∧ (isComponent "r/..dribble".toList ↔
      Path.extension? ⟨"r/..dribble".toList⟩ = some ({} : Config).sourceExtension)) ∧
    pages.IsFileBelow ⟨['r']⟩ ⟨"r/.dribble".toList⟩ ∧ ¬(isComponent "r/.dribble".toList ↔
      ⟨"r/.dribble".toList⟩ ∈ pages.find ⟨['r']⟩ ({} : Config).sourceExtension) := by
  have hv : pages.Valid := by decide
  have hdots : pages.IsFileBelow ⟨['r']⟩ ⟨"r/..dribble".toList⟩ :=
    ⟨⟨_, rfl⟩, ⟨["..dribble".toList], by decide, rfl⟩, ⟨_, rfl⟩⟩
  have hhidden : pages.IsFileBelow ⟨['r']⟩ ⟨"r/.dribble".toList⟩ :=
    ⟨⟨_, rfl⟩, ⟨[".dribble".toList], by decide, rfl⟩, ⟨_, rfl⟩⟩
  refine ⟨hv, ⟨hdots, (isComponent_agrees_iff (by decide)).left.mpr (by decide)⟩, hhidden, ?_⟩
  rw [(isComponent_agrees_iff (by decide)).right pages ⟨['r']⟩ hv hhidden]
  decide

theorem isComponent_of_hidden :
    Path.NamesFile ⟨"r/.dribble".toList⟩ ∧
      ¬(isComponent "r/.dribble".toList ↔
        Path.extension? ⟨"r/.dribble".toList⟩ = some ({} : Config).sourceExtension) := by
  decide

end Editor
end Componentry
