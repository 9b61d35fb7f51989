import Mathlib
import Componentry.Build.Project
import Componentry.Proofs.Text.Runs

/-!
Paths that end with a name. The name, its extension and the directory before it are found again in
the text of the path, however the directory is written.
-/
namespace Componentry

namespace Text

variable {c : Char} {s t : Text}

theorem splitAt_ne_nil (c : Char) (t : Text) : splitAt c t ≠ [] := by
  fun_cases splitAt c t <;> simp

theorem splitAt_append (c : Char) (s t : Text) :
    splitAt c (s ++ c :: t) = splitAt c s ++ splitAt c t := by
  induction s
  case nil => simp [splitAt]
  case cons d s ih =>
    by_cases hd : d = c
    case pos => simp [splitAt, hd, ih]
    case neg =>
      have ⟨line, lines, hs⟩ := List.exists_cons_of_ne_nil (splitAt_ne_nil c s)
      simp [splitAt, hd, ih, hs]

theorem splitAt_of_not_mem (h : c ∉ t) : splitAt c t = [t] := by
  induction t
  case nil => rfl
  case cons d t ih =>
    have ⟨hd, ht⟩ : d ≠ c ∧ c ∉ t := by simpa [eq_comm] using h
    simp [splitAt, hd, ih ht]

theorem not_mem_of_mem_splitAt (h : s ∈ splitAt c t) : c ∉ s := by
  induction t generalizing s
  case nil => simp_all [splitAt]
  case cons d t ih =>
    by_cases hd : d = c
    case pos =>
      rcases (by simpa [splitAt, hd] using h : s = [] ∨ s ∈ splitAt c t) with hs | hs
      case inl => simp [hs]
      case inr => exact ih hs
    case neg =>
      have ⟨line, lines, he⟩ := List.exists_cons_of_ne_nil (splitAt_ne_nil c t)
      rcases (by simpa [splitAt, hd, he] using h : s = d :: line ∨ s ∈ lines) with hs | hs
      case inl =>
        have hline : c ∉ line := ih (by simp [he])
        simp [hs, hline, Ne.symm hd]
      case inr => exact ih (by simp [he, hs])

end Text

-- What stands between two separators and takes part in a path.
structure IsPart (part : Text) : Prop where
  ne_nil : part ≠ []
  ne_here : part ≠ ['.']
  not_separator : '/' ∉ part

structure IsFileName (name : Text) : Prop extends IsPart name where
  ne_up : name ≠ ['.', '.']

instance (part : Text) : Decidable (IsPart part) :=
  decidable_of_iff (part ≠ [] ∧ part ≠ ['.'] ∧ '/' ∉ part)
    ⟨fun ⟨h₁, h₂, h₃⟩ => ⟨h₁, h₂, h₃⟩, fun ⟨h₁, h₂, h₃⟩ => ⟨h₁, h₂, h₃⟩⟩

instance (name : Text) : Decidable (IsFileName name) :=
  decidable_of_iff (IsPart name ∧ name ≠ ['.', '.'])
    ⟨fun ⟨h₁, h₂⟩ => ⟨h₁, h₂⟩, fun ⟨h₁, h₂⟩ => ⟨h₁, h₂⟩⟩

theorem isPart_up : IsPart ['.', '.'] := by decide

theorem IsFileName.isAbsolute_eq_false {name : Text} (h : IsFileName name) :
    Path.isAbsolute ⟨name⟩ = false := by
  rw [Path.isAbsolute, decide_eq_false_iff_not]
  exact fun hc => h.not_separator (List.mem_of_head? hc)

namespace Path

theorem splitExtension_eq_some_iff {name stem extension : Text} :
    splitExtension name = (stem, some extension) ↔
      name = stem ++ '.' :: extension ∧ '.' ∉ extension ∧ stem ≠ [] := by
  by_cases hdot : '.' ∈ name
  case neg =>
    have hne : ¬(name = stem ++ '.' :: extension ∧ '.' ∉ extension ∧ stem ≠ []) := by
      rintro ⟨rfl, _⟩
      simp at hdot
    simp [splitExtension, hdot, hne]
  case pos =>
    have ⟨s, u, hn, hu⟩ := Text.exists_last hdot
    have hdrop := Text.dropWhile_reverse_append hu s
    have htake := Text.takeWhile_reverse_append hu s
    rw [← hn] at hdrop htake
    have hunique : name = stem ++ '.' :: extension → '.' ∉ extension → s = stem ∧ u = extension :=
      fun he hx => (Text.append_cons_inj hu hx).mp (hn.symm.trans he)
    simp only [splitExtension, List.contains_iff_mem.mpr hdot, hdrop, htake, ↓reduceIte,
      List.drop_succ_cons, List.drop_zero, List.reverse_reverse]
    split
    case isTrue hs =>
      constructor
      case mp => simp
      case mpr =>
        intro ⟨he, hx, hne⟩
        exact absurd ((hunique he hx).left ▸ hs) hne
    case isFalse hs =>
      constructor
      case mp =>
        intro he
        have ⟨h₁, h₂⟩ := Prod.mk.inj he
        cases h₁
        cases h₂
        exact ⟨hn, hu, hs⟩
      case mpr =>
        intro ⟨he, hx, _⟩
        have ⟨h₁, h₂⟩ := hunique he hx
        rw [h₁, h₂]

def moduleName (extension name : Text) : Text :=
  let (stem, old) := splitExtension name
  if stem = ['.'] && old.isSome then ['.', '.']
  else stem ++ if extension = [] then [] else '.' :: extension

theorem moduleName_eq {stem old : Text} (hx : '.' ∉ old) (hs : stem ≠ []) (extension : Text) :
    moduleName extension (stem ++ '.' :: old) =
      if stem = ['.'] then ['.', '.'] else stem ++
        if extension = [] then [] else '.' :: extension := by
  have h := splitExtension_eq_some_iff.mpr ⟨rfl, hx, hs⟩
  simp [moduleName, h]

theorem exists_stem {name extension : Text} (h : (splitExtension name).2 = some extension) :
    ∃ stem, name = stem ++ '.' :: extension ∧ '.' ∉ extension ∧ stem ≠ [] :=
  ⟨_, splitExtension_eq_some_iff.mp (Prod.ext rfl h)⟩

theorem append_extension_eq_up_iff {stem extension : Text} (hs : stem ≠ []) :
    (stem ++ if extension = [] then [] else '.' :: extension) = ['.', '.'] ↔
      extension = [] ∧ stem = ['.', '.'] := by
  by_cases he : extension = []
  case pos => simp [he]
  case neg =>
    simp only [he, ↓reduceIte, false_and, iff_false]
    intro h
    have hlength := congrArg List.length h
    have hpos := List.length_pos_of_ne_nil hs
    have hpos' := List.length_pos_of_ne_nil he
    simp at hlength
    omega

-- Two names give one module name only if they are dots before their extension and modules have
-- none.
theorem moduleName_eq_iff {s t old extension : Text} (hs : (splitExtension s).2 = some old)
    (ht : (splitExtension t).2 = some old) : moduleName extension s = moduleName extension t ↔
      s = t ∨ extension = [] ∧ (s = '.' :: '.' :: old ∧ t = '.' :: '.' :: '.' :: old ∨
        s = '.' :: '.' :: '.' :: old ∧ t = '.' :: '.' :: old) := by
  have ⟨u, hu, hx, hun⟩ := exists_stem hs
  have ⟨v, hv, _, hvn⟩ := exists_stem ht
  have hstem : ∀ w : Text, (w ++ '.' :: old = '.' :: '.' :: old ↔ w = ['.']) ∧
      (w ++ '.' :: old = '.' :: '.' :: '.' :: old ↔ w = ['.', '.']) := fun w =>
    ⟨@List.append_left_inj _ w ['.'] ('.' :: old),
      @List.append_left_inj _ w ['.', '.'] ('.' :: old)⟩
  rw [hu, hv, moduleName_eq hx hun, moduleName_eq hx hvn, (hstem u).left, (hstem u).right,
    (hstem v).left, (hstem v).right, List.append_left_inj]
  by_cases hu' : u = ['.'] <;> by_cases hv' : v = ['.']
  case pos => simp [hu', hv']
  case neg =>
    rw [if_pos hu', if_neg hv', eq_comm, append_extension_eq_up_iff hvn]
    simp [hu', Ne.symm hv']
  case pos =>
    rw [if_neg hu', if_pos hv', append_extension_eq_up_iff hun]
    simp [hu', hv']
  case neg => simp [hu', hv']

theorem eq_of_moduleName_eq {s t old extension : Text} (hs : (splitExtension s).2 = some old)
    (ht : (splitExtension t).2 = some old) (h : moduleName extension s = moduleName extension t)
    (hup : moduleName extension s ≠ ['.', '.']) : s = t := by
  have ⟨_, _, hx, _⟩ := exists_stem hs
  have hdots : moduleName extension ('.' :: '.' :: old) = ['.', '.'] :=
    @moduleName_eq ['.'] old hx (by simp) extension
  rcases (moduleName_eq_iff hs ht).mp h with he | ⟨_, ⟨he, _⟩ | ⟨_, he⟩⟩
  case inl => exact he
  case inr.inl => exact absurd (he ▸ hdots) hup
  case inr.inr => exact absurd (h.trans (he ▸ hdots)) hup

theorem isPart_moduleName {name old extension : Text} (hn : IsFileName name)
    (ho : (splitExtension name).2 = some old) (he : '/' ∉ extension) :
    IsPart (moduleName extension name) := by
  have ⟨stem, hname, hx, hs⟩ := exists_stem ho
  have hsep := hn.not_separator
  rw [hname] at hsep ⊢
  rw [moduleName_eq hx hs]
  split
  case isTrue => exact isPart_up
  case isFalse hdot =>
    have hstem : '/' ∉ stem := fun h => hsep (List.mem_append_left _ h)
    refine ⟨by simp [hs], ?_, ?_⟩
    · split <;> simp [hdot, List.append_eq_singleton_iff, hs]
    · split <;> simp [hstem, he]

theorem components_ne_nil {p : Path} (h : p.text ≠ []) : p.components ≠ [] := by
  have ⟨c, t, ht⟩ := List.exists_cons_of_ne_nil h
  by_cases hc : c = '/'
  case pos => simp [components, isAbsolute, ht, hc]
  case neg =>
    have ⟨line, lines, hl⟩ : ∃ line lines, Text.splitAt '/' p.text = (c :: line) :: lines := by
      have ⟨line, lines, hl⟩ := List.exists_cons_of_ne_nil (Text.splitAt_ne_nil '/' t)
      exact ⟨line, lines, by rw [ht, Text.splitAt, if_neg hc, hl]⟩
    have ha : p.isAbsolute = false := by simpa [isAbsolute, ht] using hc
    simp only [components, hl, ha]
    by_cases hd : c :: line = ['.']
    case pos => simp [hd]
    case neg =>
      have ⟨component, hsome⟩ : ∃ component, component? (c :: line) = some component := by
        by_cases hu : c :: line = ['.', '.'] <;> simp [component?, hd, hu]
      simp [hd, hsome]

section Join

variable {d : Path} {part name : Text}

-- The text of a directory up to the separator that is put before the next part.
theorem exists_lead (hd : d.text ≠ []) :
    ∃ lead, (d.text = lead ++ ['/'] ∨ d.text = lead) ∧ (lead ++ ['/']).head? = d.text.head? ∧
      ∀ part, '/' ∉ part → d.join ⟨part⟩ = ⟨lead ++ '/' :: part⟩ := by
  have hrelative : ∀ part, '/' ∉ part → Path.isAbsolute ⟨part⟩ = false := by
    intro part hp
    cases part
    case nil => rfl
    case cons c part =>
      have : c ≠ '/' := fun he => hp (by simp [he])
      simpa [isAbsolute] using this
  by_cases hl : d.text.getLast? = some '/'
  case pos =>
    have ⟨lead, he⟩ := List.getLast?_eq_some_iff.mp hl
    refine ⟨lead, .inl he, by rw [he], fun part hp => ?_⟩
    simp [join, hrelative part hp, he]
  case neg =>
    refine ⟨d.text, .inr rfl, ?_, fun part hp => ?_⟩
    · rw [List.head?_append_of_ne_nil _ hd]
    · simp [join, hrelative part hp, hl, hd]

theorem join_eq_join_iff {d' : Path} {part' : Text} (hd : d.text ≠ []) (hd' : d'.text ≠ [])
    (hp : '/' ∉ part) (hp' : '/' ∉ part') :
    d.join ⟨part⟩ = d'.join ⟨part'⟩ ↔ part = part' ∧ ∀ q, '/' ∉ q → d.join ⟨q⟩ = d'.join ⟨q⟩ := by
  have ⟨lead, _, _, hjoin⟩ := exists_lead hd
  have ⟨lead', _, _, hjoin'⟩ := exists_lead hd'
  constructor
  case mp =>
    intro h
    rw [hjoin part hp, hjoin' part' hp', Path.mk.injEq, Text.append_cons_inj hp hp'] at h
    exact ⟨h.right, fun q hq => by rw [hjoin q hq, hjoin' q hq, h.left]⟩
  case mpr =>
    rintro ⟨rfl, h⟩
    exact h part hp

theorem isAbsolute_join (hd : d.text ≠ []) (hp : '/' ∉ part) :
    (d.join ⟨part⟩).isAbsolute = d.isAbsolute := by
  have ⟨lead, _, hhead, hjoin⟩ := exists_lead hd
  rw [hjoin part hp, isAbsolute, isAbsolute, ← hhead]
  cases lead <;> simp

theorem splitAt_join (hd : d.text ≠ []) (hp : '/' ∉ part) {f : Text → Option α} (hf : f [] = none) :
    (Text.splitAt '/' (d.join ⟨part⟩).text).filterMap f =
      (Text.splitAt '/' d.text).filterMap f ++ (f part).toList := by
  have ⟨lead, htext, _, hjoin⟩ := exists_lead hd
  have hlead : (Text.splitAt '/' d.text).filterMap f = (Text.splitAt '/' lead).filterMap f := by
    rcases htext with he | he <;> rw [he]
    rw [Text.splitAt_append, List.filterMap_append]
    simp [Text.splitAt, hf]
  rw [hjoin part hp, Text.splitAt_append, List.filterMap_append, Text.splitAt_of_not_mem hp, hlead]
  cases hpart : f part <;> simp [hpart]

theorem text_join_ne_nil (hd : d.text ≠ []) (hp : '/' ∉ part) : (d.join ⟨part⟩).text ≠ [] := by
  have ⟨lead, _, _, hjoin⟩ := exists_lead hd
  simp [hjoin part hp]

theorem component?_name (hn : IsFileName name) : component? name = some (.name name) := by
  simp [component?, hn.ne_nil, hn.ne_here, hn.ne_up]

theorem components_join (hd : d.text ≠ []) (hn : IsFileName name) :
    (d.join ⟨name⟩).components = d.components ++ [.name name] := by
  have hothers := splitAt_join hd hn.not_separator (f := component?) rfl
  have hfirst : (Text.splitAt '/' (d.join ⟨name⟩).text).head? =
      (Text.splitAt '/' d.text).head? := by
    have ⟨lead, htext, _, hjoin⟩ := exists_lead hd
    have hne := Text.splitAt_ne_nil '/' lead
    rw [hjoin name hn.not_separator, Text.splitAt_append, List.head?_append_of_ne_nil _ hne]
    rcases htext with he | he <;> rw [he]
    rw [Text.splitAt_append, List.head?_append_of_ne_nil _ hne]
  simp only [components, hothers, hfirst, isAbsolute_join hd hn.not_separator, component?_name hn]
  split
  case isTrue => rfl
  case isFalse => split <;> rfl

theorem trimTail_part (hp : IsPart part) (rest : Text) :
    trimTail (part.reverse ++ '/' :: rest) = part.reverse ++ '/' :: rest := by
  have hne : part.reverse ≠ [] := by simpa using hp.ne_nil
  have hhere : part.reverse ≠ ['.'] := by simpa using hp.ne_here
  have hsep : '/' ∉ part.reverse := by simpa using hp.not_separator
  match hr : part.reverse with
  | [] => exact absurd hr hne
  | [c] =>
    have h₁ : c ≠ '/' := by rintro rfl; simp [hr] at hsep
    have h₂ : c ≠ '.' := by rintro rfl; exact hhere hr
    rw [List.singleton_append, trimTail] <;> simp [h₁, h₂]
  | c :: e :: t =>
    have h₁ : c ≠ '/' := by rintro rfl; simp [hr] at hsep
    have h₂ : e ≠ '/' := by rintro rfl; simp [hr] at hsep
    rw [List.cons_append, List.cons_append, trimTail] <;> simp [h₁, h₂]

theorem exists_lastName? (hd : d.text ≠ []) (hn : IsFileName name) :
    ∃ before, (d.join ⟨name⟩).lastName? = some (before, name) ∧
      ∀ part, '/' ∉ part → d.join ⟨part⟩ = ⟨before ++ part⟩ := by
  have ⟨lead, _, _, hjoin⟩ := exists_lead hd
  have hsep := hn.not_separator
  have htrim : trimTail (lead ++ '/' :: name).reverse = (lead ++ '/' :: name).reverse := by
    simpa using trimTail_part hn.toIsPart lead.reverse
  refine ⟨lead ++ ['/'], ?_, fun part hp => by simp [hjoin part hp]⟩
  simp only [lastName?, hjoin name hsep, htrim, Text.takeWhile_reverse_append hsep,
    Text.dropWhile_reverse_append hsep, component?_name hn]
  simp

theorem extension?_join (hd : d.text ≠ []) (hn : IsFileName name) :
    (d.join ⟨name⟩).extension? = (splitExtension name).2 := by
  have ⟨before, hlast, _⟩ := exists_lastName? hd hn
  simp [extension?, hlast]

theorem withExtension_join (hd : d.text ≠ []) (hn : IsFileName name) {old extension : Text}
    (ho : (splitExtension name).2 = some old) (he : '/' ∉ extension) :
    (d.join ⟨name⟩).withExtension extension = d.join ⟨moduleName extension name⟩ := by
  have ⟨before, hlast, hjoin⟩ := exists_lastName? hd hn
  have hp := isPart_moduleName hn ho he
  have htext : (d.join ⟨name⟩).text = before ++ name := by rw [hjoin name hn.not_separator]
  rw [hjoin _ hp.not_separator]
  simp only [withExtension, hlast, moduleName, ho, htext, Option.isSome_some, Bool.and_true,
    decide_true, decide_eq_true_eq]
  split <;> simp

theorem getLast?_join (hd : d.text ≠ []) (hp : IsPart part) :
    (d.join ⟨part⟩).text.getLast? ≠ some '/' := by
  have ⟨lead, _, _, hjoin⟩ := exists_lead hd
  intro hl
  rw [hjoin part hp.not_separator] at hl
  have hlast : part.getLast? = some '/' := by
    have ⟨c, t, ht⟩ := List.exists_cons_of_ne_nil hp.ne_nil
    simpa [ht] using hl
  exact hp.not_separator (List.mem_of_getLast? hlast)

-- The parent is the directory, less what stands for nothing at its end.
theorem exists_parent? (hd : d.text ≠ []) (hp : IsPart part) :
    ∃ lead, (d.text = lead ++ ['/'] ∨ d.text = lead) ∧ (lead ++ ['/']).head? = d.text.head? ∧
      (d.join ⟨part⟩).parent? = some ⟨(trimTail (lead ++ ['/']).reverse).reverse⟩ := by
  have ⟨lead, htext, hhead, hjoin⟩ := exists_lead hd
  refine ⟨lead, htext, hhead, ?_⟩
  have htrim : trimTail (lead ++ '/' :: part).reverse = (lead ++ '/' :: part).reverse := by
    simpa using trimTail_part hp lead.reverse
  have hdrop := Text.dropWhile_reverse_append hp.not_separator lead
  rw [parent?, hjoin part hp.not_separator, htrim]
  split
  case h_1 h => simp at h
  case h_2 h =>
    have := congrArg List.length h
    have := List.length_pos_of_ne_nil hp.ne_nil
    simp at *
    omega
  case h_3 c t _ h =>
    have hc : c ≠ '/' := by
      rintro rfl
      have hlast := getLast?_join hd hp
      rw [hjoin part hp.not_separator, ← List.head?_reverse] at hlast
      simp [h] at hlast
    rw [h, List.dropWhile_cons_of_pos (by simpa using hc)] at hdrop
    rw [hdrop]
    simp

end Join

end Path
end Componentry
