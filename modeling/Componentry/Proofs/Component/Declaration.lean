import Componentry.Proofs.Code.Nesting
import Componentry.Proofs.Component.Opening
import Componentry.Proofs.Component.Splitting
import Componentry.Proofs.Markup.Spelling
import Componentry.Proofs.Text.Offsets
import Componentry.Text.Matches

/-!
Where components are declared. A header is read at the first place at which a declaration is
complete. To look for the words of declarations from left to right, each search starting where the
last one ended, misses none: the words of one declaration do not start inside those of another.
-/
namespace Componentry

open Code

def IsBoundary (before after : Text) : Prop :=
  before.getLast?.any isWordChar ≠ after.head?.any isWordChar

theorem isBoundary_iff_startsWord {before after : Text} (h : after.head?.any isWordChar) :
    IsBoundary before after ↔ startsWord before.getLast? := by
  simp [IsBoundary, startsWord, h]

theorem Text.exists_skipBlanks? {t rest : Text} (h : t.skipBlanks? = some rest) :
    ∃ blanks, t = blanks ++ rest ∧ blanks ≠ [] ∧ ∀ c ∈ blanks, isBlank c := by
  unfold skipBlanks? at h
  split at h
  case isFalse => simp at h
  case isTrue hb =>
    cases h
    obtain ⟨blanks, ht, hblanks⟩ := exists_dropWhile isBlank t
    refine ⟨blanks, ht, ?_, hblanks⟩
    rintro rfl
    have hstop : t.trimStart.head?.any isBlank = false := head?_dropWhile isBlank t
    rw [trimStart, ← List.nil_append (t.dropWhile isBlank), ← ht, hb] at hstop
    simp at hstop

namespace Header

variable {source before after t lead name paren : Text} {kind : Kind} {header : Header}

-- How a declaration is written up to its parenthesis: words with blanks between them.
inductive IsLead (kind : Kind) (name : Text) : Text → Prop
  | mk {w₁ w₂ w₃} (hn : Identifier.IsName name) (hw₁ : w₁ ≠ []) (hw₂ : w₂ ≠ [])
    (hb₁ : ∀ c ∈ w₁, isBlank c) (hb₂ : ∀ c ∈ w₂, isBlank c) (hb₃ : ∀ c ∈ w₃, isBlank c) :
    IsLead kind name ("export".toList ++ (w₁ ++ (kind.keyword ++ (w₂ ++ (name ++ w₃)))))

theorem kind?_eq_some_iff {rest : Text} : kind? t = some (kind, rest) ↔
    t = kind.keyword ++ rest := by
  constructor
  case mp =>
    intro h
    obtain ⟨k, _, hk⟩ := List.exists_of_findSome?_eq_some h
    obtain ⟨u, hu, he⟩ := Option.map_eq_some_iff.mp hk
    cases he
    exact Text.stripStart?_eq_some_iff.mp hu
  case mpr =>
    rintro rfl
    exact kind?_append kind rest

theorem declaration?_eq_some_iff : declaration? t = some (kind, name, paren) ↔
    ∃ lead rest, IsLead kind name lead ∧ t = lead ++ paren ∧ paren = '(' :: rest := by
  constructor
  case mp =>
    intro h
    simp only [declaration?, Option.bind_eq_bind, Option.bind_eq_some_iff] at h
    obtain ⟨afterExport, h₁, afterBlanks, h₂, ⟨k, afterKind⟩, h₃, beforeName, h₄, h⟩ := h
    obtain ⟨w₁, hs₁, hw₁, hb₁⟩ := Text.exists_skipBlanks? h₂
    obtain ⟨w₂, hs₂, hw₂, hb₂⟩ := Text.exists_skipBlanks? h₄
    dsimp only at hs₂
    split at h
    case h_2 => simp at h
    case h_1 rest hname hrest =>
      obtain ⟨w₃, hs₃, hb₃⟩ := Text.exists_dropWhile isBlank (Identifier.split beforeName).2
      rw [← Text.trimStart, hrest] at hs₃
      have hsplit := Identifier.split_append beforeName
      cases h
      have hisName : Identifier.IsName (Identifier.split beforeName).1 :=
        Identifier.isName_split rfl (by simp [hname])
      refine ⟨_, _, .mk hisName hw₁ hw₂ hb₁ hb₂ hb₃, ?_, rfl⟩
      rw [Text.stripStart?_eq_some_iff.mp h₁, hs₁, kind?_eq_some_iff.mp h₃, hs₂]
      nth_rewrite 1 [← hsplit]
      simp [hs₃]
  case mpr =>
    rintro ⟨lead, rest, ⟨hn, hw₁, hw₂, hb₁, hb₂, hb₃⟩, rfl, rfl⟩
    simpa using declaration?_append hn hw₁ hw₂ hb₁ hb₂ hb₃ kind rest

-- A declaration that makes a header, in pieces: what is before it, its words, and what is after its
-- parameters.
structure Declares (source before after lead : Text) (closer : Char) (space statements : Text)
    (header : Header) : Prop where
  source_eq : source = before ++ after
  after_eq : after = lead ++ '(' :: (header.parameters ++ closer :: (space ++ '{' :: statements))
  isBoundary : IsBoundary before after
  isLead : IsLead header.kind header.name lead
  isCode : isCodeAt source before.size
  closes : closer? source (before ++ lead).size =
    some ((before ++ lead).size + 1 + header.parameters.size)
  isSpace : ∀ c ∈ space, isSpace c
  bodyStart_eq : header.bodyStart = source.offset statements

def IsCandidate (source : Text) (offset : Nat) (header : Header) : Prop :=
  ∃ before after lead closer space statements,
    Declares source before after lead closer space statements header ∧ before.size = offset

theorem IsLead.head? (h : IsLead kind name lead) (t : Text) : (lead ++ t).head? = some 'e' := by
  cases h
  rfl

theorem IsLead.isBoundary_iff (h : IsLead kind name lead) :
    IsBoundary before (lead ++ t) ↔ startsWord before.getLast? := by
  apply isBoundary_iff_startsWord
  rw [h.head?]
  decide

theorem here?_eq_some_iff (hs : source = before ++ after) :
    here? source before.getLast? after = some header ↔
      ∃ lead closer space statements, Declares source before after lead closer space
      statements header := by
  have hoffset : source.offset after = before.size := by rw [hs, Text.offset_append]
  simp only [here?, hoffset, Option.bind_eq_bind, Option.bind_eq_some_iff]
  constructor
  case mp =>
    rintro ⟨⟨kind, name, paren⟩, hd, h⟩
    obtain ⟨lead, inside, hlead, ha, rfl⟩ := declaration?_eq_some_iff.mp hd
    split at h
    case isFalse => simp at h
    case isTrue hc =>
      obtain ⟨⟨parameters, rest⟩, hg, h⟩ := Option.bind_eq_some_iff.mp h
      split at h
      case h_2 => simp at h
      case h_1 statements hskip =>
        cases h
        dsimp only at hg hskip
        obtain ⟨space, hrest, hspace⟩ := Text.exists_skipSpace rest
        obtain ⟨closer, hinside, _⟩ := exists_closer hg
        have hafter : after = lead ++ '(' :: (parameters ++
            closer :: (space ++ '{' :: statements)) := by
          rw [ha, hinside, hrest, hskip]
        have hword : startsWord before.getLast? ∧ isCodeAt source before.size := by simpa using hc
        refine ⟨lead, closer, space, statements, hs, hafter, ?_, hlead, hword.right, ?_,
          hspace, rfl⟩
        · rw [ha, hlead.isBoundary_iff]
          exact hword.left
        · rw [hs, ha, ← List.append_assoc, closer?_append, hg]
          rfl
  case mpr =>
    rintro ⟨lead, closer, space, statements, h⟩
    have ha := h.after_eq
    have hboundary := h.isBoundary
    rw [ha, h.isLead.isBoundary_iff] at hboundary
    have hdeclaration := declaration?_eq_some_iff.mpr ⟨lead, _, h.isLead, ha, rfl⟩
    have hskip : Text.skipSpace (space ++ '{' :: statements) = '{' :: statements :=
      Text.skipSpace_append h.isSpace rfl
    have hgroup : group? ('(' :: (header.parameters ++ closer :: (space ++ '{' :: statements))) =
        some (header.parameters, space ++ '{' :: statements) := by
      have hcloses := h.closes
      rw [hs, ha, ← List.append_assoc, closer?_append] at hcloses
      obtain ⟨p, hp, hsize⟩ := Option.map_eq_some_iff.mp hcloses
      apply group?_of_closer?
      have hzero :=
        closer?_append [] ('(' :: (header.parameters ++ closer :: (space ++ '{' :: statements)))
      rw [hp] at hzero
      rw [← List.nil_append ('(' :: _), ← Text.size_nil, hzero]
      simp
      omega
    refine ⟨_, hdeclaration, ?_⟩
    simp [hboundary, h.isCode, hgroup, hskip, ← h.bodyStart_eq]

section Search

def words? (previous : Option Char) (t : Text) : Option ((Text × Kind × Text × Text) × Nat) :=
  if startsWord previous then
    (declaration? t).map fun (kind, name, paren) =>
      ((t, kind, name, paren), t.length - paren.length + 1)
  else none

def complete? (source : Text) : Text × Kind × Text × Text → Option Header
  | (t, kind, name, paren) =>
    if isCodeAt source (source.offset t) then do
      let (parameters, rest) ← group? paren
      match rest.skipSpace with
      | '{' :: inside => some ⟨kind, name, parameters, source.offset inside⟩
      | _ => none
    else none

variable {previous : Option Char}

theorem exists_lead_of_words? {found : Text × Kind × Text × Text} {length : Nat}
    (h : words? previous t = some (found, length)) :
    ∃ kind name lead rest, IsLead kind name lead ∧ t = lead ++ '(' :: rest ∧
      found = (t, kind, name, '(' :: rest) ∧ length = lead.length + 1 := by
  unfold words? at h
  split at h
  case isFalse => simp at h
  case isTrue =>
    obtain ⟨⟨kind, name, paren⟩, hd, he⟩ := Option.map_eq_some_iff.mp h
    obtain ⟨lead, rest, hlead, rfl, rfl⟩ := declaration?_eq_some_iff.mp hd
    cases he
    exact ⟨kind, name, lead, rest, hlead, rfl, rfl, by simp⟩

theorem here?_eq_bind : here? source previous t = (words? previous t).bind fun w =>
    complete? source w.1 := by
  unfold here? words?
  cases declaration? t
  case none => cases startsWord previous <;> rfl
  case some words =>
    cases startsWord previous <;> rfl

theorem run_unique {p : Char → Bool} {a b x y : Text} (ha : ∀ c ∈ a, p c) (hb : ∀ c ∈ b, p c)
    (hx : x.head?.any p = false) (hy : y.head?.any p = false) (h : a ++ x = b ++ y) :
    a = b ∧ x = y := by
  have hrest : x = y := by
    rw [← Text.dropWhile_append_run ha hx, h, Text.dropWhile_append_run hb hy]
  exact ⟨List.append_cancel_right (hrest ▸ h), hrest⟩

theorem isBlank_eq_false_of_mem_keyword {c : Char} (h : c ∈ kind.keyword) : isBlank c = false := by
  have hall : kind.keyword.all (!isBlank ·) := by cases kind <;> rfl
  simpa using List.all_eq_true.mp hall c h

-- The words of a declaration do not end with those of another. Backward, the runs of blanks and of
-- other characters are the same in both.
theorem IsLead.eq_nil_of_append {s other name' : Text} {kind' : Kind}
    (h : IsLead kind name (s ++ other)) (ho : IsLead kind' name' other) : s = [] := by
  have hhead {p : Char → Bool} {a : Text} (hn : a ≠ []) (ha : ∀ c ∈ a, p c = false) (b : Text) :
      (a.reverse ++ b).head?.any p = false := by
    obtain ⟨c, u, hu⟩ := List.exists_cons_of_ne_nil (List.reverse_ne_nil_iff.mpr hn)
    simpa [hu] using ha c (List.mem_reverse.mp (hu ▸ List.mem_cons_self ..))
  have hname {name : Text} (hn : Identifier.IsName name) : ∀ c ∈ name, isBlank c = false :=
    fun c hc => isBlank_eq_false_of_isPart (hn.isPart_of_mem hc)
  have hword {kind : Kind} : ∀ c ∈ kind.keyword, isBlank c = false :=
    fun c hc => isBlank_eq_false_of_mem_keyword hc
  have hkeyword {kind : Kind} : kind.keyword ≠ [] := by cases kind <;> decide
  generalize he : s ++ other = lead at h
  obtain ⟨hn, hw₁, hw₂, hb₁, hb₂, hb₃⟩ := h
  obtain ⟨hn', hw₁', hw₂', hb₁', hb₂', hb₃'⟩ := ho
  replace he := congrArg List.reverse he
  simp only [List.reverse_append, List.append_assoc] at he
  obtain ⟨-, he⟩ := @run_unique isBlank _ _ _ _ (by simpa using hb₃') (by simpa using hb₃)
    (hhead hn'.left (hname hn') _) (hhead hn.left (hname hn) _) he
  obtain ⟨-, he⟩ :=
    @run_unique (!isBlank ·) _ _ _ _ (by simpa using hname hn') (by simpa using hname hn)
    (hhead hw₂' (by simpa using hb₂') _) (hhead hw₂ (by simpa using hb₂) _) he
  obtain ⟨-, he⟩ := @run_unique isBlank _ _ _ _ (by simpa using hb₂') (by simpa using hb₂)
    (hhead hkeyword hword _) (hhead hkeyword hword _) he
  obtain ⟨-, he⟩ := @run_unique (!isBlank ·) _ _ _ _ (by simpa using hword) (by simpa using hword)
    (hhead hw₁' (by simpa using hb₁') _) (hhead hw₁ (by simpa using hb₁) _) he
  obtain ⟨-, he⟩ :=
    @run_unique isBlank _ _ _ _ (by simpa using hb₁') (by simpa using hb₁) rfl rfl he
  simpa using he

theorem IsLead.ne_parenthesis (h : IsLead kind name lead) {c : Char} (hc : c ∈ lead) : c ≠ '(' := by
  obtain ⟨hn, hw₁, hw₂, hb₁, hb₂, hb₃⟩ := h
  have hexport : "export".toList.all (· ≠ '(') := rfl
  have hkeyword : kind.keyword.all (· ≠ '(') := by cases kind <;> rfl
  have hname : ∀ c ∈ name, c ≠ '(' := by
    rintro c hc rfl
    exact absurd (hn.isPart_of_mem hc) (by decide)
  simp only [List.mem_append] at hc
  rcases hc with hc | hc | hc | hc | hc | hc
  · simpa using List.all_eq_true.mp hexport c hc
  · exact ne_of_isBlank (hb₁ c hc) rfl
  · simpa using List.all_eq_true.mp hkeyword c hc
  · exact ne_of_isBlank (hb₂ c hc) rfl
  · exact hname c hc
  · exact ne_of_isBlank (hb₃ c hc) rfl

theorem IsLead.declaration?_eq_none {s u : Text} (h : IsLead kind name lead) (hs : s ≠ [])
    (hu : u ≠ []) (he : lead ++ ['('] = s ++ u) (rest : Text) :
    declaration? (u ++ rest) = none := by
  cases hd : declaration? (u ++ rest)
  case none => rfl
  case some words =>
    obtain ⟨kind', name', paren⟩ := words
    obtain ⟨other, rest', hother, hparen, rfl⟩ := declaration?_eq_some_iff.mp hd
    have happend : lead ++ '(' :: rest = (s ++ other) ++ '(' :: rest' := by
      rw [List.append_assoc, ← hparen, ← List.append_assoc, ← he]
      simp
    have hstart : s <+: lead := by
      rcases List.prefix_concat_iff.mp ⟨u, he.symm⟩ with heq | hp
      case inl => exact absurd (by simpa [heq] using he) hu
      case inr => exact hp
    -- The first parenthesis ends the words of both.
    have hsuffix : lead = s ++ other := by
      refine (@run_unique (· ≠ '(') _ _ _ _ ?_ ?_ rfl rfl happend).left
      · exact fun c hc => by simpa using h.ne_parenthesis hc
      · intro c hc
        rcases List.mem_append.mp hc with hc | hc
        · simpa using h.ne_parenthesis (hstart.subset hc)
        · simpa using hother.ne_parenthesis hc
    exact absurd ((hsuffix ▸ h).eq_nil_of_append hother) hs

-- Inside the words of a declaration there is no other, so that nothing is missed by going on after
-- them.
theorem findSome?_occurrences (u v : Text) (h : ∀ s w, u = s ++ w → w ≠ [] →
      declaration? (w ++ v) = none) :
    (Text.occurrences.go words? u.length previous (u ++ v)).findSome? (complete? source) =
      find?.go source previous (u ++ v) := by
  induction hlength : (u ++ v).length generalizing u v previous
  case zero =>
    obtain ⟨rfl, rfl⟩ : u = [] ∧ v = [] := by simpa using hlength
    rfl
  case succ n ih =>
    cases u
    case cons c u =>
      have hd : declaration? (c :: (u ++ v)) = none := h [] (c :: u) rfl (by simp)
      have hnone : here? source previous (c :: (u ++ v)) = none := by simp [here?, hd]
      rw [List.cons_append, List.length_cons, Text.occurrences.go, find?.go, hnone, Option.none_or]
      exact ih u v (fun s w hw hn => h (c :: s) w (by simp [hw]) hn) (by simpa using hlength)
    case nil =>
      cases v
      case nil => simp at hlength
      case cons c v =>
        have hv : v.length = n := by simpa using hlength
        rw [List.nil_append, List.length_nil, Text.occurrences.go, find?.go, here?_eq_bind]
        cases hw : words? previous (c :: v)
        case none => exact ih [] v (by simp) hv
        case some found =>
          obtain ⟨found, length⟩ := found
          cases hc : complete? source found
          case some header => simp [hc]
          case none =>
            simp only [Option.bind_some, hc, Option.none_or, List.findSome?_cons]
            obtain ⟨kind, name, lead, rest, hlead, he, _, hl⟩ := exists_lead_of_words? hw
            obtain ⟨lead', rfl⟩ : ∃ lead', lead = c :: lead' := by
              have hhead := hlead.head? ('(' :: rest)
              rw [← he, List.head?_cons, Option.some.injEq] at hhead
              rw [hhead]
              exact List.head?_eq_some_iff.mp (by simpa using hlead.head? [])
            have hv' : v = (lead' ++ ['(']) ++ rest := by simpa using he
            have hskip : length - 1 = (lead' ++ ['(']).length := by simp [hl]
            rw [hskip, hv']
            refine ih _ _ (fun s w hs hn => ?_) (hv' ▸ hv)
            exact hlead.declaration?_eq_none (List.cons_ne_nil c s) hn (by simp [hs]) rest

theorem getLast?_cons_or (c : Char) (s : Text) (previous : Option Char) :
    (c :: s).getLast?.or previous = s.getLast?.or (some c) := by
  cases s <;> simp [List.getLast?_cons]

theorem go_cases (source : Text) (previous : Option Char) (t : Text) :
    (∃ header s u, find?.go source previous t = some header ∧ t = s ++ u ∧
      here? source (s.getLast?.or previous) u = some header ∧ ∀ s' u', t = s' ++ u' →
      s'.size < s.size →
        here? source (s'.getLast?.or previous) u' = none) ∨
    (find?.go source previous t = none ∧
      ∀ s u, t = s ++ u → here? source (s.getLast?.or previous) u = none) := by
  induction t generalizing previous
  case nil =>
    refine .inr ⟨rfl, fun s u h => ?_⟩
    obtain ⟨rfl, rfl⟩ : s = [] ∧ u = [] := by simpa using h.symm
    rfl
  case cons c t ih =>
    rw [find?.go]
    cases hh : here? source previous (c :: t)
    case some header => exact .inl ⟨header, [], c :: t, rfl, rfl, hh, by simp⟩
    case none =>
      rw [Option.none_or]
      rcases ih (some c) with ⟨header, s, u, hgo, ht, hs, hfirst⟩ | ⟨hgo, hnone⟩
      case inl =>
        refine .inl ⟨header, c :: s, u, hgo, by rw [ht, List.cons_append],
          by rw [getLast?_cons_or, hs], ?_⟩
        intro s' u' h' hlt
        cases s'
        case nil =>
          rw [List.nil_append] at h'
          rw [← h']
          exact hh
        case cons d s' =>
          rw [List.cons_append, List.cons.injEq] at h'
          obtain ⟨rfl, h'⟩ := h'
          rw [getLast?_cons_or]
          exact hfirst s' u' h' (by simpa using hlt)
      case inr =>
        refine .inr ⟨hgo, fun s' u' h' => ?_⟩
        cases s'
        case nil =>
          rw [List.nil_append] at h'
          rw [← h']
          exact hh
        case cons d s' =>
          rw [List.cons_append, List.cons.injEq] at h'
          obtain ⟨rfl, h'⟩ := h'
          rw [getLast?_cons_or]
          exact hnone s' u' h'

theorem isCandidate_iff {offset : Nat} : IsCandidate source offset header ↔
    ∃ before after, source = before ++ after ∧ before.size = offset ∧
      here? source before.getLast? after = some header := by
  constructor
  case mp =>
    intro ⟨before, after, lead, closer, space, statements, h, ho⟩
    exact ⟨before, after, h.source_eq, ho, (here?_eq_some_iff h.source_eq).mpr ⟨_, _, _, _, h⟩⟩
  case mpr =>
    intro ⟨before, after, hs, ho, h⟩
    obtain ⟨lead, closer, space, statements, hd⟩ := (here?_eq_some_iff hs).mp h
    exact ⟨before, after, lead, closer, space, statements, hd, ho⟩

theorem IsCandidate.unique {offset : Nat} {other : Header} (h : IsCandidate source offset header)
    (ho : IsCandidate source offset other) : header = other := by
  obtain ⟨before, after, hs, hb, hh⟩ := isCandidate_iff.mp h
  obtain ⟨before', after', hs', hb', hh'⟩ := isCandidate_iff.mp ho
  obtain ⟨rfl, rfl⟩ := Text.append_inj_of_size (hs.symm.trans hs') (hb.trans hb'.symm)
  exact Option.some.inj (hh.symm.trans hh')

theorem find?_cases (source : Text) :
    (∃ header offset, find? source = some header ∧ IsCandidate source offset header ∧
      ∀ earlier < offset, ∀ other, ¬IsCandidate source earlier other) ∨
    (find? source = none ∧ ∀ offset header, ¬IsCandidate source offset header) := by
  simp only [isCandidate_iff]
  rcases go_cases source none source with ⟨header, before, after, hgo, hs,
    hh, hfirst⟩ | ⟨hgo, hnone⟩
  case inl =>
    refine .inl ⟨header, before.size, hgo, ⟨before, after, hs, rfl, by simpa using hh⟩, ?_⟩
    rintro earlier hlt other ⟨before', after', hs', rfl, hother⟩
    have hn := hfirst before' after' hs' hlt
    rw [Option.or_none, hother] at hn
    simp at hn
  case inr =>
    refine .inr ⟨hgo, ?_⟩
    rintro offset header ⟨before, after, hs, -, hh⟩
    have hn := hnone before after hs
    rw [Option.or_none, hh] at hn
    simp at hn

theorem exists_candidate_of_extract (h : extract source = .ok header) :
    ∃ offset, IsCandidate source offset header := by
  rcases find?_cases source with ⟨found, offset, hf, hc, _⟩ | ⟨hf, _⟩
  case inl =>
    simp only [extract, hf, Except.ok.injEq] at h
    exact ⟨offset, h ▸ hc⟩
  case inr => simp [extract, hf] at h

theorem delimited_of_extract (h : extract source = .ok header) : Delimited header.parameters := by
  obtain ⟨offset, before, after, lead, closer, space, statements, hd, _⟩ :=
    exists_candidate_of_extract h
  have hcloses := hd.closes
  rw [hd.source_eq, hd.after_eq, ← List.append_assoc, closer?_append] at hcloses
  obtain ⟨⟨inside, rest⟩, hg, hsize⟩ := Option.map_eq_some_iff.mp hcloses
  obtain ⟨d, he, _⟩ := exists_closer hg
  obtain ⟨hi, _⟩ := Text.append_inj_of_size he (by simpa using hsize.symm)
  exact hi ▸ delimited_of_group? hg

end Search

-- A source has the header that is declared first. Where none is declared, that is a fault of its
-- first character. The same header is found if the search goes on after the words of each
-- declaration that is not complete.
theorem extract_first (source : Text) :
    (∀ header, extract source = .ok header ↔ ∃ offset, IsCandidate source offset header ∧
      ∀ earlier < offset, ∀ other, ¬IsCandidate source earlier other) ∧
    (∀ file error, (extract source).mapError (·.inFile file source) = .error error ↔
      error = ⟨.invalidHeader, file, ⟨1, 1⟩, none⟩ ∧ ∀ offset header,
      ¬IsCandidate source offset header) ∧
    (source.occurrences words?).findSome? (complete? source) = find? source := by
  refine ⟨fun header => ?_, fun file error => ?_, findSome?_occurrences [] source (by simp)⟩
  case refine_1 =>
    rcases find?_cases source with ⟨found, offset, hf, hc, hfirst⟩ | ⟨hf, hnone⟩
    case inr =>
      simp only [extract, hf, reduceCtorEq, false_iff]
      rintro ⟨offset, hc, _⟩
      exact hnone offset header hc
    case inl =>
      simp only [extract, hf, Except.ok.injEq]
      constructor
      case mp =>
        rintro rfl
        exact ⟨offset, hc, hfirst⟩
      case mpr =>
        rintro ⟨offset', hc', hfirst'⟩
        rcases Nat.lt_trichotomy offset offset' with hlt | rfl | hlt
        · exact absurd hc (hfirst' offset hlt found)
        · exact hc.unique hc'
        · exact absurd hc' (hfirst offset' hlt header)
  case refine_2 =>
    have hlocation : Location.ofOffset source 0 = ⟨1, 1⟩ := by
      rw [Location.ofOffset, ← Text.size_nil, ← List.nil_append source, Text.cut_append_size]
      rfl
    rcases find?_cases source with ⟨found, offset, hf, hc, hfirst⟩ | ⟨hf, hnone⟩
    case inl =>
      simp only [extract, hf, Except.mapError, reduceCtorEq, false_iff]
      rintro ⟨_, hn⟩
      exact hn offset found hc
    case inr =>
      simp only [extract, hf, Except.mapError, Problem.inFile, hlocation, Except.error.injEq]
      exact ⟨fun h => ⟨h.symm, hnone⟩, fun h => h.left.symm⟩

end Header
end Componentry
