import Componentry.Editor.Declarations
import Componentry.Proofs.Code.Places
import Componentry.Proofs.Component.Declaration
import Componentry.Proofs.Text.Matches

/-!
Where the constants of a source come from. Declarations are looked for in the text alone, so that a
comment or a string can hold one. Main statement: every constant is declared by a keyword somewhere
in the source; all of them are declared in code if and only if each declaration that is found
outside code and has a value repeats a name of the code; and a source in a comment has the constants
that it has without.
-/
namespace Componentry

namespace Editor

open Code

section Semicolon

variable {keyword : Text} {previous : Option Char}

theorem declared?_append_semicolon (hk : ';' ∉ keyword) (s t : Text) :
    declared? keyword (s ++ ';' :: t) =
    (declared? keyword s).map fun found => (found.1, found.2 ++ ';' :: t) := by
  have hsplit (u : Text) : Identifier.split (u ++ ';' :: t) =
      ((Identifier.split u).1, (Identifier.split u).2 ++ ';' :: t) :=
    Identifier.split_append_stop rfl
  unfold declared?
  rw [Text.stripStart?_append_stop hk]
  cases s.stripStart? keyword
  case none => rfl
  case some u =>
    dsimp only [Option.map_some, Option.bind_eq_bind, Option.bind_some]
    rw [Text.skipBlanks?_append_stop rfl]
    cases u.skipBlanks?
    case none => rfl
    case some v =>
      dsimp only [Option.map_some, Option.bind_some]
      rw [hsplit]
      cases Identifier.split v with
      | mk name rest => cases name <;> rfl

theorem initialiser?_append_semicolon (s t : Text) : initialiser? (s ++ ';' :: t) =
    (initialiser? s).map fun found => (found.1, found.2 ++ ';' :: t) := by
  have htrim : Text.trimStart (s ++ ';' :: t) = s.trimStart ++ ';' :: t :=
    Text.trimStart_append_cons s t rfl
  have hfound : (s.trimStart ++ ';' :: t).takeWhile (!endsInitialiser ·) =
      s.trimStart.takeWhile (!endsInitialiser ·) :=
    Text.takeWhile_append_stop rfl
  have hrest : (s.trimStart ++ ';' :: t).dropWhile (!endsInitialiser ·) =
      s.trimStart.dropWhile (!endsInitialiser ·) ++ ';' :: t :=
    Text.dropWhile_append_stop rfl
  have hblanks : (s ++ ';' :: t).takeWhile isBlank = s.takeWhile isBlank :=
    Text.takeWhile_append_stop rfl
  unfold initialiser?
  rw [htrim, hfound, hrest, hblanks]
  split
  case h_2 => rfl
  case h_1 =>
    cases hlast : (s.takeWhile isBlank).reverse.dropWhile endsInitialiser
    case nil => rfl
    case cons c before =>
      have hlength : before.length + 1 ≤ s.length := by
        have hsub :=
          (List.dropWhile_sublist endsInitialiser (l := (s.takeWhile isBlank).reverse)).length_le
        have hrun := (List.takeWhile_sublist isBlank (l := s)).length_le
        rw [hlast, List.length_cons, List.length_reverse] at hsub
        exact hsub.trans hrun
      simp [List.drop_append_of_le_length hlength]

theorem constant?_append_semicolon (s t : Text) :
    constant? previous (s ++ ';' :: t) = constant? previous s := by
  unfold constant?
  rw [declared?_append_semicolon (by decide)]
  split
  case isFalse => rfl
  cases declared? "const".toList s
  case none => rfl
  case some found =>
    obtain ⟨name, u⟩ := found
    have htrim : Text.trimStart (u ++ ';' :: t) = u.trimStart ++ ';' :: t :=
      Text.trimStart_append_cons u t rfl
    simp only [Option.map_some, Option.bind_eq_bind, Option.bind_some, htrim,
      Text.stripStart?_append_stop (by decide : ';' ∉ ['='])]
    cases u.trimStart.stripStart? ['=']
    case none => rfl
    case some v =>
      simp only [Option.map_some, Option.bind_some, initialiser?_append_semicolon]
      cases initialiser? v
      case none => rfl
      case some found => simp [taken, Nat.add_sub_add_right]

end Semicolon

inductive Declares (name initialiser : Text) : Text → Prop
  | intro {blanks gap space rest : Text} (hn : blanks ≠ []) (hblanks : ∀ c ∈ blanks, isBlank c)
    (hname : Identifier.IsName name) (hgap : ∀ c ∈ gap, isBlank c) (hspace : ∀ c ∈ space, isBlank c)
    (hi : initialiser ≠ []) (hinitialiser : ∀ c ∈ initialiser, endsInitialiser c = false) :
    Declares name initialiser
      ("const".toList ++ (blanks ++ (name ++ (gap ++ '=' :: (space ++ (initialiser ++ rest))))))

def DeclaredAt (source : Text) (offset : Nat) (name : Text) : Prop :=
  ∃ before t initialiser, source = before ++ t ∧ before.size = offset ∧ startsWord before.getLast? ∧
    Declares name initialiser t

def DeclaredInCode (source name : Text) : Prop :=
  ∃ offset, DeclaredAt source offset name ∧ isCodeAt source offset

-- All constants of a source are declared in code.
def FromCode (source : Text) : Prop :=
  ∀ name value, (constants source).get? name = some value → DeclaredInCode source name

section Shape

variable {name initialiser rest t : Text}

theorem exists_of_declared? {keyword : Text} (h : declared? keyword t = some (name, rest)) :
    ∃ blanks, t = keyword ++ (blanks ++ (name ++ rest)) ∧ blanks ≠ [] ∧ (∀ c ∈ blanks, isBlank c) ∧
      Identifier.IsName name := by
  unfold declared? at h
  obtain ⟨u, hu, hrest⟩ := Option.bind_eq_some_iff.mp h
  obtain ⟨v, hv, hfound⟩ := Option.bind_eq_some_iff.mp hrest
  obtain ⟨blanks, rfl, hn, hblanks⟩ := Text.exists_skipBlanks? hv
  split at hfound
  case h_1 => cases hfound
  case h_2 found _ hne hsplit =>
    obtain ⟨rfl, rfl⟩ := Prod.mk.inj (Option.some.inj hfound)
    refine ⟨blanks, ?_, hn, hblanks, Identifier.isName_split hsplit hne⟩
    rw [Text.stripStart?_eq_some_iff.mp hu, ← Identifier.split_append v, hsplit]

theorem exists_of_initialiser? (h : initialiser? t = some (initialiser, rest)) :
    ∃ space, t = space ++ (initialiser ++ rest) ∧ (∀ c ∈ space, isBlank c) ∧ initialiser ≠ [] ∧
      ∀ c ∈ initialiser, endsInitialiser c = false := by
  obtain ⟨blanks, ht, hblanks⟩ := Text.exists_dropWhile isBlank t
  unfold initialiser? at h
  split at h
  case h_2 hne =>
    obtain ⟨rfl, rfl⟩ := Prod.mk.inj (Option.some.inj h)
    refine ⟨blanks, ?_, hblanks, hne, fun c hc => ?_⟩
    · rw [List.takeWhile_append_dropWhile]
      exact ht
    · simpa using List.mem_takeWhile_imp hc
  -- Where only blanks follow, the initialiser is one of them, and those before it are the space.
  case h_1 =>
    split at h
    case h_1 => cases h
    case h_2 c before hlast =>
      obtain ⟨rfl, rfl⟩ := Prod.mk.inj (Option.some.inj h)
      obtain ⟨run, hrun, _⟩ := Text.exists_dropWhile endsInitialiser (t.takeWhile isBlank).reverse
      have hends := Text.head?_dropWhile endsInitialiser (t.takeWhile isBlank).reverse
      rw [hlast] at hrun hends
      have htake : t.takeWhile isBlank = before.reverse ++ (c :: run.reverse) := by
        simpa using congrArg List.reverse hrun
      have hsplit : t = (before.reverse ++ [c]) ++ (run.reverse ++ t.dropWhile isBlank) := by
        have hwhole := List.takeWhile_append_dropWhile (p := isBlank) (l := t)
        rw [htake] at hwhole
        simpa using hwhole.symm
      refine ⟨before.reverse, ?_, fun d hd => ?_, List.cons_ne_nil _ _, by simpa using hends⟩
      · have hdrop : t.drop (before.length + 1) = run.reverse ++ t.dropWhile isBlank := by
          conv_lhs => rw [hsplit]
          exact List.drop_left' (by simp)
        rw [hdrop]
        simpa using hsplit
      · exact List.mem_takeWhile_imp (htake ▸ List.mem_append_left _ hd)

theorem declares_of_constant? {previous : Option Char} {length : Nat}
    (h : constant? previous t = some ((name, initialiser), length)) :
    startsWord previous ∧ Declares name initialiser t := by
  unfold constant? at h
  split at h
  case isFalse => cases h
  case isTrue hstart =>
    obtain ⟨⟨found, u⟩, hdeclared, h⟩ := Option.bind_eq_some_iff.mp h
    obtain ⟨v, hequals, h⟩ := Option.bind_eq_some_iff.mp h
    obtain ⟨⟨value, w⟩, hvalue, h⟩ := Option.bind_eq_some_iff.mp h
    obtain ⟨hpair, _⟩ := Prod.mk.inj (Option.some.inj h)
    obtain ⟨rfl, rfl⟩ := Prod.mk.inj hpair
    obtain ⟨blanks, rfl, hn, hblanks, hname⟩ := exists_of_declared? hdeclared
    obtain ⟨gap, hu, hgap⟩ := Text.exists_dropWhile isBlank u
    obtain ⟨space, rfl, hspace, hi, hinitialiser⟩ := exists_of_initialiser? hvalue
    have hrest : u.dropWhile isBlank = ['='] ++ _ := Text.stripStart?_eq_some_iff.mp hequals
    rw [hu, hrest]
    exact ⟨hstart, .intro hn hblanks hname hgap hspace hi hinitialiser⟩

end Shape

structure Declaration where
  text : Text
  name : Text
  initialiser : Text

def declaration? (previous : Option Char) (t : Text) : Option (Declaration × Nat) :=
  (constant? previous t).map fun found => (⟨t, found.1.1, found.1.2⟩, found.2)

def declarations (source : Text) : List Declaration :=
  source.occurrences declaration?

-- The declarations that have a value, given those before them.
def resolved (scope : Scope) : List Declaration → List Declaration
  | [] => []
  | d :: more =>
    match Static.eval scope d.initialiser with
    | some value => d :: resolved (scope.insert d.name value) more
    | none => resolved scope more

def Declaration.extend (scope : Scope) (d : Declaration) : Scope :=
  match Static.eval scope d.initialiser with
  | some value => scope.insert d.name value
  | none => scope

section Constants

variable {source name : Text} {scope : Scope} {d : Declaration} {ds : List Declaration}

theorem map_declarations (source : Text) :
    (declarations source).map (fun d => (d.name, d.initialiser)) =
      source.occurrences constant? := by
  have hgo (taken : Nat) (previous : Option Char) (t : Text) :
      (Text.occurrences.go declaration? taken previous t).map (fun d => (d.name, d.initialiser)) =
        Text.occurrences.go constant? taken previous t := by
    fun_induction Text.occurrences.go constant? taken previous t
    case case1 => rfl
    case case2 ih => exact ih
    case case3 hfound ih => simp [Text.occurrences.go, declaration?, hfound, ih]
    case case4 hnone ih => simp [Text.occurrences.go, declaration?, hnone, ih]
  exact hgo 0 none source

theorem constants_eq_foldl (source : Text) :
    constants source = (declarations source).foldl Declaration.extend [] := by
  rw [constants, ← map_declarations, List.foldl_map]
  rfl

theorem isSome_get?_foldl :
    ((ds.foldl Declaration.extend scope).get? name).isSome ↔
      (scope.get? name).isSome ∨ ∃ d ∈ resolved scope ds, d.name = name := by
  induction ds generalizing scope
  case nil => simp [resolved]
  case cons d ds ih =>
    rw [List.foldl_cons, ih, Declaration.extend, resolved]
    cases Static.eval scope d.initialiser
    case none => rfl
    case some value =>
      by_cases hname : name = d.name
      case pos => simp [hname]
      case neg =>
        simp [Scope.get?_insert_of_ne hname, Ne.symm hname]

theorem isSome_get?_constants :
    ((constants source).get? name).isSome ↔ ∃ d ∈ resolved [] (declarations source),
    d.name = name := by
  rw [constants_eq_foldl, isSome_get?_foldl]
  simp [Scope.get?]

theorem mem_of_mem_resolved (h : d ∈ resolved scope ds) : d ∈ ds := by
  fun_induction resolved scope ds
  case case1 => cases h
  case case2 ih =>
    rcases List.mem_cons.mp h with rfl | h
    case inl => exact List.mem_cons_self
    case inr => exact List.mem_cons_of_mem _ (ih h)
  case case3 ih => exact List.mem_cons_of_mem _ (ih h)

theorem declaredAt_of_mem (h : d ∈ declarations source) :
    DeclaredAt source (source.offset d.text) d.name := by
  obtain ⟨before, t, length, rfl, hp⟩ := Text.exists_of_mem_occurrences h
  obtain ⟨⟨⟨name, initialiser⟩, _⟩, hfound, he⟩ := Option.map_eq_some_iff.mp hp
  obtain ⟨rfl, _⟩ := Prod.mk.inj he
  obtain ⟨hstart, hdeclares⟩ := declares_of_constant? hfound
  exact ⟨before, t, initialiser, rfl, (Text.offset_append before t).symm, hstart, hdeclares⟩

end Constants

def comment (source : Text) : Text :=
  "/*".toList ++ (source ++ ";*/".toList)

section Comment

variable {source name : Text} {offset : Nat} {previous : Option Char}

theorem constant?_eq_none {c : Char} (hc : c ≠ 'c') (t : Text) :
    constant? previous (c :: t) = none := by
  have hdeclared : declared? "const".toList (c :: t) = none := by
    simp [declared?, Text.stripStart?, hc]
  unfold constant?
  rw [hdeclared]
  split <;> rfl

theorem length_le_of_constant? {t : Text} {found : Text × Text} {length : Nat}
    (h : constant? previous t = some (found, length)) : length ≤ t.length := by
  unfold constant? at h
  split at h
  case isFalse => cases h
  case isTrue =>
    obtain ⟨_, _, h₁⟩ := Option.bind_eq_some_iff.mp h
    obtain ⟨_, _, h₂⟩ := Option.bind_eq_some_iff.mp h₁
    obtain ⟨_, _, h₃⟩ := Option.bind_eq_some_iff.mp h₂
    obtain ⟨_, rfl⟩ := Prod.mk.inj (Option.some.inj h₃)
    exact Nat.sub_le _ _

theorem occurrences_comment (source : Text) :
    (comment source).occurrences constant? = source.occurrences constant? := by
  have hskip {c : Char} (hc : c ≠ 'c') (previous : Option Char) (t : Text) :
      Text.occurrences.go constant? 0 previous (c :: t) =
        Text.occurrences.go constant? 0 (some c) t := by
    rw [Text.occurrences.go, constant?_eq_none hc]
  have hend (previous : Option Char) : Text.occurrences.go constant? 0 previous ";*/".toList =
      [] := by
    change Text.occurrences.go constant? 0 previous [';', '*', '/'] = []
    rw [hskip (by decide), hskip (by decide), hskip (by decide), Text.occurrences.go]
  -- A word may start after the opening of the comment, as at the start of the source.
  have hstart (t : Text) : Text.occurrences.go constant? 0 (some '*') t =
      Text.occurrences.go constant? 0 none t := by
    cases t
    case nil => rfl
    case cons c t => rfl
  calc (comment source).occurrences constant?
      = Text.occurrences.go constant? 0 (some '*') (source ++ ";*/".toList) := by
        change Text.occurrences.go constant? 0 none ('/' :: '*' :: (source ++ ";*/".toList)) = _
        rw [hskip (by decide), hskip (by decide)]
    _ = Text.occurrences.go constant? 0 (some '*') source :=
        Text.go_append_eq (fun _ s => constant?_append_semicolon s _) (fun _ _ _ _ =>
          length_le_of_constant?) hend
          (Nat.zero_le _)
    _ = source.occurrences constant? := hstart source

theorem contextsAfter_comment {s : Text} (h : ¬['*', '/'] <:+: s) :
    contextsAfter [] ("/*".toList ++ s) =
    [if s.getLast? = some '*' then .star else .block] := by
  induction s using List.reverseRecOn
  case nil => rfl
  case append_singleton s c ih =>
    have hs : ¬['*', '/'] <:+: s := fun hs => h (hs.trans (List.infix_append' [] s [c]))
    have hstep : (if c = '*' then [Context.star] else [.block]) =
        [if c = '*' then .star else .block] := by
      split <;> rfl
    rw [← List.append_assoc, contextsAfter_append, ih hs, contextsAfter_cons, List.getLast?_concat]
    split
    case isFalse => simpa [contextsAfter, Context.after] using hstep
    case isTrue hstar =>
      have hc : c ≠ '/' := by
        rintro rfl
        obtain ⟨u, rfl⟩ := List.getLast?_eq_some_iff.mp hstar
        exact h ⟨u, [], by simp⟩
      simpa [contextsAfter, Context.after, hc] using hstep

theorem isCodeAt_comment (h : ¬['*', '/'] <:+: source)
    (hd : DeclaredAt (comment source) offset name) :
    isCodeAt (comment source) offset = false := by
  obtain ⟨before, t, initialiser, hsource, rfl, _, hdeclares⟩ := hd
  have ⟨u, ht⟩ : ∃ u, t = 'c' :: u := by
    cases hdeclares
    exact ⟨_, rfl⟩
  have ⟨s, hbefore, hs⟩ : ∃ s, before = "/*".toList ++ s ∧ s <+: source := by
    rw [comment, ht] at hsource
    rcases List.append_eq_append_iff.mp hsource with ⟨s, hbefore, hrest⟩ | ⟨r, hopening, hrest⟩
    case inr =>
      cases r
      case nil => exact ⟨[], by simpa using hopening.symm, List.nil_prefix⟩
      case cons d r =>
        obtain rfl : 'c' = d := (List.cons.inj hrest).left
        have hmem : 'c' ∈ "/*".toList := hopening ▸ List.mem_append_right before List.mem_cons_self
        exact absurd hmem (by decide)
    case inl =>
      refine ⟨s, hbefore, ?_⟩
      rcases List.append_eq_append_iff.mp hrest with ⟨r, hs, hend⟩ | ⟨r, hr, _⟩
      case inl =>
        have hmem : 'c' ∈ ";*/".toList := hend ▸ List.mem_append_right r List.mem_cons_self
        exact absurd hmem (by decide)
      case inr => exact ⟨r, hr.symm⟩
  have hcontexts := contextsAfter_comment fun hi => h (hi.trans hs.isInfix)
  rw [hsource, isCodeAt_append, hbefore, hcontexts, ht]
  split <;> rfl

theorem constants_comment (source : Text) : constants (comment source) = constants source := by
  rw [constants, occurrences_comment, constants]

end Comment

section FromCode

variable {source name value : Text}

theorem exists_declaredAt (h : (constants source).get? name = some value) :
    ∃ offset, DeclaredAt source offset name := by
  obtain ⟨d, hd, rfl⟩ := isSome_get?_constants.mp (Option.isSome_of_eq_some h)
  exact ⟨_, declaredAt_of_mem (mem_of_mem_resolved hd)⟩

theorem fromCode_iff : FromCode source ↔ ∀ d ∈ resolved [] (declarations source),
    isCodeAt source (source.offset d.text) = false → DeclaredInCode source d.name := by
  constructor
  case mp =>
    intro h d hd _
    obtain ⟨value, hvalue⟩ := Option.isSome_iff_exists.mp (isSome_get?_constants.mpr ⟨d, hd, rfl⟩)
    exact h d.name value hvalue
  case mpr =>
    intro h name value hvalue
    obtain ⟨d, hd, rfl⟩ := isSome_get?_constants.mp (Option.isSome_of_eq_some hvalue)
    cases hcode : isCodeAt source (source.offset d.text)
    case false => exact h d hd hcode
    case true => exact ⟨_, declaredAt_of_mem (mem_of_mem_resolved hd), hcode⟩

theorem fromCode_of_forall
    (h : ∀ d ∈ resolved [] (declarations source), isCodeAt source (source.offset d.text)) :
    FromCode source := by
  refine fromCode_iff.mpr fun d hd hcode => ?_
  simp [h d hd] at hcode

theorem not_declaredInCode_comment (h : ¬['*', '/'] <:+: source) (name : Text) :
    ¬DeclaredInCode (comment source) name := by
  rintro ⟨offset, hdeclared, hcode⟩
  simp [isCodeAt_comment h hdeclared] at hcode

theorem fromCode_comment_iff (h : ¬['*', '/'] <:+: source) : FromCode (comment source) ↔
    constants source = [] := by
  rw [FromCode, constants_comment]
  constructor
  case mp =>
    intro hcode
    by_contra hne
    obtain ⟨⟨name, value⟩, more, hscope⟩ := List.exists_cons_of_ne_nil hne
    have hget : (constants source).get? name = some value := by simp [hscope, Scope.get?]
    exact not_declaredInCode_comment h name (hcode name value hget)
  case mpr =>
    intro hnone name value hget
    simp [hnone, Scope.get?] at hget

end FromCode

-- Every constant is declared somewhere. It is one of the code unless a declaration outside code
-- alone gives it, and a comment around a source does not take its constants away.
theorem constants_fromCode_iff (source : Text) :
    (∀ name value, (constants source).get? name = some value →
      ∃ offset, DeclaredAt source offset name) ∧
      (FromCode source ↔ ∀ d ∈ resolved [] (declarations source),
        isCodeAt source (source.offset d.text) = false → DeclaredInCode source d.name) ∧
      ((∀ d ∈ resolved [] (declarations source), isCodeAt source (source.offset d.text)) →
        FromCode source) ∧
      constants (comment source) = constants source ∧
      (¬['*', '/'] <:+: source → (FromCode (comment source) ↔ constants source = [])) :=
  ⟨fun _ _ => exists_declaredAt, fromCode_iff, fromCode_of_forall, constants_comment source,
    fromCode_comment_iff⟩

-- A declaration in a comment gives a constant.
theorem not_fromCode_comment :
    (constants "/*const x = 'a';*/".toList).get? ['x'] = some ['a'] ∧
      ¬DeclaredInCode "/*const x = 'a';*/".toList ['x'] := by
  have hcomment : ¬DeclaredInCode (comment "const x = 'a'".toList) ['x'] :=
    not_declaredInCode_comment (by decide) ['x']
  exact ⟨by decide +kernel, hcomment⟩

end Editor

end Componentry
