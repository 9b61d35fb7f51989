import Componentry.Component.Compile
import Componentry.Proofs.Component.Splitting
import Componentry.Proofs.Markup.Grammar

/-!
Braces in markup that has no directives. A brace is text, balanced or not, unless it stands outside
all groups and right after what could be the end of the call: the first brace of that kind ends the
body.
-/
namespace Componentry

namespace Markup

def depthAfter (depth : Nat) (c : Char) : Nat :=
  if c = '{' then depth + 1 else if c = '}' then depth - 1 else depth

-- The groups that are open after a text. A closer with no group to close is passed over.
def openGroups (depth : Nat) (t : Text) : Nat :=
  t.foldl depthAfter depth

-- The brace that follows `before` in `s` is outside all groups, and accepted where `t` follows `s`.
def IsOffered (accept : Text → Bool) (depth : Nat) (s t before : Text) : Prop :=
  ∃ rest, s = before ++ '}' :: rest ∧ openGroups depth before = 0 ∧ accept ('}' :: (rest ++ t))

section Close

variable {accept : Text → Bool} {depth : Nat} {c : Char} {s t : Text}

theorem isOffered_cons {before : Text} : IsOffered accept depth (c :: s) t before ↔
    (before = [] ∧ c = '}' ∧ depth = 0 ∧ accept (c :: (s ++ t))) ∨
      ∃ later, before = c :: later ∧ IsOffered accept (depthAfter depth c) s t later := by
  constructor
  case mp =>
    intro ⟨rest, hs, hd, ha⟩
    cases before
    case nil =>
      have ⟨hc, hr⟩ := List.cons.inj hs
      subst hc hr
      exact .inl ⟨rfl, rfl, hd, ha⟩
    case cons b later =>
      have ⟨hc, hr⟩ := List.cons.inj hs
      subst hc
      exact .inr ⟨later, rfl, rest, hr, hd, ha⟩
  case mpr =>
    intro h
    rcases h with ⟨hb, hc, hd, ha⟩ | ⟨later, hb, rest, hr, hd, ha⟩
    case inl =>
      subst hb hc hd
      exact ⟨s, rfl, rfl, ha⟩
    case inr =>
      subst hb
      exact ⟨rest, by simp [hr], hd, ha⟩

theorem close?_cons_of_not_offered (hc : c ≠ '@')
    (hn : ¬(c = '}' ∧ depth = 0 ∧ accept (c :: t))) :
    close? accept depth (c :: t) = close? accept (depthAfter depth c) t := by
  rw [close?_cons, condition?_eq_none hc, depthAfter]
  by_cases hopen : c = '{'
  case pos => simp [hopen]
  case neg =>
    by_cases hclose : c = '}'
    case pos =>
      have ha : ¬((depth = 0 && accept (c :: t)) = true) := by simpa [hclose] using hn
      simp only [if_neg hopen, if_pos hclose, if_neg ha]
    case neg => simp [hopen, hclose]

-- Reading text without directives stops at the first brace that is offered, or passes over the
-- text.
theorem close?_append_literal (hs : '@' ∉ s) :
    (∃ before rest, s = before ++ '}' :: rest ∧ IsOffered accept depth s t before ∧
      (∀ other, IsOffered accept depth s t other → before <+: other) ∧
        close? accept depth (s ++ t) = some ('}' :: (rest ++ t))) ∨
    ((∀ before, ¬IsOffered accept depth s t before) ∧
      close? accept depth (s ++ t) = close? accept (openGroups depth s) t) := by
  induction s generalizing depth
  case nil =>
    refine .inr ⟨fun before h => ?_, rfl⟩
    have ⟨rest, he, _⟩ := h
    simp at he
  case cons c s ih =>
    have ⟨hc, hs⟩ : c ≠ '@' ∧ '@' ∉ s := by simpa [eq_comm] using hs
    by_cases hstop : c = '}' ∧ depth = 0 ∧ accept (c :: (s ++ t))
    case pos =>
      have hoffered : IsOffered accept depth (c :: s) t [] := isOffered_cons.mpr (.inl ⟨rfl, hstop⟩)
      have ⟨hbrace, hd, ha⟩ := hstop
      subst hbrace hd
      exact .inl ⟨[], s, rfl, hoffered, fun other _ => List.nil_prefix, close?_brace ha⟩
    case neg =>
      have hoffered {before : Text} : IsOffered accept depth (c :: s) t before ↔
          ∃ later, before = c :: later ∧ IsOffered accept (depthAfter depth c) s t later := by
        rw [isOffered_cons, or_iff_right fun h => hstop h.right]
      rw [List.cons_append, close?_cons_of_not_offered hc hstop]
      rcases @ih (depthAfter depth c) hs with ⟨before, rest, he, ho, hfirst, hclose⟩ | ⟨hn, hclose⟩
      case inl =>
        refine .inl ⟨c :: before, rest, by simp [he], hoffered.mpr ⟨before, rfl, ho⟩, ?_, hclose⟩
        intro other h
        have ⟨later, hl, hlater⟩ := hoffered.mp h
        rw [hl, List.prefix_cons_inj]
        exact hfirst later hlater
      case inr =>
        refine .inr ⟨fun before h => ?_, hclose⟩
        have ⟨later, _, hlater⟩ := hoffered.mp h
        exact hn later hlater

end Close

theorem parse_literal {t : Text} (h : '@' ∉ t) :
    parse t = .ok (if t = [] then .empty else .text t .empty) := by
  apply Yields.parse_eq
  split
  case isTrue ht =>
    rw [ht]
    exact .empty
  case isFalse ht =>
    have hinert : isInert (t ++ []) := isInert_append_of_not_mem h rfl
    rw [List.append_nil] at hinert
    have hy : Yields (.text t .empty) (t ++ []) := .text ht hinert rfl .empty
    rwa [List.append_nil] at hy

end Markup

namespace Body

-- What can end a call: a parenthesis, blanks, at most one semicolon and blanks.
inductive IsEnding : Text → Prop
  | intro {before after : Text} (semicolon : Bool) (hb : ∀ c ∈ before, isBlank c)
    (ha : ∀ c ∈ after, isBlank c) :
    IsEnding (')' :: (before ++ (if semicolon then [';'] else []) ++ after))

theorem argument?_eq_some_iff {t argument : Text} :
    argument? t = some argument ↔ ∃ ending, t = argument ++ ending ∧ IsEnding ending := by
  constructor
  case mp =>
    intro h
    unfold argument? at h
    obtain ⟨after, hafter, ha⟩ := Text.exists_dropWhile isBlank t.reverse
    generalize t.reverse.dropWhile isBlank = u at h hafter
    dsimp only at h
    split at h
    case h_2 => simp at h
    case h_1 inside hparen =>
      cases h
      obtain ⟨before, hbefore, hb⟩ := Text.exists_dropWhile isBlank
        (if u.head? = some ';' then u.tail else u)
      rw [hparen] at hbefore
      have hreverse {s : Text} (hs : ∀ c ∈ s, isBlank c) : ∀ c ∈ s.reverse, isBlank c :=
        fun c hc => hs c (List.mem_reverse.mp hc)
      have ht := congrArg List.reverse hafter
      rw [List.reverse_reverse] at ht
      by_cases hsemicolon : u.head? = some ';'
      case pos =>
        rw [if_pos hsemicolon] at hbefore
        refine ⟨_, ?_, .intro true (hreverse hb) (hreverse ha)⟩
        rw [ht, ← List.cons_head?_tail hsemicolon, hbefore]
        simp
      case neg =>
        rw [if_neg hsemicolon] at hbefore
        refine ⟨_, ?_, .intro false (hreverse hb) (hreverse ha)⟩
        rw [ht, hbefore]
        simp
  case mpr =>
    intro ⟨ending, ht, he⟩
    have ⟨semicolon, hb, ha⟩ := he
    rw [ht]
    exact argument?_append hb ha semicolon

theorem lastBrace?_append {accept : Text → Bool} {t brace : Text}
    (h : lastBrace? accept t = some brace) (s : Text) :
    lastBrace? accept (s ++ t) = some brace := by
  induction s
  case nil => exact h
  case cons c s ih => simp [lastBrace?, ih]

end Body

namespace Component

def ending : Text :=
  [')', ';', '\n', '}', '\n']

def call (markup : Text) : Text :=
  "render(".toList ++ (markup ++ ending)

def wrap (markup : Text) : Text :=
  "export ephemeral A() \x7b".toList ++ ("\n  ".toList ++ call markup)

-- The brace after `before` is outside all groups, and what is before it could be the whole call.
structure EndsBody (markup before : Text) : Prop where
  isBrace : ∃ rest, markup = before ++ '}' :: rest
  isOutside : Markup.openGroups 0 before = 0
  isCall : ∃ argument ending, before = argument ++ ending ∧ Body.IsEnding ending

def argument? (markup brace : Text) : Option Text :=
  Body.argument? ((markup ++ ending).before brace)

section Wrap

variable {markup before rest : Text}

theorem extract_wrap (markup : Text) :
    Header.extract (wrap markup) = .ok ⟨.ephemeral, ['A'], [], 22⟩ := by
  have hcode : Code.isCodeAt (wrap markup) ((wrap markup).offset (wrap markup)) = true := by
    rw [Text.offset, Nat.sub_self]
    rfl
  have hdeclaration : Header.declaration? (wrap markup) = some (.ephemeral, ['A'],
      '(' :: ')' :: ' ' :: '{' :: ("\n  ".toList ++ call markup)) :=
    rfl
  have hgroup : Code.group? ('(' :: ')' :: ' ' :: '{' :: ("\n  ".toList ++ call markup)) =
      some ([], ' ' :: '{' :: ("\n  ".toList ++ call markup)) :=
    rfl
  have hskip : Text.skipSpace (' ' :: '{' :: ("\n  ".toList ++ call markup)) =
      '{' :: ("\n  ".toList ++ call markup) :=
    rfl
  have hoffset : (wrap markup).offset ("\n  ".toList ++ call markup) = 22 := Text.offset_append _ _
  have hhere : Header.here? (wrap markup) none (wrap markup) =
      some ⟨.ephemeral, ['A'], [], 22⟩ := by
    simp only [Header.here?, hdeclaration, startsWord, hcode, hgroup, hskip, hoffset,
      Option.bind_eq_bind, Option.bind_some]
    rfl
  rw [Header.extract, Header.find?, Header.go_eq_some hhere]

theorem split_wrap {argument : Text}
    (h : ((Markup.close? (fun brace => (argument? markup brace).isSome) 0 (markup ++ ending)).or
      (Body.lastBrace? (fun brace => (argument? markup brace).isSome) (markup ++ ending))).bind
        (argument? markup) = some argument) :
    Body.split (wrap markup) 22 = .ok ⟨[], argument.trim, 25⟩ := by
  have hstatements : (wrap markup).dropBytes 22 = "\n  ".toList ++ call markup :=
    Text.dropBytes_append _ _
  have hbefore : ((wrap markup).before ("\n  ".toList ++ call markup)).getLast? = some '{' := by
    unfold wrap
    rw [Text.before_append]
    decide
  have hscan : Body.scan (some '{') [] ("\n  ".toList ++ call markup) =
      .render (call markup) (markup ++ ending) :=
    rfl
  have hprelude : (Text.before ("\n  ".toList ++ call markup) (call markup)).trim = [] := by
    rw [Text.before_append]
    decide
  have hoffset : (wrap markup).offset (call markup) = 25 := by
    unfold wrap
    rw [← List.append_assoc, Text.offset_append, Text.size_append]
    decide
  unfold argument? at h
  simp only [Body.split, hstatements, hbefore, hscan, h, hprelude, hoffset]

theorem argument?_brace (h : markup = before ++ '}' :: rest) :
    argument? markup ('}' :: (rest ++ ending)) = Body.argument? before := by
  have hsplit : markup ++ ending = before ++ '}' :: (rest ++ ending) := by simp [h]
  rw [argument?, hsplit, Text.before_append]

theorem isOffered_iff : Markup.IsOffered (fun brace => (argument? markup brace).isSome) 0
    markup ending
    before ↔ EndsBody markup before := by
  constructor
  case mp =>
    intro ⟨rest, hm, hd, ha⟩
    have ⟨argument, hargument⟩ := Option.isSome_iff_exists.mp ha
    rw [argument?_brace hm, Body.argument?_eq_some_iff] at hargument
    exact ⟨⟨rest, hm⟩, hd, argument, hargument⟩
  case mpr =>
    intro ⟨⟨rest, hm⟩, hd, argument, hargument⟩
    refine ⟨rest, hm, hd, ?_⟩
    simp [argument?_brace hm, Body.argument?_eq_some_iff.mpr hargument]

theorem argument?_ending (markup : Text) : argument? markup ['}', '\n'] = some markup := by
  have hsplit : markup ++ ending = (markup ++ [')', ';', '\n']) ++ ['}', '\n'] := by simp [ending]
  have hcall : Body.IsEnding (')' :: ([] ++ [';'] ++ ['\n'])) :=
    .intro true (by simp) (by simp [isBlank])
  rw [argument?, hsplit, Text.before_append]
  exact Body.argument?_eq_some_iff.mpr ⟨_, rfl, hcall⟩

-- Where no brace of the markup ends the body, the last one of the component does: it closes the
-- body, or is found from the end if the markup has left groups open.
theorem close?_or_lastBrace? (depth : Nat) :
    (Markup.close? (fun brace => (argument? markup brace).isSome) depth ending).or
      (Body.lastBrace? (fun brace => (argument? markup brace).isSome) (markup ++ ending)) =
        some ['}', '\n'] := by
  have hlast : Body.lastBrace? (fun brace => (argument? markup brace).isSome) ending =
      some ['}', '\n'] := by
    simp [Body.lastBrace?, ending, argument?_ending]
  rw [Body.lastBrace?_append hlast, ending]
  cases depth
  case zero => simp [Markup.close?_cons, Markup.condition?, argument?_ending]
  case succ => simp [Markup.close?_cons, Markup.condition?, Markup.close?]

theorem exists_argument (hat : '@' ∉ markup) : ∃ argument,
    ((Markup.close? (fun brace => (argument? markup brace).isSome) 0 (markup ++ ending)).or
      (Body.lastBrace? (fun brace => (argument? markup brace).isSome) (markup ++ ending))).bind
        (argument? markup) = some argument ∧
    ((∀ before, ¬EndsBody markup before) → argument = markup) ∧
    ∀ before, EndsBody markup before → ∃ first e, first <+: before ∧ EndsBody markup first ∧
      first = argument ++ e ∧ Body.IsEnding e := by
  have hliteral := @Markup.close?_append_literal (fun brace => (argument? markup brace).isSome) 0
    markup ending hat
  rcases hliteral with ⟨first, rest, hm, hoffered, hfirst, hclose⟩ | ⟨hnone, hclose⟩
  case inl =>
    have hends := isOffered_iff.mp hoffered
    have ⟨argument, hargument⟩ := hends.isCall
    have ⟨e, he, hending⟩ := hargument
    refine ⟨argument, ?_, fun hnone => absurd hends (hnone first), fun before hb => ?_⟩
    · rw [hclose, Option.some_or, Option.bind_some, argument?_brace hm]
      exact Body.argument?_eq_some_iff.mpr hargument
    · exact ⟨first, e, hfirst before (isOffered_iff.mpr hb), hends, he, hending⟩
  case inr =>
    refine ⟨markup, ?_, fun _ => rfl, fun before hb => absurd (isOffered_iff.mpr hb) (hnone before)⟩
    rw [hclose, close?_or_lastBrace?, Option.bind_some, argument?_ending]

end Wrap

theorem read_eq_ok {source : Text} {header : Header} {body : Body} {m : Markup}
    (hh : Header.extract source = .ok header) (hb : Body.split source header.bodyStart = .ok body)
    (hm : Markup.parse body.argument.trimBlankLines = .ok m) :
    read source = .ok ⟨header, body, m⟩ := by
  simp [read, hh, hb, hm, bind, Except.bind]

theorem not_endsBody {markup : Text} (h : ∀ before ∈ markup.inits, before ++ ['}'] <+: markup →
      Markup.openGroups 0 before = 0 → Body.argument? before = none) :
    ∀ before, ¬EndsBody markup before := by
  intro before ⟨⟨rest, hm⟩, hd, argument, hcall⟩
  have hprefix : before <+: markup := ⟨_, hm.symm⟩
  have hbrace : before ++ ['}'] <+: markup := ⟨rest, (List.append_assoc ..).trans hm.symm⟩
  have hnone := h before ((List.mem_inits _ _).mpr hprefix) hbrace hd
  simp [Body.argument?_eq_some_iff.mpr hcall] at hnone

-- Braces of the markup are text up to the first that ends the body, and if there is none, all of
-- them.
theorem analyze_wrap (file : Text) {markup : Text} (hat : '@' ∉ markup) : ∃ argument,
    analyze file (wrap markup) = .ok ⟨⟨.ephemeral, ['A'], [], 22⟩, ⟨[], argument.trim, 25⟩,
      if argument.trim = [] then .empty else .text argument.trim .empty⟩ ∧
    ((∀ before, ¬EndsBody markup before) → argument = markup) ∧
    ∀ before, EndsBody markup before → ∃ first e, first <+: before ∧ EndsBody markup first ∧
      first = argument ++ e ∧ Body.IsEnding e := by
  have ⟨argument, hargument, hwhole, hcut⟩ := exists_argument hat
  have hsub : argument ⊆ markup := by
    by_cases hnone : ∀ before, ¬EndsBody markup before
    case pos => rw [hwhole hnone]; exact List.Subset.refl markup
    case neg =>
      have ⟨before, hb⟩ := not_forall_not.mp hnone
      have ⟨first, e, _, hends, he, _⟩ := hcut before hb
      have ⟨rest, hm⟩ := hends.isBrace
      rw [hm, he]
      simp
  have hmem : '@' ∉ argument.trim := fun h => hat (hsub (Text.mem_of_mem_trim h))
  have hparse : Markup.parse argument.trim.trimBlankLines =
      .ok (if argument.trim = [] then .empty else .text argument.trim .empty) := by
    rw [Text.trimBlankLines_trim, Markup.parse_literal hmem]
  refine ⟨argument, ?_, hwhole, hcut⟩
  rw [analyze, read_eq_ok (extract_wrap markup) (split_wrap hargument) hparse]
  rfl

theorem analyze_wrap_groups : ∃ markup, '@' ∉ markup ∧
    markup = "\x7d if (a) \x7b b(); \x7d Don't ( \x7d \x7b".toList ∧
    analyze "a.dribble".toList (wrap markup) =
      .ok ⟨⟨.ephemeral, ['A'], [], 22⟩, ⟨[], markup, 25⟩, .text markup .empty⟩ := by
  have hat : '@' ∉ "\x7d if (a) \x7b b(); \x7d Don't ( \x7d \x7b".toList := by decide
  have ⟨argument, hanalyze, hwhole, _⟩ := analyze_wrap "a.dribble".toList hat
  rw [hwhole (not_endsBody (by decide))] at hanalyze
  exact ⟨_, hat, rfl, hanalyze⟩

-- The brace after the parenthesis ends the body, and the rest of the markup is lost.
theorem analyze_wrap_cut : '@' ∉ "a)\x7d b".toList ∧
    Text.trim "a)\x7d b".toList = "a)\x7d b".toList ∧
    analyze "a.dribble".toList (wrap "a)\x7d b".toList) =
      .ok ⟨⟨.ephemeral, ['A'], [], 22⟩, ⟨[], ['a'], 25⟩, .text ['a'] .empty⟩ := by
  have hargument : argument? "a)\x7d b".toList ('}' :: (" b".toList ++ ending)) = some ['a'] := by
    decide
  have hclose : Markup.close? (fun brace => (argument? "a)\x7d b".toList brace).isSome) 0
      (['a', ')'] ++ '}' :: (" b".toList ++ ending)) = some ('}' :: (" b".toList ++ ending)) := by
    rw [Markup.close?_append_plain (by simp [Markup.isPlain])]
    exact Markup.close?_brace (congrArg Option.isSome hargument)
  have hsplit : Body.split (wrap "a)\x7d b".toList) 22 = .ok ⟨[], Text.trim ['a'], 25⟩ := by
    apply split_wrap
    have hmarkup : "a)\x7d b".toList ++ ending = ['a', ')'] ++ '}' :: (" b".toList ++ ending) := rfl
    rw [hmarkup, hclose, Option.some_or, Option.bind_some, hargument]
  have hparse : Markup.parse (Text.trimBlankLines (Text.trim ['a'])) = .ok (.text ['a'] .empty) :=
    Markup.parse_literal (by decide)
  refine ⟨by decide, by decide, ?_⟩
  rw [analyze, read_eq_ok (extract_wrap _) hsplit hparse]
  rfl

end Component
end Componentry
