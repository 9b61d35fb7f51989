import Componentry.Proofs.Markup.Directive
import Componentry.Proofs.Markup.Spelling

/-!
How the parts of markup are read. Texts that hold no name and no directive are read as text, braces
are counted for the block in which they stand, and each part is read by itself in front of what
follows it.
-/
namespace Componentry.Markup

open Code

-- Whether an `@` before a text is text itself: the longest identifier there is no name to insert,
-- and no directive starts.
def isSign (t : Text) : Bool :=
  ((Identifier.split t).1 = [] || isReserved (Identifier.split t).1) &&
    (condition? ('@' :: t)).isNone

def isInert : Text → Bool
  | [] => true
  | c :: t => (c ≠ '@' || isSign t) && isInert t

def braces (depth : Nat) : Text → Option Nat
  | [] => some depth
  | c :: t =>
    if c = '{' then braces (depth + 1) t
    else if c = '}' then if depth = 0 then none else braces (depth - 1) t
    else braces depth t

def ownText : Markup → Text
  | .empty => []
  | .text content rest => content ++ ownText rest
  | .name _ rest => ownText rest
  | .conditional _ _ _ rest => ownText rest

-- What can follow a text: the end, another part, or the end of the block.
def Stops (t : Text) : Prop :=
  ∀ c ∈ t.head?, c = '@' ∨ c = '}'

namespace Stops

variable {t : Text}

theorem continues (h : Stops t) : Identifier.continues t = false := by
  cases t
  case nil => rfl
  case cons c t => rcases h c rfl with rfl | rfl <;> rfl

theorem any_isPlain (h : Stops t) : t.head?.any isPlain = false := by
  cases t
  case nil => rfl
  case cons c t => rcases h c rfl with rfl | rfl <;> rfl

theorem condition?_append (h : Stops t) (s : Text) :
    condition? ('@' :: (s ++ t)) = (condition? ('@' :: s)).map (· ++ t) := by
  rw [← List.cons_append]
  apply Markup.condition?_append
  intro space d cut rest hs he ht
  have hd := h d (by simp [ht])
  have hmem : d ∈ 'i' :: 'f' :: (space ++ ['(']) := by
    rw [(List.cons.inj he).right]
    simp
  have hspace : d ∉ space := by
    intro hm
    have := hs d hm
    rcases hd with rfl | rfl <;> simp [isSpace] at this
  rcases hd with rfl | rfl <;> simp [hspace] at hmem

theorem isSign_append (h : Stops t) (s : Text) : isSign (s ++ t) = isSign s := by
  rw [isSign, isSign, Identifier.split_append_stop h.continues, h.condition?_append,
    Option.isNone_map]

end Stops

def afterText : List Block → Text → Option (List Block)
  | [], _ => some []
  | block :: outer, t => (braces block.depth t).map fun depth => { block with depth } :: outer

section AfterText

variable {blocks : List Block} {s t : Text}

theorem braces_append (depth : Nat) (s t : Text) :
    braces depth (s ++ t) = (braces depth s).bind fun depth => braces depth t := by
  fun_induction braces depth s
  case case1 => rfl
  case case2 ih => simpa [braces] using ih
  case case3 => simp [braces]
  case case4 hd _ ih => simpa [braces, hd] using ih
  case case5 ho hc ih => simpa [braces, ho, hc] using ih

theorem afterText_append (blocks : List Block) (s t : Text) :
    afterText blocks (s ++ t) = (afterText blocks s).bind fun blocks => afterText blocks t := by
  cases blocks
  case nil => rfl
  case cons block outer =>
    simp only [afterText, braces_append, Option.map_bind, Option.bind_map]
    rfl

theorem afterText_nil (blocks : List Block) : afterText blocks [] = some blocks := by
  cases blocks <;> rfl

theorem braces_plain (depth : Nat) (h : ∀ c ∈ s, isPlain c) : braces depth s = some depth := by
  induction s
  case nil => rfl
  case cons c s ih =>
    have ⟨hc, hs⟩ := List.forall_mem_cons.mp h
    simp only [isPlain, Bool.and_eq_true, decide_eq_true_eq] at hc
    simp [braces, hc, ih hs]

theorem afterText_plain (h : ∀ c ∈ s, isPlain c) : afterText blocks s = some blocks := by
  cases blocks
  case nil => rfl
  case cons block outer => simp [afterText, braces_plain block.depth h]

theorem afterText_balanced {t : Text} (h : braces 0 t = some 0) (start : Text) (isAlternate : Bool)
    (outer : List Block) : afterText (⟨start, isAlternate, 0⟩ :: outer) t =
      some (⟨start, isAlternate, 0⟩ :: outer) := by
  simp [afterText, h]

end AfterText

-- The step at the start of an inert text, whatever part or end follows the text.
theorem exists_step_inert {blocks after : List Block} {c : Char} {s t : Text} (ht : Stops t)
    (hs : isInert (c :: s)) (hb : afterText blocks (c :: s) = some after) :
    ∃ u v middle, c :: s = u ++ v ∧ u ≠ [] ∧ afterText middle v = some after ∧
      Step blocks (c :: (s ++ t)) (.text u) middle (v ++ t) := by
  simp only [isInert, Bool.and_eq_true, Bool.or_eq_true, decide_eq_true_eq] at hs
  have hsingle : c :: s = [c] ++ s := rfl
  by_cases hsign : c = '@'
  case pos =>
    subst hsign
    have hat : isSign s := by simpa using hs.left
    have hnone : isSign (s ++ t) := ht.isSign_append s ▸ hat
    simp only [isSign, Bool.and_eq_true, Option.isNone_iff_eq_none, Bool.or_eq_true,
      decide_eq_true_eq] at hnone
    have hplain : afterText blocks ['@'] = some blocks := by
      cases blocks <;> rfl
    rw [hsingle, afterText_append, hplain] at hb
    exact ⟨['@'], s, blocks, rfl, by simp, hb, .sign hnone.right hnone.left⟩
  by_cases hbrace : c = '{' ∨ c = '}'
  case pos =>
    cases blocks
    case nil => exact ⟨[c], s, [], rfl, by simp, hb, .outside hbrace⟩
    case cons block outer =>
      rcases hbrace with rfl | rfl
      case inl => exact ⟨['{'], s, _, rfl, by simp, hb, .deeper⟩
      case inr =>
        have hd : block.depth ≠ 0 := by
          intro hd
          simp [afterText, braces, hd] at hb
        have hrest : afterText ({ block with depth := block.depth - 1 } :: outer) s =
          some after := by
          simpa [afterText, braces, hd] using hb
        exact ⟨['}'], s, _, rfl, by simp, hrest, .shallower hd⟩
  case neg =>
    have hc : isPlain c := by simpa [isPlain, hsign] using hbrace
    have hsplit : c :: s = c :: s.takeWhile isPlain ++ s.dropWhile isPlain := by
      rw [List.cons_append, List.takeWhile_append_dropWhile]
    have hplain : ∀ d ∈ c :: s.takeWhile isPlain, isPlain d :=
      List.forall_mem_cons.mpr ⟨hc, fun d hd => List.mem_takeWhile_imp hd⟩
    have hstep : Step blocks (c :: (s ++ t)) _ blocks _ := .plain hc
    rw [Text.takeWhile_append_stop ht.any_isPlain, Text.dropWhile_append_stop ht.any_isPlain]
      at hstep
    rw [hsplit, afterText_append, afterText_plain hplain] at hb
    exact ⟨_, _, blocks, hsplit, by simp, hb, hstep⟩

theorem isInert_append {s t : Text} (h : isInert (s ++ t)) : isInert t := by
  induction s
  case nil => exact h
  case cons c s ih =>
    rw [List.cons_append, isInert, Bool.and_eq_true] at h
    exact ih h.right

def withText (t : Text) (m : Markup) : Markup :=
  if t = [] then m else m.prependText t

theorem prependText_withText {s : Text} (hs : s ≠ []) (t : Text) (m : Markup) :
    (m.withText t).prependText s = m.withText (s ++ t) := by
  by_cases ht : t = []
  case pos => simp [withText, ht, hs]
  case neg =>
    have hjoin : (m.prependText t).prependText s = m.prependText (s ++ t) := by
      cases m <;> simp [prependText]
    simp [withText, ht, hjoin]

theorem exists_run_inert {blocks after : List Block} {s t : Text} {es : List Event} (ht : Stops t)
    (hs : isInert s) (hb : afterText blocks s = some after) (hr : Run after t es) :
    ∃ pieces, Run blocks (s ++ t) (pieces ++ es) ∧ ∀ block outer,
      pieces.foldr addEvent (block :: outer) =
        { block with parts := block.parts.withText s } :: outer := by
  induction hn : s.length using Nat.strongRecOn generalizing s blocks
  case ind n ih =>
  cases s
  case nil =>
    rw [afterText_nil] at hb
    cases hb
    exact ⟨[], hr, fun _ _ => rfl⟩
  case cons c s =>
    have ⟨u, v, middle, hsplit, hu, hv, hstep⟩ := exists_step_inert ht hs hb
    have hlen : v.length < n := by
      have := List.length_pos_iff.mpr hu
      rw [← hn, hsplit, List.length_append]
      omega
    have ⟨pieces, hrun, hfold⟩ := ih v.length hlen (isInert_append (hsplit ▸ hs)) hv rfl
    refine ⟨.text u :: pieces, .step hstep hrun, fun block outer => ?_⟩
    rw [List.foldr_cons, hfold, addEvent, hsplit, prependText_withText hu]

theorem withText_of_startsWithText {t : Text} {m : Markup} (ht : t ≠ [])
    (hm : m.startsWithText = false) : m.withText t = .text t m := by
  rw [withText, if_neg ht]
  cases m
  case text => simp [startsWithText] at hm
  all_goals rfl

theorem condition?_name {identifier t : Text} (hn : Identifier.IsName identifier)
    (hr : isReserved identifier = false) (ht : Identifier.continues t = false) :
    condition? ('@' :: (identifier ++ t)) = none := by
  rw [Option.eq_none_iff_forall_ne_some]
  intro paren h
  have ⟨space, rest, he, hs, _⟩ := condition?_eq_some_iff.mp h
  have hif : Identifier.IsName ['i', 'f'] := by decide
  have hsplit : Identifier.split (['i', 'f'] ++ (space ++ '(' :: rest)) =
      (['i', 'f'], space ++ '(' :: rest) :=
    hif.split_append (continues_space_append hs rfl)
  have hname := hn.split_append ht
  have he' : identifier ++ t = ['i', 'f'] ++ (space ++ '(' :: rest) := (List.cons.inj he).right
  rw [he', hsplit] at hname
  have hid := (Prod.mk.inj hname).left
  rw [← hid] at hr
  exact absurd hr (by decide)

theorem stops_brace (t : Text) : Stops ('}' :: t) := by
  simp [Stops]

-- `@if`, space, a condition in parentheses, space and the brace of a block. The condition ends at
-- the closer that balances its parenthesis, whatever follows, and is trimmed.
inductive Opening (condition : Text) : Text → Prop
  | intro {space raw after : Text} {closer : Char} (hs : ∀ c ∈ space, isSpace c)
    (hd : ∀ rest, closer? ('(' :: (raw ++ closer :: rest)) 0 = some (raw.size + 1))
    (ht : raw.trim = condition) (hn : condition ≠ []) (ha : ∀ c ∈ after, isSpace c) :
    Opening condition ("@if".toList ++ (space ++ '(' :: (raw ++ closer :: (after ++ ['{']))))

namespace Opening

variable {condition : Text}

theorem exists_paren {o : Text} (h : Opening condition o) (inside : Text) :
    ∃ paren, condition? (o ++ inside) = some paren ∧
      enter paren = .ok (condition, ⟨'{' :: inside, false, 0⟩, inside) := by
  have ⟨hs, hd, ht, hn, ha⟩ := h
  rename_i space raw after closer
  have hg := group?_of_closer? (hd (after ++ '{' :: inside))
  have hskip : Text.skipSpace (after ++ '{' :: inside) = '{' :: inside :=
    Text.skipSpace_append ha rfl
  refine ⟨'(' :: (raw ++ closer :: (after ++ '{' :: inside)), ?_, ?_⟩
  · exact condition?_eq_some_iff.mpr ⟨space, _, by simp, hs, rfl⟩
  · exact enter_eq_ok_iff.mpr ⟨raw, _, hg, ht ▸ hn, hskip, ht.symm, rfl⟩

theorem exists_cons {o : Text} (h : Opening condition o) : ∃ t, o = '@' :: t := by
  cases h
  exact ⟨_, rfl⟩

theorem step {o : Text} (h : Opening condition o) (blocks : List Block) (inside : Text) :
    Step blocks (o ++ inside) (.opens condition) (⟨'{' :: inside, false, 0⟩ :: blocks) inside := by
  have ⟨paren, hp, he⟩ := h.exists_paren inside
  have ⟨t, ht⟩ := h.exists_cons
  rw [ht] at hp ⊢
  exact .opens hp he

theorem of_enter {t paren inside : Text} {block : Block} (hp : condition? t = some paren)
    (he : enter paren = .ok (condition, block, inside)) :
    block = ⟨'{' :: inside, false, 0⟩ ∧ ∃ o, t = o ++ inside ∧ Opening condition o := by
  have ⟨space, inner, ht, hs, hparen⟩ := condition?_eq_some_iff.mp hp
  have ⟨raw, rest, hg, hn, hskip, hc, hb⟩ := enter_eq_ok_iff.mp he
  subst hparen
  have ⟨closer, hinner, hclose⟩ := exists_closer hg
  have ⟨after, hrest, ha⟩ := rest.exists_skipSpace
  refine ⟨hb, _, ?_, .intro hs hclose hc.symm (hc ▸ hn) ha⟩
  rw [ht, hinner, hrest, hskip]
  simp

end Opening

inductive Alternation : Text → Prop
  | intro {before after : Text} (hb : ∀ c ∈ before, isSpace c) (ha : ∀ c ∈ after, isSpace c) :
    Alternation (before ++ ("@else".toList ++ after))

theorem else?_eq_some_iff {t rest : Text} : else? t = some rest ↔
    ∃ before, t = before ++ ("@else".toList ++ rest) ∧ (∀ c ∈ before, isSpace c) ∧
      Identifier.continues rest = false := by
  constructor
  case mp =>
    intro h
    simp only [else?, Option.bind_eq_bind, Option.bind_eq_some_iff] at h
    obtain ⟨u, hu, h⟩ := h
    have hword := Text.stripStart?_eq_some_iff.mp hu
    split at h
    case isTrue => simp at h
    case isFalse hc =>
      cases h
      obtain ⟨before, ht, hb⟩ := t.exists_skipSpace
      exact ⟨before, hword ▸ ht, hb, by simpa using hc⟩
  case mpr =>
    rintro ⟨before, ht, hb, hc⟩
    have hskip : t.skipSpace = "@else".toList ++ rest := ht ▸ Text.skipSpace_append hb rfl
    rw [else?, hskip, Text.stripStart?_append]
    simp [hc]

theorem Alternation.else?_append {s : Text} (h : Alternation s) {c : Char} (hc : c = '{' ∨ c = '@')
    (t : Text) : ∃ rest, else? (s ++ c :: t) = some rest ∧ rest.skipSpace = c :: t := by
  have ⟨hb, ha⟩ := h
  rename_i before after
  have hstop : Identifier.isPart c = false ∧ isSpace c = false := by
    rcases hc with rfl | rfl <;> decide
  refine ⟨after ++ c :: t, else?_eq_some_iff.mpr ⟨before, by simp, hb, ?_⟩, ?_⟩
  · exact continues_space_append ha hstop.left
  · exact Text.skipSpace_append ha (by simpa using hstop.right)

theorem Alternation.of_else? {t rest : Text} {c : Char} {u : Text} (he : else? t = some rest)
    (hs : rest.skipSpace = c :: u) : ∃ s, t = s ++ c :: u ∧ Alternation s := by
  have ⟨before, ht, hb, _⟩ := else?_eq_some_iff.mp he
  have ⟨after, hrest, ha⟩ := rest.exists_skipSpace
  refine ⟨_, ?_, .intro hb ha⟩
  rw [ht, List.append_assoc, List.append_assoc, ← hs, ← hrest]

-- A text that is read as events which make up the markup, in front of the text `u`. The braces of
-- the markup's own text are all that it does to the blocks around it.
def ReadsAs (m : Markup) (t u : Text) : Prop :=
  ∀ blocks after es, afterText blocks m.ownText = some after → Run after u es →
    ∃ pieces, Run blocks (t ++ u) (pieces ++ es) ∧ ∀ alternate outer,
      pieces.foldr addEvent (⟨.empty, alternate⟩ :: outer) = ⟨m, alternate⟩ :: outer

-- The same of the end of a block whose conditional goes on with `t`, in front of the text `u`.
def EndsWith (alternate : Markup) (t u : Text) : Prop :=
  ∀ start blocks es, Run blocks u es →
    ∃ pieces, Run (⟨start, false, 0⟩ :: blocks) ('}' :: (t ++ u)) (pieces ++ es) ∧ ∀ outer,
      pieces.foldr addEvent outer = ⟨.empty, alternate⟩ :: outer

namespace ReadsAs

variable {rest : Markup} {t u : Text}

theorem empty (u : Text) : ReadsAs .empty [] u := by
  intro blocks after es hb hr
  rw [ownText, afterText_nil] at hb
  cases hb
  exact ⟨[], hr, fun _ _ => rfl⟩

theorem text {content : Text} (hn : content ≠ []) (hi : isInert content)
    (hs : rest.startsWithText = false) (ht : Stops (t ++ u)) (h : ReadsAs rest t u) :
    ReadsAs (.text content rest) (content ++ t) u := by
  intro blocks after es hb hr
  rw [ownText, afterText_append] at hb
  have ⟨middle, hcontent, hown⟩ := Option.bind_eq_some_iff.mp hb
  have ⟨later, hlater, hfold⟩ := h middle after es hown hr
  have ⟨pieces, hpieces, htext⟩ := exists_run_inert ht hi hcontent hlater
  refine ⟨pieces ++ later, ?_, fun outside outer => ?_⟩
  · rwa [List.append_assoc, List.append_assoc]
  · rw [List.foldr_append, hfold, htext, withText_of_startsWithText hn hs]

theorem name {identifier : Text} (hn : Identifier.IsName identifier)
    (hres : isReserved identifier = false) (hc : Identifier.continues (t ++ u) = false)
    (h : ReadsAs rest t u) : ReadsAs (.name identifier rest) ('@' :: (identifier ++ t)) u := by
  intro blocks after es hb hr
  have ⟨later, hlater, hfold⟩ := h blocks after es hb hr
  have hstep : Step blocks ('@' :: (identifier ++ (t ++ u))) (.name identifier) blocks (t ++ u) :=
    .name (condition?_name hn hres hc) (hn.split_append hc) hn.left hres
  refine ⟨.name identifier :: later, ?_, fun outside outer => ?_⟩
  · rw [List.cons_append, List.append_assoc]
    exact .step hstep hlater
  · rw [List.foldr_cons, hfold]
    rfl

theorem block {body alternate : Markup} {v w : Text} (hbb : braces 0 body.ownText = some 0)
    (hbody : ReadsAs body v ('}' :: (w ++ u))) (hend : EndsWith alternate w u) (start : Text)
    {blocks : List Block} {es : List Event} (hr : Run blocks u es) :
    ∃ pieces, Run (⟨start, false, 0⟩ :: blocks) (v ++ '}' :: (w ++ u)) (pieces ++ es) ∧
      ∀ outer, pieces.foldr addEvent outer = ⟨body, alternate⟩ :: outer := by
  have ⟨ending, hending, hfolde⟩ := hend start blocks es hr
  have ⟨inside, hinside, hfoldi⟩ := hbody _ _ _ (afterText_balanced hbb start false blocks) hending
  refine ⟨inside ++ ending, ?_, fun outer => ?_⟩
  · rwa [List.append_assoc]
  · rw [List.foldr_append, hfolde, hfoldi]

theorem conditional {condition o v w : Text} {body alternate : Markup} (ho : Opening condition o)
    (hbb : braces 0 body.ownText = some 0) (hbody : ReadsAs body v ('}' :: (w ++ (t ++ u))))
    (hend : EndsWith alternate w (t ++ u)) (h : ReadsAs rest t u) :
    ReadsAs (.conditional condition body alternate rest) (o ++ (v ++ '}' :: w) ++ t) u := by
  intro blocks after es hb hr
  have ⟨later, hlater, hfoldl⟩ := h blocks after es hb hr
  have hopens := ho.step blocks (v ++ '}' :: (w ++ (t ++ u)))
  have ⟨pieces, hpieces, hfold⟩ :=
    block hbb hbody hend ('{' :: (v ++ '}' :: (w ++ (t ++ u)))) hlater
  refine ⟨.opens condition :: (pieces ++ later), ?_, fun outside outer => ?_⟩
  · simp only [List.append_assoc, List.cons_append]
    exact .step hopens hpieces
  · rw [List.foldr_cons, List.foldr_append, hfoldl, hfold]
    rfl

end ReadsAs

namespace EndsWith

variable {u : Text}

theorem nothing (h : else? u = none) : EndsWith .empty [] u := by
  intro start blocks es hr
  exact ⟨[.closes], .step (.closes rfl (.inr h)) hr, fun _ => rfl⟩

theorem block {alternate : Markup} {s t : Text} (hs : Alternation s)
    (hb : braces 0 alternate.ownText = some 0) (h : ReadsAs alternate t ('}' :: u)) :
    EndsWith alternate (s ++ '{' :: (t ++ ['}'])) u := by
  intro start blocks es hr
  have hcloses : Step (⟨'{' :: (t ++ '}' :: u), true, 0⟩ :: blocks) ('}' :: u) .closes blocks u :=
    .closes rfl (.inl rfl)
  have ⟨inside, hinside, hfold⟩ := h _ _ _ (afterText_balanced hb _ true blocks) (.step hcloses hr)
  have ⟨rest, helse, hskip⟩ := hs.else?_append (.inl rfl) (t ++ '}' :: u)
  refine ⟨.orElse :: (inside ++ [.closes]), ?_, fun outer => ?_⟩
  · simp only [List.append_assoc, List.cons_append, List.nil_append]
    exact .step (.orElse rfl rfl helse hskip) hinside
  · rw [List.foldr_cons, List.foldr_append, List.foldr_cons, List.foldr_nil, addEvent, hfold]
    rfl

theorem conditional {condition o s v w : Text} {body alternate : Markup} (hs : Alternation s)
    (ho : Opening condition o) (hbb : braces 0 body.ownText = some 0)
    (hbody : ReadsAs body v ('}' :: (w ++ u))) (hend : EndsWith alternate w u) :
    EndsWith (.conditional condition body alternate .empty) (s ++ (o ++ (v ++ '}' :: w))) u := by
  intro start blocks es hr
  have ⟨paren, hp, he⟩ := ho.exists_paren (v ++ '}' :: (w ++ u))
  have ⟨pieces, hpieces, hfold⟩ := ReadsAs.block hbb hbody hend ('{' :: (v ++ '}' :: (w ++ u))) hr
  have ⟨after, hat⟩ := ho.exists_cons
  have ⟨rest, helse, hskip⟩ := hs.else?_append (.inr rfl) (after ++ (v ++ '}' :: (w ++ u)))
  rw [← List.cons_append, ← hat] at helse hskip
  refine ⟨.orElseIf condition :: pieces, ?_, fun outer => ?_⟩
  · simp only [List.append_assoc, List.cons_append]
    exact .step (.orElseIf rfl rfl helse (hskip ▸ hp) he) hpieces
  · rw [List.foldr_cons, hfold]
    rfl

end EndsWith

end Componentry.Markup
