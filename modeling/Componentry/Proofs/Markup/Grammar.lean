import Componentry.Proofs.Markup.Reading

/-!
The grammar of markup. Reading succeeds exactly on the texts that the grammar derives, and yields
the markup they are derived for, so that no character is lost, repeated or moved.
-/
namespace Componentry.Markup

open Code

mutual

inductive Yields : Markup → Text → Prop
  | empty : Yields .empty []
  -- All that is no name and no directive, as far as it goes.
  | text {content rest t} (hn : content ≠ []) (hi : isInert content)
    (hs : rest.startsWithText = false)
    (hr : Yields rest t) : Yields (.text content rest) (content ++ t)
  -- The longest identifier after an `@`.
  | name {identifier rest t} (hn : Identifier.IsName identifier)
    (hres : isReserved identifier = false)
    (hc : Identifier.continues t = false) (hr : Yields rest t) :
    Yields (.name identifier rest) ('@' :: (identifier ++ t))
  -- An `@else` after a conditional that could have one is part of it.
  | conditional {condition body alternate rest s t isOpen}
    (hc : YieldsConditional condition body alternate s isOpen) (he : isOpen → else? t = none)
    (hr : Yields rest t) : Yields (.conditional condition body alternate rest) (s ++ t)

-- A single conditional. It is open if it ends with a block that an `@else` may follow.
inductive YieldsConditional : Text → Markup → Markup → Text → Bool → Prop
  | intro {condition body alternate o t w isOpen} (ho : Opening condition o)
    (hb : braces 0 body.ownText = some 0) (hy : Yields body t)
    (he : YieldsElse alternate w isOpen) :
    YieldsConditional condition body alternate (o ++ (t ++ '}' :: w)) isOpen

inductive YieldsElse : Markup → Text → Bool → Prop
  | nothing : YieldsElse .empty [] true
  | block {alternate s t} (hs : Alternation s) (hb : braces 0 alternate.ownText = some 0)
    (hy : Yields alternate t) : YieldsElse alternate (s ++ '{' :: (t ++ ['}'])) false
  | conditional {condition body alternate s t isOpen} (hs : Alternation s)
    (hc : YieldsConditional condition body alternate t isOpen) :
    YieldsElse (.conditional condition body alternate .empty) (s ++ t) isOpen

end

section Stopping

variable {s t : Text}

theorem Yields.stops {m : Markup} (h : Yields m s) (hm : m.startsWithText = false) (ht : Stops t) :
    Stops (s ++ t) := by
  cases h
  case empty => exact ht
  case text => simp [startsWithText] at hm
  case name => simp [Stops]
  case conditional hc _ _ =>
    cases hc
    case intro ho _ _ _ =>
      obtain ⟨u, hu⟩ := ho.exists_cons
      simp [hu, Stops]

theorem continues_append (h : Identifier.continues s = false) (ht : Stops t) :
    Identifier.continues (s ++ t) = false := by
  cases s
  case nil => exact ht.continues
  case cons => exact h

theorem continues_of_append (h : Identifier.continues (s ++ t) = false) :
    Identifier.continues s = false := by
  cases s
  case nil => rfl
  case cons => exact h

theorem else?_of_append (h : else? (s ++ t) = none) (ht : Stops t) : else? s = none := by
  rw [Option.eq_none_iff_forall_ne_some] at h ⊢
  intro rest hs
  have ⟨before, he, hb, hc⟩ := else?_eq_some_iff.mp hs
  exact h (rest ++ t) (else?_eq_some_iff.mpr ⟨before, by simp [he], hb, continues_append hc ht⟩)

end Stopping

theorem not_continues_of_split {t identifier rest : Text}
    (h : Identifier.split t = (identifier, rest)) (hn : identifier ≠ []) :
    Identifier.continues rest = false := by
  cases t
  case nil => exact absurd (Prod.mk.inj h).left.symm hn
  case cons c t =>
    simp only [Identifier.split] at h
    split at h
    case isFalse => exact absurd (Prod.mk.inj h).left.symm hn
    case isTrue =>
      obtain ⟨_, hr⟩ := Prod.mk.inj h
      rw [Identifier.continues_eq_any, ← hr]
      exact Text.head?_dropWhile Identifier.isPart t

inductive Remainder (u : Text) : (isAlternate : Bool) → Markup → Text → Prop
  | alternate : Remainder u true .empty []
  | first {alternate w isOpen} (hy : YieldsElse alternate w isOpen) (ho : isOpen → else? u = none) :
    Remainder u false alternate w

-- A text that completes the blocks which are open, and what its parts make up: the rest of the
-- innermost block, its brace and what follows, then the same for the blocks around it.
inductive Completes : List Block → List Pending → Text → Prop
  | top {m t} (h : Yields m t) : Completes [] [⟨m, .empty⟩] t
  | block {block outer parts alternate pending t w u} (hy : Yields parts t)
    (hb : braces block.depth parts.ownText = some 0)
    (hr : Remainder u block.isAlternate alternate w) (ho : Completes outer pending u) :
    Completes (block :: outer) (⟨parts, alternate⟩ :: pending) (t ++ '}' :: (w ++ u))

namespace Completes

variable {blocks after : List Block} {pending : List Pending} {p : Pending} {s u x : Text}
  {m : Markup}

theorem exists_cons (h : Completes blocks pending u) : ∃ p outer, pending = p :: outer := by
  cases h <;> exact ⟨_, _, rfl⟩

-- More text in front of the innermost block: `x` of it is text of the block.
theorem prepend (h : Completes after (p :: pending) u) (hb : afterText blocks x = some after)
    (hx : m.ownText = x ++ p.parts.ownText)
    (hy : ∀ u₁ u₂, u = u₁ ++ u₂ → Stops u₂ → Yields p.parts u₁ → Yields m (s ++ u₁)) :
    Completes blocks ({ p with parts := m } :: pending) (s ++ u) := by
  cases h
  case top h =>
    cases blocks
    case nil => exact .top (hy u [] (by simp) (by simp [Stops]) h)
    case cons => simp [afterText] at hb
  case block block outer parts alternate t w u hparts hp hr ho =>
    cases blocks
    case nil => simp [afterText] at hb
    case cons inner outer =>
      simp only [afterText, Option.map_eq_some_iff, List.cons.injEq] at hb
      obtain ⟨depth, hdepth, rfl, rfl⟩ := hb
      have hm := hy t ('}' :: (w ++ u)) rfl (stops_brace _) hparts
      have hbraces : braces inner.depth m.ownText = some 0 := by
        rw [hx, braces_append, hdepth]
        exact hp
      rw [← List.append_assoc]
      exact .block hm hbraces hr ho

end Completes

section Text

variable {content t u : Text} {m : Markup}

theorem isInert_append_of_not_mem (h : '@' ∉ content) (ht : isInert t) :
    isInert (content ++ t) := by
  induction content
  case nil => exact ht
  case cons c content ih =>
    have ⟨hc, hrest⟩ := List.mem_cons.not.mp h |> not_or.mp
    simp [isInert, ih hrest, Ne.symm hc]

-- Text joins the text that follows it. Whether the two are inert together shows in what follows.
theorem Yields.prependText (hn : content ≠ [])
    (hi : ∀ more rest, t = more ++ rest → Stops (rest ++ u) → isInert more →
      isInert (content ++ more))
    (hu : Stops u) (h : Yields m t) : Yields (m.prependText content) (content ++ t) := by
  have happly {m : Markup} (hm : m.startsWithText = false) (h : Yields m t) :
      Yields (.text content m) (content ++ t) := by
    have hc := hi [] t rfl (h.stops hm hu) rfl
    rw [List.append_nil] at hc
    exact .text hn hc hm h
  cases h
  case text more rest t _ hmore hs hr =>
    rw [← List.append_assoc]
    exact .text (by simp [hn]) (hi more t rfl (hr.stops hs hu) hmore) hs hr
  case empty => exact happly rfl .empty
  case name hn hres hc hr => exact happly rfl (.name hn hres hc hr)
  case conditional hc he hr => exact happly rfl (.conditional hc he hr)

theorem ownText_prependText (content : Text) (m : Markup) :
    (m.prependText content).ownText = content ++ m.ownText := by
  cases m <;> simp [Markup.prependText, ownText]

end Text

theorem Step.afterText_eq {blocks after : List Block} {t rest content : Text}
    (h : Step blocks t (.text content) after rest) :
    t = content ++ rest ∧ content ≠ [] ∧ afterText blocks content = some after ∧
      (content = ['@'] ∧ isSign rest ∨ '@' ∉ content) := by
  cases h
  case sign hp hs =>
    have hafter : afterText blocks ['@'] = some blocks := by
      cases blocks <;> rfl
    exact ⟨rfl, by simp, hafter, .inl ⟨rfl, by simp [isSign, hp, hs]⟩⟩
  case outside hc => exact ⟨rfl, by simp, rfl, .inr (by rcases hc with rfl | rfl <;> decide)⟩
  case deeper => exact ⟨rfl, by simp, rfl, .inr (by decide)⟩
  case shallower hd =>
    refine ⟨rfl, by simp, ?_, .inr (by decide)⟩
    simp [afterText, braces, hd]
  case plain c t hc =>
    have hplain : ∀ d ∈ c :: t.takeWhile isPlain, isPlain d :=
      List.forall_mem_cons.mpr ⟨hc, fun d hd => List.mem_takeWhile_imp hd⟩
    refine ⟨by simp, by simp, afterText_plain hplain, .inr fun hat => ?_⟩
    exact absurd (hplain '@' hat) (by decide)

section Soundness

variable {blocks after : List Block} {pending : List Pending} {t rest : Text}

theorem Completes.text {content : Text} (hs : Step blocks t (.text content) after rest)
    (h : Completes after pending rest) : Completes blocks (addEvent (.text content) pending) t := by
  have ⟨ht, hn, hafter, hkind⟩ := hs.afterText_eq
  have ⟨p, outer, hp⟩ := h.exists_cons
  subst ht hp
  refine h.prepend hafter (ownText_prependText content p.parts) fun u₁ u₂ hu hstop hy => ?_
  refine hy.prependText hn (fun more others hm hother hinert => ?_) hstop
  rcases hkind with ⟨hat, hsign⟩ | hat
  case inr => exact isInert_append_of_not_mem hat hinert
  case inl =>
    rw [hu, hm, List.append_assoc, hother.isSign_append] at hsign
    simp [hat, isInert, hsign, hinert]

theorem Completes.name {identifier : Text} (hs : Step blocks t (.name identifier) after rest)
    (h : Completes after pending rest) :
    Completes blocks (addEvent (.name identifier) pending) t := by
  have ⟨p, outer, hp⟩ := h.exists_cons
  subst hp
  cases hs
  case name t hp hn hr hsplit =>
    have ht : identifier ++ rest = t := by
      have := Identifier.split_append t
      rwa [hsplit] at this
    have hname := Identifier.isName_split hsplit hn
    have hcontinues := not_continues_of_split hsplit hn
    have hblocks := afterText_nil blocks
    subst ht
    refine h.prepend (s := '@' :: identifier) hblocks rfl fun u₁ u₂ hu _ hy => ?_
    exact .name hname hr (continues_of_append (hu ▸ hcontinues)) hy

theorem Completes.opens {condition : Text} (hs : Step blocks t (.opens condition) after rest)
    (h : Completes after pending rest) :
    Completes blocks (addEvent (.opens condition) pending) t := by
  cases hs
  case opens hp he =>
    have ⟨hblock, o, ht, ho⟩ := Opening.of_enter hp he
    subst hblock
    rw [ht]
    cases h
    case block parts alternate pending t w u hy houter hb hr =>
      cases hr
      case first isOpen hopen helse =>
        have ⟨p, outer, hp⟩ := houter.exists_cons
        have hblocks := afterText_nil blocks
        subst hp
        have hcompletes := houter.prepend (m := .conditional condition parts alternate p.parts)
          (s := o ++ (t ++ '}' :: w)) hblocks rfl fun u₁ u₂ hu hstop hparts =>
            .conditional (.intro ho hb hy helse)
              (fun hi => else?_of_append (hu ▸ hopen hi) hstop) hparts
        simpa [addEvent] using hcompletes

theorem Completes.closes (hs : Step blocks t .closes after rest)
    (h : Completes after pending rest) :
    Completes blocks (addEvent .closes pending) t := by
  cases hs
  case closes block hd he =>
    have hr : Remainder rest block.isAlternate .empty [] := by
      cases ha : block.isAlternate
      case true => exact .alternate
      case false => exact .first .nothing fun _ => by simpa [ha] using he
    exact .block .empty (by simp [ownText, braces, hd]) hr h

theorem Completes.orElse (hs : Step blocks t .orElse after rest)
    (h : Completes after pending rest) :
    Completes blocks (addEvent .orElse pending) t := by
  cases hs
  case orElse block outer t after hd ha he hs =>
    have ⟨s, ht, halternation⟩ := Alternation.of_else? he hs
    rw [ht]
    cases h
    case block parts alternate pending t w u hy houter hb hr =>
      cases hr
      case alternate =>
        have helse := YieldsElse.block halternation hb hy
        have hr : Remainder u block.isAlternate parts (s ++ '{' :: (t ++ ['}'])) :=
          ha ▸ .first helse (by simp)
        have hblock : Completes (block :: outer) _ _ :=
          .block .empty (by simp [ownText, braces, hd]) hr houter
        simpa [addEvent] using hblock

theorem Completes.orElseIf {condition : Text} (hs : Step blocks t (.orElseIf condition) after rest)
    (h : Completes after pending rest) :
    Completes blocks (addEvent (.orElseIf condition) pending) t := by
  cases hs
  case orElseIf block outer t after paren next hd ha he hp hn =>
    have ⟨hnext, o, ho, hopening⟩ := Opening.of_enter hp hn
    have ⟨v, hv⟩ := hopening.exists_cons
    rw [hv, List.cons_append] at ho
    have ⟨s, ht, halternation⟩ := Alternation.of_else? he ho
    rw [← List.cons_append, ← hv] at ht
    rw [ht]
    subst hnext
    cases h
    case block parts alternate pending t w u hy houter hb hr =>
      cases hr
      case first isOpen hopen helse =>
        have hnested := YieldsElse.conditional halternation (.intro hopening hb hy helse)
        have hr : Remainder u block.isAlternate (.conditional condition parts alternate .empty)
            (s ++ (o ++ (t ++ '}' :: w))) :=
          ha ▸ .first hnested hopen
        have hblock : Completes (block :: outer) _ _ :=
          .block .empty (by simp [ownText, braces, hd]) hr houter
        simpa [addEvent] using hblock

theorem Step.completes {event : Event} (hs : Step blocks t event after rest)
    (h : Completes after pending rest) : Completes blocks (addEvent event pending) t := by
  cases event
  case text => exact h.text hs
  case name => exact h.name hs
  case opens => exact h.opens hs
  case orElseIf => exact h.orElseIf hs
  case orElse => exact h.orElse hs
  case closes => exact h.closes hs

theorem Run.completes {es : List Event} (h : Run blocks t es) :
    Completes blocks (es.foldr addEvent [⟨.empty, .empty⟩]) t := by
  induction h
  case done => exact .top .empty
  case step hs _ ih => exact hs.completes ih

theorem yields_of_parse {m : Markup} (h : parse t = .ok m) : Yields m t := by
  have ⟨es, hr, hm⟩ := parse_eq_ok_iff.mp h
  have hc := hr.completes
  generalize hp : es.foldr addEvent [⟨.empty, .empty⟩] = pending at hc
  cases hc
  case top m' hy =>
    rw [ofEvents, hp] at hm
    exact hm ▸ hy

end Soundness

def Ends (t : Text) : Prop :=
  ∀ c ∈ t.head?, c = '}'

namespace Ends

variable {s t : Text}

theorem stops (h : Ends t) : Stops t :=
  fun c hc => .inr (h c hc)

theorem brace (t : Text) : Ends ('}' :: t) := by
  simp [Ends]

theorem else?_append (h : Ends t) (hs : else? s = none) : else? (s ++ t) = none := by
  rw [Option.eq_none_iff_forall_ne_some] at hs ⊢
  intro rest he
  have ⟨before, hst, hb, hc⟩ := else?_eq_some_iff.mp he
  rw [← List.append_assoc] at hst
  rcases List.append_eq_append_iff.mp hst with ⟨cut, hcut, ht⟩ | ⟨more, hmore, hrest⟩
  case inr =>
    rw [hrest] at hc
    exact hs more (else?_eq_some_iff.mpr ⟨before, by simp [hmore], hb, continues_of_append hc⟩)
  case inl =>
    cases cut
    case nil => exact hs [] (else?_eq_some_iff.mpr ⟨before, by simpa using hcut.symm, hb, rfl⟩)
    case cons d cut =>
      have hd : d = '}' := h d (by simp [ht])
      have hmem : '}' ∈ before ++ "@else".toList := by
        rw [hcut, hd]
        simp
      have hspace : '}' ∉ before := fun hm => absurd (hb _ hm) (by decide)
      simp [hspace] at hmem

end Ends

mutual

theorem Yields.readsAs {m : Markup} {t : Text} (u : Text) (hu : Ends u) :
    Yields m t → ReadsAs m t u
  | .empty => .empty u
  | .text hn hi hs hr => .text hn hi hs (hr.stops hs hu.stops) (hr.readsAs u hu)
  | .name hn hres hc hr => .name hn hres (continues_append hc hu.stops) (hr.readsAs u hu)
  | .conditional hc he hr => by
    have ⟨o, v, w, hs, ho, hb, hbody, hend⟩ := hc.endsWith _ fun h => hu.else?_append (he h)
    subst hs
    exact .conditional ho hb hbody hend (hr.readsAs u hu)

theorem YieldsConditional.endsWith {condition t : Text} {body alternate : Markup} {isOpen : Bool}
    (u : Text) (hu : isOpen → else? u = none) :
    YieldsConditional condition body alternate t isOpen →
      ∃ o v w, t = o ++ (v ++ '}' :: w) ∧ Opening condition o ∧ braces 0 body.ownText = some 0 ∧
        ReadsAs body v ('}' :: (w ++ u)) ∧ EndsWith alternate w u
  | .intro ho hb hy he => ⟨_, _, _, rfl, ho, hb, hy.readsAs _ (.brace _), he.endsWith u hu⟩

theorem YieldsElse.endsWith {alternate : Markup} {t : Text} {isOpen : Bool} (u : Text)
    (hu : isOpen → else? u = none) : YieldsElse alternate t isOpen → EndsWith alternate t u
  | .nothing => .nothing (hu rfl)
  | .block hs hb hy => .block hs hb (hy.readsAs _ (.brace _))
  | .conditional hs hc => by
    have ⟨o, v, w, ht, ho, hb, hbody, hend⟩ := hc.endsWith u hu
    subst ht
    exact .conditional hs ho hb hbody hend

end

theorem Yields.parse_eq {m : Markup} {t : Text} (h : Yields m t) : parse t = .ok m := by
  have ⟨pieces, hrun, hfold⟩ := h.readsAs [] (by simp [Ends]) [] [] [] rfl .done
  rw [List.append_nil, List.append_nil] at hrun
  refine parse_eq_ok_iff.mpr ⟨pieces, hrun, ?_⟩
  rw [ofEvents, hfold]

-- A text is read as markup if and only if the grammar derives it for that markup.
theorem parse_eq_ok_iff_yields {s : Text} {m : Markup} : parse s = .ok m ↔ Yields m s :=
  ⟨yields_of_parse, Yields.parse_eq⟩

end Componentry.Markup
