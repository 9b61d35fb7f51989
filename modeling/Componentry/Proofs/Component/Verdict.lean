import Componentry.Proofs.Code.Outside
import Componentry.Proofs.Component.Opening
import Componentry.Proofs.Component.StrayBraces
import Mathlib

/-!
What becomes of the body of a component. Reading its statements stops at the first call of `render`
or closing brace that is outside all brackets and literals. The body is split if some brace after
the call can end it, however that brace is looked for, and what is wrong with any other body is told
by what was found.
-/
namespace Componentry

open Code Context

namespace Body

-- A call outside all brackets and literals, by what is before it and what follows its parenthesis.
structure IsCall (previous : Option Char) (depth : Nat) (t prelude space inside : Text) : Prop where
  outside : Outside depth t prelude ("render".toList ++ (space ++ '(' :: inside)) 0
  isSpace : ∀ c ∈ space, isSpace c
  alone : joinsWord (prelude.getLast?.or previous) = false

def IsClose (depth : Nat) (t before : Text) : Prop :=
  ∃ rest, Outside depth t before ('}' :: rest) 0

def IsStop (previous : Option Char) (depth : Nat) (t before : Text) : Prop :=
  IsClose depth t before ∨ ∃ space inside, IsCall previous depth t before space inside

-- The first call or closing brace is where the reading stops.
inductive Finds (previous : Option Char) (depth : Nat) (t : Text) : Stop → Prop
  | nothing (hn : ∀ before, ¬IsStop previous depth t before) : Finds previous depth t .unterminated
  | brace {before rest} (hb : Outside depth t before ('}' :: rest) 0)
    (hf : ∀ other, IsStop previous depth t other → before <+: other) :
    Finds previous depth t (.closed ('}' :: rest))
  | call {before space inside} (hc : IsCall previous depth t before space inside)
    (hf : ∀ other, IsStop previous depth t other → before <+: other) :
    Finds previous depth t (.render ("render".toList ++ (space ++ '(' :: inside)) inside)

section Scan

variable {previous : Option Char} {within outer : List Context} {depth : Nat} {c : Char}
variable {t inside rest : Text}

theorem renderCall?_eq_some_iff : renderCall? t = some inside ↔
    ∃ space, t = "render".toList ++ (space ++ '(' :: inside) ∧ ∀ c ∈ space, isSpace c := by
  constructor
  case mp =>
    intro h
    unfold renderCall? at h
    obtain ⟨rest, hrest, h⟩ := Option.bind_eq_some_iff.mp h
    split at h
    case isTrue => simp at h
    case isFalse =>
      split at h
      case h_2 => simp at h
      case h_1 inside' hskip =>
        cases h
        obtain ⟨space, hs, hspace⟩ := Text.exists_skipSpace rest
        rw [hskip] at hs
        exact ⟨space, by rw [Text.stripStart?_eq_some_iff.mp hrest, hs], hspace⟩
  case mpr =>
    rintro ⟨space, rfl, hs⟩
    exact renderCall?_render hs inside

theorem renderCall?_eq_none (hc : c ≠ 'r') : renderCall? (c :: t) = none := by
  rw [Option.eq_none_iff_forall_ne_some]
  intro inside h
  obtain ⟨space, he, _⟩ := renderCall?_eq_some_iff.mp h
  exact hc (List.cons.inj he).left

theorem scan_of_not_atTop (h : ¬AtTop within) :
    scan previous within (c :: t) = scan (some c) (after within c) t := by
  rw [scan, if_neg (by simpa [AtTop] using h)]

theorem scan_of_ne (hc : c ≠ '}') (hr : c ≠ 'r') :
    scan previous within (c :: t) = scan (some c) (after within c) t := by
  rw [scan, if_neg hc, renderCall?_eq_none hr, ite_self]

theorem getLast?_append_or (s : Text) (previous : Option Char) (hs : s ≠ []) :
    (s ++ t).getLast?.or previous = t.getLast?.or s.getLast? := by
  rw [List.getLast?_append, List.getLast?_eq_some_getLast hs]
  cases t.getLast? <;> rfl

theorem not_atTop (h : SelfContained within) (hn : within ≠ []) (outer : List Context) :
    ¬AtTop (within ++ outer) := by
  rintro (he | he)
  · simp [hn] at he
  · obtain ⟨ctx, more, rfl⟩ := List.exists_cons_of_ne_nil hn
    obtain ⟨rfl, hm⟩ := List.cons.inj he
    exact h.ne_nil_of_slash (List.append_eq_nil_iff.mp hm).left

theorem scan_leave (hw : SelfContained within) (h : leave within t = some (inside, rest)) :
    scan previous (within ++ outer) t = scan (inside.getLast?.or previous) outer rest := by
  fun_induction leave within t generalizing previous inside
  case case1 =>
    cases h
    rfl
  case case2 => simp at h
  case case3 ctx more c t ih =>
    obtain ⟨⟨inside', rest'⟩, hl, he⟩ := Option.map_eq_some_iff.mp h
    obtain ⟨rfl, rfl⟩ := Prod.mk.inj he
    rw [scan_of_not_atTop (not_atTop hw (by simp) outer), after_append outer hw (by simp),
      ih (hw.after (by simp) c) hl]
    exact congrArg (scan · outer _) (getLast?_append_or [c] previous (by simp)).symm

theorem scan_leave_none (hw : SelfContained within) (h : leave within t = none) :
    scan previous (within ++ outer) t = .unterminated := by
  fun_induction leave within t generalizing previous
  case case1 => simp at h
  case case2 => rfl
  case case3 ctx more c t ih =>
    rw [scan_of_not_atTop (not_atTop hw (by simp) outer), after_append outer hw (by simp)]
    exact ih (hw.after (by simp) c) (by simpa using h)

theorem scan_opens {opening : Text} {ctx : Context} (h : Opens opening ctx)
    (hw : IsOutside within depth (opening ++ t)) : scan previous within (opening ++ t) =
      scan opening.getLast? ([ctx] ++ List.replicate depth .group) t := by
  have hfirst {c : Char} {u : Text} (hc : c ≠ '}') (hr : c ≠ 'r')
      (hw : IsOutside within depth (c :: u)) :
      scan previous within (c :: u) =
        scan (some c) (afterCode (List.replicate depth .group) c) u := by
    rw [scan_of_ne hc hr, hw.after_eq]
  cases h
  case line => exact (hfirst (by decide) (by decide) hw).trans (scan_of_ne (by decide) (by decide))
  case block => exact (hfirst (by decide) (by decide) hw).trans (scan_of_ne (by decide) (by decide))
  case quoted hq => rcases hq with rfl | rfl <;> exact hfirst (by decide) (by decide) hw
  case template => exact hfirst (by decide) (by decide) hw

theorem scan_literal {literal : Text} (hw : IsOutside within depth t)
    (h : literal? t = some (literal, rest)) :
    scan previous within t = scan literal.getLast? (List.replicate depth .group) rest := by
  obtain ⟨opening, ctx, u, ho, rfl, hu⟩ := exists_opens h
  have hc : SelfContained [ctx] := by cases ho <;> simp [SelfContained]
  rw [scan_opens ho hw]
  rcases hu with ⟨inside, hl, rfl⟩ | ⟨hl, rfl, rfl⟩
  case inl => rw [scan_leave hc hl, List.getLast?_append]
  case inr => rw [scan_leave_none hc hl, scan]

end Scan

section Finds

variable {previous : Option Char} {within : List Context} {depth d : Nat} {c : Char} {t : Text}

theorem atTop_iff (h : IsOutside within depth t) : AtTop within ↔ depth = 0 := by
  rcases h with rfl | ⟨rfl, _⟩
  all_goals
    cases depth
    case zero => simp [AtTop]
    case succ => simp [AtTop, List.replicate_succ]

theorem isStop_nil_iff : IsStop previous depth t [] ↔ depth = 0 ∧
    ((∃ rest, t = '}' :: rest) ∨ ∃ space inside, t = "render".toList ++ (space ++ '(' :: inside) ∧
      (∀ c ∈ space, isSpace c) ∧ joinsWord previous = false) := by
  constructor
  case mp =>
    rintro (⟨rest, ho⟩ | ⟨space, inside, ho, hs, ha⟩)
    all_goals
      obtain ⟨rfl, rfl⟩ := Outside.nil_iff.mp ho
    case inl => exact ⟨rfl, .inl ⟨rest, rfl⟩⟩
    case inr => exact ⟨rfl, .inr ⟨space, inside, rfl, hs, ha⟩⟩
  case mpr =>
    rintro ⟨rfl, ⟨rest, rfl⟩ | ⟨space, inside, rfl, hs, ha⟩⟩
    case inl => exact .inl ⟨rest, .here⟩
    case inr => exact .inr ⟨space, inside, .here, hs, ha⟩

theorem scan_of_not_isStop (h : IsOutside within depth (c :: t))
    (hn : ¬IsStop previous depth (c :: t) []) :
    scan previous within (c :: t) = scan (some c) (after within c) t := by
  by_cases htop : AtTop within
  case neg => exact scan_of_not_atTop htop
  case pos =>
    have hd := (atTop_iff h).mp htop
    have hc : c ≠ '}' := by
      rintro rfl
      exact hn (isStop_nil_iff.mpr ⟨hd, .inl ⟨t, rfl⟩⟩)
    rw [scan, if_pos (by simpa [AtTop] using htop), if_neg hc]
    split
    case h_2 => rfl
    case h_1 inside hr =>
      obtain ⟨space, he, hs⟩ := renderCall?_eq_some_iff.mp hr
      cases hj : joinsWord previous
      case true => rfl
      case false => exact absurd (isStop_nil_iff.mpr ⟨hd, .inr ⟨space, inside, he, hs, hj⟩⟩) hn

-- Where the reading goes on after the start of a text, it stops where it would have stopped anyway.
theorem Finds.of_next {taken next : Text} {stop : Stop} (hn : taken ≠ [])
    (hout : ∀ before rest e, Outside depth t before rest e ↔ (before = [] ∧ rest = t ∧ e = depth) ∨
      ∃ later, before = taken ++ later ∧ Outside d next later rest e)
    (hstart : ¬IsStop previous depth t []) (h : Finds taken.getLast? d next stop) :
    Finds previous depth t stop := by
  have houtside {before rest : Text} (h : Outside d next before rest 0) :
      Outside depth t (taken ++ before) rest 0 := (hout _ _ _).mpr (.inr ⟨before, rfl, h⟩)
  have hcall {before space inside : Text} (h : IsCall taken.getLast? d next before space inside) :
      IsCall previous depth t (taken ++ before) space inside :=
    ⟨houtside h.outside, h.isSpace, by rw [getLast?_append_or taken previous hn]; exact h.alone⟩
  have hlater {before : Text} (h : IsStop previous depth t before) :
      ∃ later, before = taken ++ later ∧ IsStop taken.getLast? d next later := by
    by_cases hb : before = []
    case pos => exact absurd (hb ▸ h) hstart
    case neg =>
      rcases h with ⟨rest, ho⟩ | ⟨space, inside, ho, hs, ha⟩
      case inl =>
        obtain ⟨hnil, _⟩ | ⟨later, rfl, hl⟩ := (hout _ _ _).mp ho
        · exact absurd hnil hb
        · exact ⟨later, rfl, .inl ⟨rest, hl⟩⟩
      case inr =>
        obtain ⟨hnil, _⟩ | ⟨later, rfl, hl⟩ := (hout _ _ _).mp ho
        · exact absurd hnil hb
        · rw [getLast?_append_or taken previous hn] at ha
          exact ⟨later, rfl, .inr ⟨space, inside, hl, hs, ha⟩⟩
  have hfirst {before : Text} (hf : ∀ other, IsStop taken.getLast? d next other →
      before <+: other) :
      ∀ other, IsStop previous depth t other → taken ++ before <+: other := by
    intro other ho
    obtain ⟨later, rfl, hl⟩ := hlater ho
    exact (List.prefix_append_right_inj taken).mpr (hf later hl)
  cases h
  case nothing hnone =>
    refine .nothing fun before hb => ?_
    obtain ⟨later, rfl, hl⟩ := hlater hb
    exact hnone later hl
  case brace hb hf => exact .brace (houtside hb) (hfirst hf)
  case call hc hf => exact .call (hcall hc) (hfirst hf)

theorem scan_finds (h : IsOutside within depth t) :
    Finds previous depth t (scan previous within t) := by
  induction hl : t.length using Nat.strongRecOn generalizing previous within depth t
  case ind n ih =>
  cases t
  case nil =>
    refine .nothing fun before hb => ?_
    rcases hb with ⟨rest, ho⟩ | ⟨space, inside, ho, _⟩
    all_goals
      have he := ho.eq_append
      simp at he
  case cons c t =>
    by_cases hstop : IsStop previous depth (c :: t) []
    case pos =>
      obtain ⟨rfl, hhere⟩ := isStop_nil_iff.mp hstop
      have htop : (decide (within = []) || decide (within = [.slash])) = true := by
        simpa [AtTop] using (atTop_iff h).mpr rfl
      rcases hhere with ⟨rest, he⟩ | ⟨space, inside, he, hs, ha⟩
      case inl =>
        obtain ⟨rfl, rfl⟩ := List.cons.inj he
        rw [scan, if_pos htop, if_pos rfl]
        exact .brace .here fun _ _ => List.nil_prefix
      case inr =>
        have hr : renderCall? (c :: t) = some inside := renderCall?_eq_some_iff.mpr ⟨space, he, hs⟩
        have hc : c ≠ '}' := by
          obtain ⟨rfl, _⟩ := List.cons.inj he
          decide
        rw [scan, if_pos htop, if_neg hc, hr]
        simp only [ha, Bool.false_eq_true, if_false]
        rw [he]
        exact .call ⟨.here, hs, ha⟩ fun _ _ => List.nil_prefix
    case neg =>
      cases hliteral : literal? (c :: t)
      case some p =>
        obtain ⟨literal, rest⟩ := p
        have hlength := congrArg List.length (literal?_append hliteral)
        have hpos := List.length_pos_of_ne_nil (literal_ne_nil hliteral)
        rw [scan_literal h hliteral]
        refine .of_next (literal_ne_nil hliteral) (fun _ _ _ => Outside.literal_iff hliteral)
          hstop ?_
        exact ih _ (by simp at hlength hl; omega) (.inl rfl) rfl
      case none =>
        rw [scan_of_not_isStop h hstop]
        refine .of_next (List.cons_ne_nil c []) (fun _ _ _ => Outside.code_iff hliteral) hstop ?_
        exact ih _ (by simp at hl; omega) (h.step hliteral) rfl

-- There is one first place, and one thing to stop at there.
theorem Finds.unique {stop other : Stop} (h : Finds previous depth t stop)
    (h' : Finds previous depth t other) : stop = other := by
  have hrest {before before' rest rest' : Text} {d d' : Nat} (ho : Outside depth t before rest d)
      (ho' : Outside depth t before' rest' d') (hb : before <+: before')
      (hb' : before' <+: before) :
      rest = rest' := by
    have he : before = before' := List.IsPrefix.eq_of_length_le hb hb'.length_le
    have happend := ho.eq_append.symm.trans ho'.eq_append
    rw [he] at happend
    exact List.append_cancel_left happend
  have hne {rest space inside : Text} : '}' :: rest ≠ "render".toList ++ (space ++ '(' :: inside) :=
    fun he => absurd (List.cons.inj he).left (by decide)
  cases h
  case nothing hn =>
    cases h'
    case nothing => rfl
    case brace hb _ => exact absurd (.inl ⟨_, hb⟩) (hn _)
    case call hc _ => exact absurd (.inr ⟨_, _, hc⟩) (hn _)
  case brace hb hf =>
    cases h'
    case nothing hn => exact absurd (.inl ⟨_, hb⟩) (hn _)
    case brace hb' hf' => rw [hrest hb hb' (hf _ (.inl ⟨_, hb'⟩)) (hf' _ (.inl ⟨_, hb⟩))]
    case call hc hf' =>
      exact absurd (hrest hb hc.outside (hf _ (.inr ⟨_, _, hc⟩)) (hf' _ (.inl ⟨_, hb⟩))) hne
  case call hc hf =>
    cases h'
    case nothing hn => exact absurd (.inr ⟨_, _, hc⟩) (hn _)
    case brace hb hf' =>
      exact absurd (hrest hb hc.outside (hf' _ (.inr ⟨_, _, hc⟩)) (hf _ (.inl ⟨_, hb⟩))) hne
    case call hc' hf' =>
      have he := hrest hc.outside hc'.outside (hf _ (.inr ⟨_, _, hc'⟩)) (hf' _ (.inr ⟨_, _, hc⟩))
      have hinside :=
        (renderCall?_render hc.isSpace _).symm.trans (he ▸ renderCall?_render hc'.isSpace _)
      rw [he, Option.some.inj hinside]

theorem scan_eq_iff {stop : Stop} : scan previous [] t = stop ↔ Finds previous 0 t stop := by
  have hfinds : Finds previous 0 t (scan previous [] t) := scan_finds (.inl rfl)
  constructor
  case mp =>
    rintro rfl
    exact hfinds
  case mpr => exact hfinds.unique

end Finds

section Ending

variable {accept : Text → Bool} {depth : Nat} {t brace inside raw : Text}

theorem lastBrace?_accepts (h : lastBrace? accept t = some brace) :
    accept brace ∧ brace <:+ t ∧ ∃ rest, brace = '}' :: rest := by
  induction t
  case nil => simp [lastBrace?] at h
  case cons c t ih =>
    rw [lastBrace?, Option.or_eq_some_iff] at h
    rcases h with h | ⟨_, h⟩
    case inl =>
      obtain ⟨ha, hs, hb⟩ := ih h
      exact ⟨ha, hs.trans (List.suffix_cons c t), hb⟩
    case inr =>
      split at h
      case isFalse => simp at h
      case isTrue hc =>
        cases h
        simp only [Bool.and_eq_true, decide_eq_true_eq] at hc
        obtain ⟨rfl, ha⟩ := hc
        exact ⟨ha, List.suffix_refl _, t, rfl⟩

theorem lastBrace?_isSome {before rest : Text} (h : accept ('}' :: rest)) :
    (lastBrace? accept (before ++ '}' :: rest)).isSome := by
  have hhere : ∃ brace, lastBrace? accept ('}' :: rest) = some brace := by
    cases hl : lastBrace? accept rest
    case none => exact ⟨'}' :: rest, by simp [lastBrace?, hl, h]⟩
    case some brace => exact ⟨brace, by simp [lastBrace?, hl]⟩
  obtain ⟨brace, hb⟩ := hhere
  rw [lastBrace?_append hb]
  rfl

-- What follows the parenthesis of a call, if some brace in it ends the body: the argument, the end
-- of the call, the brace and the rest.
def IsEnded (inside raw ending rest : Text) : Prop :=
  inside = raw ++ (ending ++ '}' :: rest) ∧ IsEnding ending

def found? (inside : Text) : Option Text :=
  ((Markup.close? (fun brace => (argument? (inside.before brace)).isSome) 0 inside).or
    (lastBrace? (fun brace => (argument? (inside.before brace)).isSome) inside)).bind
      fun brace => argument? (inside.before brace)

-- However the brace is looked for, it is one that ends the body, and it is found if there is any.
theorem exists_isEnded_of_found? (h : found? inside = some raw) :
    ∃ ending rest, IsEnded inside raw ending rest := by
  obtain ⟨brace, hb, ha⟩ := Option.bind_eq_some_iff.mp h
  have ⟨⟨before, hs⟩, rest, hrest⟩ : brace <:+ inside ∧ ∃ rest, brace = '}' :: rest := by
    rcases Option.or_eq_some_iff.mp hb with hclose | ⟨_, hlast⟩
    case inl => exact ⟨(Markup.close?_accepts hclose).right, Markup.exists_brace hclose⟩
    case inr => exact (lastBrace?_accepts hlast).right
  rw [← hs, Text.before_append, argument?_eq_some_iff] at ha
  obtain ⟨ending, rfl, he⟩ := ha
  exact ⟨ending, rest, by rw [← hs, hrest, List.append_assoc], he⟩

theorem found?_ne_none {ending rest : Text} (h : IsEnded inside raw ending rest) :
    found? inside ≠ none := by
  obtain ⟨hinside, he⟩ := h
  rw [← List.append_assoc] at hinside
  have hargument : argument? (inside.before ('}' :: rest)) = some raw := by
    rw [hinside, Text.before_append]
    exact argument?_eq_some_iff.mpr ⟨ending, rfl, he⟩
  have hlast := @lastBrace?_isSome (fun brace => (argument? (inside.before brace)).isSome)
    (raw ++ ending) rest (by simp [hargument])
  rw [← hinside] at hlast
  intro hnone
  rw [found?, Option.bind_eq_none_iff] at hnone
  cases hclose : Markup.close? (fun brace => (argument? (inside.before brace)).isSome) 0 inside
  case some brace =>
    have ha := (Markup.close?_accepts hclose).left
    simp [hnone brace (by rw [hclose]; rfl)] at ha
  case none =>
    obtain ⟨brace, hb⟩ := Option.isSome_iff_exists.mp hlast
    have ha := (lastBrace?_accepts hb).left
    simp [hnone brace (by rw [hclose, hb]; rfl)] at ha

end Ending

structure IsFirstCall (statements prelude space inside : Text) : Prop where
  isCall : IsCall (some '{') 0 statements prelude space inside
  first : ∀ other, IsStop (some '{') 0 statements other → prelude <+: other

section Split

variable {statements brace prelude space inside : Text} (lead : Text)

theorem IsFirstCall.finds (h : IsFirstCall statements prelude space inside) :
    Finds (some '{') 0 statements (.render ("render".toList ++ (space ++ '(' :: inside)) inside) :=
  .call h.isCall h.first

theorem IsFirstCall.inside_eq {prelude' space' inside' : Text}
    (h : IsFirstCall statements prelude space inside)
    (h' : IsFirstCall statements prelude' space' inside') :
    prelude = prelude' ∧ inside = inside' := by
  have hp : prelude = prelude' :=
    List.IsPrefix.eq_of_length_le (h.first _ (.inr ⟨_, _, h'.isCall⟩))
      (h'.first _ (.inr ⟨_, _, h.isCall⟩)).length_le
  exact ⟨hp, (Stop.render.inj (h.finds.unique h'.finds)).right⟩

theorem size_brace : Text.size (lead ++ ['{']) = lead.size + 1 := by
  rw [Text.size_append]
  rfl

theorem offset_statements (before rest : Text) :
    (lead ++ '{' :: (before ++ rest)).offset rest = lead.size + 1 + before.size := by
  rw [List.append_cons, ← List.append_assoc, Text.offset_append, Text.size_append, size_brace]

theorem split_eq : split (lead ++ '{' :: statements) (lead.size + 1) =
    match scan (some '{') [] statements with
    | .unterminated => .error ⟨.unterminatedBody, lead.size, none⟩
    | .closed brace =>
      if (lead ++ '{' :: statements).offset brace ≤ lead.size + 1 then
        .error ⟨.unterminatedBody, lead.size, none⟩
      else .error ⟨.missingRender, lead.size + 1, none⟩
    | .render call inside =>
      match found? inside with
      | some text => .ok ⟨(statements.before call).trim, text.trim,
        (lead ++ '{' :: statements).offset call⟩
      | none =>
        if inside.contains '}' then
          .error ⟨.malformedRender, (lead ++ '{' :: statements).offset call,
            some "render() must be the last statement of the component body".toList⟩
        else .error ⟨.unterminatedBody, lead.size, none⟩ := by
  have hstatements : (lead ++ '{' :: statements).dropBytes (lead.size + 1) = statements := by
    rw [← size_brace, List.append_cons, Text.dropBytes_append]
  have hbefore : ((lead ++ '{' :: statements).before statements).getLast? = some '{' := by
    rw [List.append_cons, Text.before_append]
    simp
  unfold split
  simp only [hstatements, hbefore, Nat.add_sub_cancel]
  rfl

theorem split_of_nothing (h : Finds (some '{') 0 statements .unterminated) :
    split (lead ++ '{' :: statements) (lead.size + 1) =
      .error ⟨.unterminatedBody, lead.size, none⟩ := by
  rw [split_eq, scan_eq_iff.mpr h]

theorem split_of_brace {before rest : Text} (ho : Outside 0 statements before ('}' :: rest) 0)
    (hf : ∀ other, IsStop (some '{') 0 statements other → before <+: other) :
    split (lead ++ '{' :: statements) (lead.size + 1) =
      if before = [] then .error ⟨.unterminatedBody, lead.size, none⟩
      else .error ⟨.missingRender, lead.size + 1, none⟩ := by
  have hoffset : (lead ++ '{' :: statements).offset ('}' :: rest) =
      lead.size + 1 + before.size := by
    rw [ho.eq_append, offset_statements]
  rw [split_eq, scan_eq_iff.mpr (.brace ho hf)]
  dsimp only
  rw [hoffset]
  by_cases hb : before = []
  case pos => simp [hb]
  case neg =>
    have hpos := Text.size_pos_of_ne_nil hb
    rw [if_neg (by omega), if_neg hb]

theorem split_of_call (h : IsFirstCall statements prelude space inside) :
    split (lead ++ '{' :: statements) (lead.size + 1) =
      match found? inside with
      | some raw => .ok ⟨prelude.trim, raw.trim, lead.size + 1 + prelude.size⟩
      | none =>
        if '}' ∈ inside then
          .error ⟨.malformedRender, lead.size + 1 + prelude.size,
            some "render() must be the last statement of the component body".toList⟩
        else .error ⟨.unterminatedBody, lead.size, none⟩ := by
  have he := h.isCall.outside.eq_append
  have hoffset : (lead ++ '{' :: statements).offset ("render".toList ++ (space ++ '(' :: inside)) =
      lead.size + 1 + prelude.size := by
    rw [he, offset_statements]
  have hprelude : statements.before ("render".toList ++ (space ++ '(' :: inside)) = prelude := by
    rw [he, Text.before_append]
  rw [split_eq, scan_eq_iff.mpr h.finds]
  dsimp only
  rw [hoffset, hprelude]
  simp only [List.contains_iff_mem]

theorem first_cases (statements : Text) :
    (∀ before, ¬IsStop (some '{') 0 statements before) ∨
    (∃ before rest, Outside 0 statements before ('}' :: rest) 0 ∧
      ∀ other, IsStop (some '{') 0 statements other → before <+: other) ∨
    ∃ prelude space inside, IsFirstCall statements prelude space inside := by
  have h : Finds (some '{') 0 statements (scan (some '{') [] statements) := scan_finds (.inl rfl)
  generalize scan (some '{') [] statements = stop at h
  cases h
  case nothing hn => exact .inl hn
  case brace hb hf => exact .inr (.inl ⟨_, _, hb, hf⟩)
  case call hc hf => exact .inr (.inr ⟨_, _, _, hc, hf⟩)

end Split

-- The body goes on to the end of the text, or is closed as soon as it is opened.
def IsUnterminated (statements : Text) : Prop :=
  ((∀ before, ¬IsClose 0 statements before) ∧
    ∀ prelude space inside, ¬IsFirstCall statements prelude space inside) ∨
  IsClose 0 statements [] ∨
  ∃ prelude space inside, IsFirstCall statements prelude space inside ∧ '}' ∉ inside

-- The body is closed, but not at once, and there is no call before that.
def LacksCall (statements : Text) : Prop :=
  (∃ before, IsClose 0 statements before) ∧ ¬IsClose 0 statements [] ∧
    ∀ prelude space inside, ¬IsFirstCall statements prelude space inside

-- No brace after the call follows the end of a call.
def GoesOn (inside : Text) : Prop :=
  '}' ∈ inside ∧ ∀ raw ending rest, ¬IsEnded inside raw ending rest

inductive Fails (lead statements : Text) : Problem → Prop
  | unterminated (h : IsUnterminated statements) :
    Fails lead statements ⟨.unterminatedBody, lead.size, none⟩
  | missing (h : LacksCall statements) : Fails lead statements ⟨.missingRender, lead.size + 1, none⟩
  | malformed {prelude space inside} (hc : IsFirstCall statements prelude space inside)
    (h : GoesOn inside) : Fails lead statements ⟨.malformedRender, lead.size + 1 + prelude.size,
      some "render() must be the last statement of the component body".toList⟩

section Verdict

variable {statements prelude space inside before rest : Text} {problem : Problem} (lead : Text)

theorem IsFirstCall.not_isClose_nil (h : IsFirstCall statements prelude space inside) :
    ¬IsClose 0 statements [] := by
  rintro ⟨rest, ho⟩
  have hp := List.prefix_nil.mp (h.first [] (.inl ⟨rest, ho⟩))
  have he := h.isCall.outside.eq_append
  rw [hp, ho.eq_append] at he
  exact absurd (List.cons.inj he).left (by decide)

theorem not_isFirstCall (ho : Outside 0 statements before ('}' :: rest) 0)
    (hf : ∀ other, IsStop (some '{') 0 statements other → before <+: other) :
    ¬IsFirstCall statements prelude space inside :=
  fun h => nomatch (Finds.brace ho hf).unique h.finds

theorem fails_iff_of_call (h : IsFirstCall statements prelude space inside) :
    Fails lead statements problem ↔
      ('}' ∉ inside ∧ problem = ⟨.unterminatedBody, lead.size, none⟩) ∨
      (GoesOn inside ∧ problem = ⟨.malformedRender, lead.size + 1 + prelude.size,
        some "render() must be the last statement of the component body".toList⟩) := by
  constructor
  case mp =>
    intro hfails
    cases hfails
    case unterminated hu =>
      rcases hu with ⟨_, hn⟩ | hb | ⟨_, _, _, h', hmem⟩
      · exact absurd h (hn _ _ _)
      · exact absurd hb h.not_isClose_nil
      · exact .inl ⟨(h.inside_eq h').right ▸ hmem, rfl⟩
    case missing hm => exact absurd h (hm.right.right _ _ _)
    case malformed h' hgo =>
      obtain ⟨rfl, rfl⟩ := h.inside_eq h'
      exact .inr ⟨hgo, rfl⟩
  case mpr =>
    rintro (⟨hn, rfl⟩ | ⟨hgo, rfl⟩)
    · exact .unterminated (.inr (.inr ⟨_, _, _, h, hn⟩))
    · exact .malformed h hgo

theorem fails_iff_of_brace (ho : Outside 0 statements before ('}' :: rest) 0)
    (hf : ∀ other, IsStop (some '{') 0 statements other → before <+: other) :
    Fails lead statements problem ↔ problem = if before = [] then ⟨.unterminatedBody,
      lead.size, none⟩
      else ⟨.missingRender, lead.size + 1, none⟩ := by
  have hnil : IsClose 0 statements [] ↔ before = [] := by
    constructor
    case mp => exact fun hb => List.prefix_nil.mp (hf _ (.inl hb))
    case mpr =>
      rintro rfl
      exact ⟨rest, ho⟩
  constructor
  case mp =>
    intro hfails
    cases hfails
    case unterminated hu =>
      rcases hu with ⟨hn, _⟩ | hb | ⟨_, _, _, h, _⟩
      · exact absurd ⟨rest, ho⟩ (hn _)
      · rw [if_pos (hnil.mp hb)]
      · exact absurd h (not_isFirstCall ho hf)
    case missing hm => rw [if_neg (mt hnil.mpr hm.right.left)]
    case malformed h _ => exact absurd h (not_isFirstCall ho hf)
  case mpr =>
    rintro rfl
    split
    case isTrue hb => exact .unterminated (.inr (.inl (hnil.mpr hb)))
    case isFalse hb =>
      exact .missing ⟨⟨before, rest, ho⟩, mt hnil.mp hb, fun _ _ _ => not_isFirstCall ho hf⟩

theorem fails_iff_of_nothing (hn : ∀ before, ¬IsStop (some '{') 0 statements before) :
    Fails lead statements problem ↔ problem = ⟨.unterminatedBody, lead.size, none⟩ := by
  have hclose (before : Text) : ¬IsClose 0 statements before := fun h => hn before (.inl h)
  have hcall (prelude space inside : Text) : ¬IsFirstCall statements prelude space inside :=
    fun h => hn prelude (.inr ⟨_, _, h.isCall⟩)
  constructor
  case mp =>
    intro hfails
    cases hfails
    case unterminated => rfl
    case missing hm => exact absurd hm.left.choose_spec (hclose _)
    case malformed h _ => exact absurd h (hcall _ _ _)
  case mpr =>
    rintro rfl
    exact .unterminated (.inl ⟨hclose, hcall⟩)

theorem found?_eq_none_iff : found? inside = none ↔
    ∀ raw ending rest, ¬IsEnded inside raw ending rest := by
  constructor
  case mp => exact fun hn raw ending rest he => found?_ne_none he hn
  case mpr =>
    intro hn
    cases hf : found? inside
    case none => rfl
    case some raw =>
      obtain ⟨ending, rest, he⟩ := exists_isEnded_of_found? hf
      exact absurd he (hn raw ending rest)

theorem split_eq_error_iff : split (lead ++ '{' :: statements) (lead.size + 1) = .error problem ↔
    Fails lead statements problem := by
  rcases first_cases statements with hn | ⟨before, rest, ho, hf⟩ | ⟨prelude, space, inside, h⟩
  · rw [split_of_nothing lead (.nothing hn), fails_iff_of_nothing lead hn,
      Except.error.injEq, eq_comm]
  · rw [split_of_brace lead ho hf, fails_iff_of_brace lead ho hf, ← apply_ite Except.error,
      Except.error.injEq, eq_comm]
  · rw [split_of_call lead h, fails_iff_of_call lead h]
    cases hfound : found? inside
    case some raw =>
      obtain ⟨ending, rest, he⟩ := exists_isEnded_of_found? hfound
      have hmem : '}' ∈ inside := by simp [he.left]
      have hends : ¬GoesOn inside := fun hgo => hgo.right raw ending rest he
      simp [hmem, hends]
    case none =>
      dsimp only
      by_cases hmem : '}' ∈ inside
      case pos =>
        have hgo : GoesOn inside := ⟨hmem, found?_eq_none_iff.mp hfound⟩
        rw [if_pos hmem, Except.error.injEq, eq_comm]
        simp only [hmem, hgo, not_true_eq_false, false_and, false_or, true_and]
      case neg =>
        have hgo : ¬GoesOn inside := fun hgo => hmem hgo.left
        rw [if_neg hmem, Except.error.injEq, eq_comm]
        simp only [hmem, hgo, not_false_eq_true, false_and, or_false, true_and]

theorem split_eq_ok {body : Body} (hb : split (lead ++ '{' :: statements) (lead.size + 1) =
      .ok body) :
    ∃ prelude space inside raw ending rest, IsFirstCall statements prelude space inside ∧
      IsEnded inside raw ending rest ∧ body = ⟨prelude.trim, raw.trim,
        lead.size + 1 + prelude.size⟩ := by
  rcases first_cases statements with hn | ⟨before, rest, ho, hf⟩ | ⟨prelude, space, inside, h⟩
  · simp [split_of_nothing lead (.nothing hn)] at hb
  · rw [split_of_brace lead ho hf] at hb
    split at hb <;> simp at hb
  · rw [split_of_call lead h] at hb
    cases hfound : found? inside
    case none =>
      simp only [hfound] at hb
      split at hb <;> simp at hb
    case some raw =>
      obtain ⟨ending, rest, he⟩ := exists_isEnded_of_found? hfound
      rw [hfound, Except.ok.injEq] at hb
      exact ⟨prelude, space, inside, raw, ending, rest, h, he, hb.symm⟩

theorem exists_split_eq_ok {raw ending : Text} (h : IsFirstCall statements prelude space inside)
    (he : IsEnded inside raw ending rest) :
    ∃ body, split (lead ++ '{' :: statements) (lead.size + 1) = .ok body := by
  rw [split_of_call lead h]
  cases hfound : found? inside
  case none => exact absurd hfound (found?_ne_none he)
  case some => exact ⟨_, rfl⟩

end Verdict

-- A body is split if and only if there is a first call and some brace after it follows the end of a
-- call; the parts are then those before the call and in it. Any other body fails as the statements
-- say.
theorem split_verdict {source : Text} {header : Header} (h : Header.extract source = .ok header) :
    ∃ lead statements, source = lead ++ '{' :: statements ∧ header.bodyStart = lead.size + 1 ∧
    ((∃ body, split source header.bodyStart = .ok body) ↔
      ∃ prelude space inside raw ending rest, IsFirstCall statements prelude space inside ∧
        IsEnded inside raw ending rest) ∧
    (∀ body, split source header.bodyStart = .ok body → ∃ prelude space raw ending rest : Text,
      statements = prelude ++ ("render".toList ++
        (space ++ '(' :: (raw ++ (ending ++ '}' :: rest)))) ∧
      IsFirstCall statements prelude space (raw ++ (ending ++ '}' :: rest)) ∧ IsEnding ending ∧
      body = ⟨prelude.trim, raw.trim, header.bodyStart + prelude.size⟩) ∧
    ∀ problem, split source header.bodyStart = .error problem ↔ Fails lead statements problem := by
  obtain ⟨lead, statements, rfl, hstart⟩ := Header.opens_of_extract h
  rw [size_brace] at hstart
  refine ⟨lead, statements, rfl, hstart, ?_⟩
  rw [hstart]
  refine ⟨⟨fun ⟨body, hb⟩ => ?_, fun ⟨_, _, _, _, _, _, hc, he⟩ => exists_split_eq_ok lead hc he⟩,
    fun body hb => ?_, fun problem => split_eq_error_iff lead⟩
  · obtain ⟨prelude, space, inside, raw, ending, rest, hc, he, _⟩ := split_eq_ok lead hb
    exact ⟨prelude, space, inside, raw, ending, rest, hc, he⟩
  · obtain ⟨prelude, space, inside, raw, ending, rest, hc, ⟨rfl, he⟩, hbody⟩ := split_eq_ok lead hb
    exact ⟨prelude, space, raw, ending, rest, hc.isCall.outside.eq_append, hc, he, hbody⟩

-- A call in a group is passed over, and a condition that is not closed hides no brace.
theorem split_verdict_unclosed : ∃ source header,
    source = "export ephemeral A() \x7b f(\x7b render(1) \x7d); render(@if (a \x7b ); \x7d".toList ∧
    Header.extract source = .ok header ∧
    split source header.bodyStart =
      .ok ⟨"f(\x7b render(1) \x7d);".toList, "@if (a \x7b".toList, 41⟩ ∧
    ∃ lead statements prelude space inside raw ending rest, source = lead ++ '{' :: statements ∧
      IsFirstCall statements prelude space inside ∧ IsEnded inside raw ending rest ∧
      prelude.trim = "f(\x7b render(1) \x7d);".toList ∧ raw.trim = "@if (a \x7b".toList := by
  have hextract : Header.extract
      "export ephemeral A() \x7b f(\x7b render(1) \x7d); render(@if (a \x7b ); \x7d".toList =
        .ok ⟨.ephemeral, ['A'], [], 22⟩ := by decide +kernel
  have hsplit : split
      "export ephemeral A() \x7b f(\x7b render(1) \x7d); render(@if (a \x7b ); \x7d".toList 22 =
        .ok ⟨"f(\x7b render(1) \x7d);".toList, "@if (a \x7b".toList, 41⟩ := by cbv
  obtain ⟨lead, statements, hs, _, _, hok, _⟩ := split_verdict hextract
  obtain ⟨prelude, space, raw, ending, rest, _, hc, he, hbody⟩ := hok _ hsplit
  obtain ⟨hprelude, hraw, _⟩ := Body.mk.inj hbody
  exact ⟨_, _, rfl, hextract, hsplit, lead, statements, prelude, space, _, raw, ending, rest,
    hs, hc, ⟨rfl, he⟩, hprelude.symm, hraw.symm⟩

end Body
end Componentry
