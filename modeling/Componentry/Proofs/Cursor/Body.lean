import Componentry.Proofs.Component.Verdict
import Componentry.Proofs.Cursor.Markup

/-!
The body of a component, split by a cursor: where the reading of its statements stops, and which
brace ends the body after a call.
-/
namespace Componentry.Cursor

open Code Context

-- Where the reading of the statements stopped: at a call of `render` with its parenthesis, or at a
-- brace.
inductive Stop
  | render (call paren : Nat)
  | closed (brace : Nat)
  | unterminated
  deriving DecidableEq, Repr

def callAt (t : Text) (i n : Nat) : Checked (Option Nat) := do
  let word ← slice t i n
  if word = "render".toList then
    let paren ← skipSpace t n
    return if t.code? paren = some '(' then some paren else none
  else return none

def scanFrom (t : Text) (depth i : Nat) : Checked Stop :=
  match _ : t.code? i with
  | none => return .unterminated
  | some c => do
    have := Text.lt_size_of_code? ‹_›
    match ← literalEnd t i with
    | some n =>
      let ⟨_⟩ ← onward t i n
      scanFrom t depth n
    | none =>
      if isOpener c then scanFrom t (depth + 1) (i + 1)
      else if c = '}' && depth = 0 then return .closed i
      else if isCloser c then scanFrom t (depth - 1) (i + 1)
      else if Identifier.isStart c then
        let n ← identifierEnd t i
        let joins := Body.joinsWord (if 0 < i then t.code? (i - 1) else none)
        match ← (if !joins && depth = 0 then callAt t i n else pure none) with
        | some paren => return .render i paren
        | none =>
          let ⟨_⟩ ← onward t i n
          scanFrom t depth n
      else scanFrom t depth (i + 1)
termination_by t.size - i

def argument? (t : Text) : Option Text := do
  let rest ← t.stripStart? "render".toList
  match rest.trimStart with
  | '(' :: inside => Body.argument? inside
  | _ => none

def firstAccepted (accept : Nat → Checked Bool) : List Nat → Checked (Option Nat)
  | [] => return none
  | n :: more => do if ← accept n then return some n else firstAccepted accept more

def endsCall (t : Text) (call n : Nat) : Checked Bool := do
  let text ← slice t call n
  return (argument? text).isSome

def bodyEnd (t : Text) (call paren : Nat) : Checked (Option Nat) := do
  match ← closeAt t (paren + 1) (endsCall t call) with
  | some n => return some n
  | none =>
    let rest ← sliceFrom t paren
    firstAccepted (endsCall t call) ((offsets (·.head? = some '}') rest).reverse.map (paren + ·))

def split (t : Text) (start : Nat) : Attempt Problem Body := do
  match ← scanFrom t 0 start with
  | .unterminated => throw ⟨.unterminatedBody, start - 1, none⟩
  | .closed brace =>
    if brace ≤ start then throw ⟨.unterminatedBody, start - 1, none⟩
    else throw ⟨.missingRender, start, none⟩
  | .render call paren =>
    match ← bodyEnd t call paren with
    | some n =>
      let text ← slice t call n
      let prelude ← slice t start call
      return ⟨prelude.trim, ((argument? text).getD []).trim, call⟩
    | none =>
      let rest ← sliceFrom t paren
      if rest.contains '}' then
        throw ⟨.malformedRender, call,
          some "render() must be the last statement of the component body".toList⟩
      else throw ⟨.unterminatedBody, start - 1, none⟩

section Names

variable {within : List Context} {previous : Option Char} {c x : Char} {name rest u : Text}
  {depth : Nat}

theorem ne_of_isPart (hc : Identifier.isPart c) (hx : Identifier.isPart x = false) : c ≠ x := by
  rintro rfl
  simp [hc] at hx

theorem literal?_of_isPart (hc : Identifier.isPart c) (u : Text) : literal? (c :: u) = none :=
  literal?_eq_none ⟨ne_of_isPart hc rfl, ne_of_isPart hc rfl, ne_of_isPart hc rfl⟩
    fun h => absurd h (ne_of_isPart hc rfl)

theorem not_bracket_of_isPart (hc : Identifier.isPart c) : ¬isOpener c ∧ ¬isCloser c := by
  simp only [isOpener, isCloser, Bool.or_eq_true, decide_eq_true_eq, or_assoc]
  constructor
  all_goals rintro (rfl | rfl | rfl) <;> exact absurd hc (by decide)

theorem depthAfter_of_isPart (hc : Identifier.isPart c) (depth : Nat) :
    depthAfter depth c = depth := by
  have ⟨hopener, hcloser⟩ := not_bracket_of_isPart hc
  rw [depthAfter, if_neg hopener, if_neg hcloser]

-- Inside a word no call starts, and no brace ends the body.
theorem scan_word (hj : Body.joinsWord previous) (hn : ∀ c ∈ name, Identifier.isPart c)
    (h : IsOutside within depth (name ++ rest)) : ∃ within', IsOutside within' depth rest ∧
      Body.scan previous within (name ++ rest) =
        Body.scan (name.getLast?.or previous) within' rest := by
  induction name generalizing previous within
  case nil => exact ⟨within, h, rfl⟩
  case cons c name ih =>
    have ⟨hc, hn⟩ := List.forall_mem_cons.mp hn
    rw [List.cons_append] at h ⊢
    have hstop : ¬Body.IsStop previous depth (c :: (name ++ rest)) [] := by
      intro hstop
      rcases (Body.isStop_nil_iff.mp hstop).right with ⟨_, he⟩ | ⟨_, _, _, _, ha⟩
      case inl => exact ne_of_isPart hc rfl (List.cons.inj he).left
      case inr => simp [hj] at ha
    have hstep := h.step (literal?_of_isPart hc _)
    rw [depthAfter_of_isPart hc] at hstep
    obtain ⟨within', hw, hscan⟩ :=
      @ih (after within c) (some c) (by simp [Body.joinsWord, hc]) hn hstep
    refine ⟨within', hw, ?_⟩
    rw [Body.scan_of_not_isStop h hstop, hscan]
    exact congrArg (Body.scan · within' rest) (Body.getLast?_append_or [c] previous (by simp)).symm

end Names

def placeIn (t : Text) : Body.Stop → Stop
  | .render call inside => .render (t.offset call) (t.offset inside - 1)
  | .closed brace => .closed (t.offset brace)
  | .unterminated => .unterminated

section Scan

variable {within : List Context} {t u rest : Text} {c : Char} {i depth : Nat}

theorem onlyAscii_joins : OnlyAscii fun c => Identifier.isPart c || c = '.' || c = '$' := by
  intro c h
  simp [onlyAscii_isPart c h, h.ne]

theorem getLast?_before {s : Text} (h : t.suffix? i = some (s ++ rest)) (hs : s ≠ []) :
    (t.before rest).getLast? = s.getLast? := by
  obtain ⟨r, rfl, _⟩ := Text.suffix?_eq_some_iff.mp h
  rw [← List.append_assoc, Text.before_append, List.getLast?_append,
    List.getLast?_eq_some_getLast hs]
  rfl

theorem continues_split (h : (Identifier.split u).1 ≠ []) :
    Identifier.continues (Identifier.split u).2 = false := by
  cases u
  case nil => rfl
  case cons c u =>
    by_cases hc : Identifier.isStart c
    case neg => simp [Identifier.split, hc] at h
    case pos =>
      rw [Identifier.split, if_pos hc, Identifier.continues_eq_any]
      exact Text.head?_dropWhile Identifier.isPart u

theorem renderCall?_append (hc : Identifier.continues rest = false) :
    Body.renderCall? ("render".toList ++ rest) =
      if (Text.skipSpace rest).head? = some '(' then some (Text.skipSpace rest).tail else none := by
  rw [Body.renderCall?, Text.stripStart?_append]
  simp only [Option.bind_eq_bind, Option.bind_some, hc, Bool.false_eq_true, if_false]
  split
  case h_1 he => simp [he]
  case h_2 he =>
    rw [if_neg]
    intro hh
    obtain ⟨inside, hi⟩ := List.head?_eq_some_iff.mp hh
    exact he inside hi

theorem suffix?_split (hs : t.suffix? i = some u) :
    t.suffix? i = some ((Identifier.split u).1 ++ (Identifier.split u).2) := by
  rw [Identifier.split_append, hs]

theorem callAt_eq (hs : t.suffix? i = some u) : callAt t i (i + Text.size (Identifier.split u).1) =
    .ok ((Body.renderCall? u).map fun inside => t.offset inside - 1) := by
  have hsplit := Identifier.split_append u
  rw [callAt, slice_eq (suffix?_split hs), ok_bind]
  split_ifs with hrender
  · have hcontinues := @continues_split u (by rw [hrender]; decide)
    rw [hrender] at hsplit ⊢
    generalize (Identifier.split u).2 = rest at hsplit hcontinues
    subst hsplit
    have hparen := suffix?_skipSpace (Text.suffix?_add_size hs)
    have hopen := Text.code?_eq_some_iff_head? hparen (by decide : '('.toNat < 128)
    rw [skipSpace_eq, ok_bind, renderCall?_append hcontinues]
    by_cases hh : (Text.skipSpace rest).head? = some '('
    case neg => simp only [hopen, hh, if_false, Option.map_none, pure_eq_ok]
    case pos =>
      obtain ⟨inside, he⟩ := List.head?_eq_some_iff.mp hh
      rw [he] at hparen
      have hoffset := Text.offset_of_suffix? (Text.suffix?_succ (by decide) hparen)
      simp only [hopen, he, List.head?_cons, if_true, Option.map_some, List.tail_cons, hoffset,
        Nat.add_sub_cancel, pure_eq_ok]
  · have hnone : Body.renderCall? u = none := by
      rw [Option.eq_none_iff_forall_ne_some]
      intro inside hcall
      obtain ⟨space, rfl, hspace⟩ := Body.renderCall?_eq_some_iff.mp hcall
      have hname : Identifier.IsName "render".toList := ⟨by decide, rfl⟩
      exact hrender (by rw [hname.split_append (Markup.continues_space_append hspace rfl)])
    rw [hnone, Option.map_none, pure_eq_ok]

theorem joinsWord_eq (hs : t.suffix? i = some u) :
    Body.joinsWord (if 0 < i then t.code? (i - 1) else none) =
      Body.joinsWord (t.before u).getLast? := by
  obtain ⟨s, rfl, rfl⟩ := Text.suffix?_eq_some_iff.mp hs
  rw [Text.before_append]
  exact Text.any_code?_pred onlyAscii_joins s u

theorem scan_of_isStop (h : IsOutside within depth u) {previous : Option Char}
    (hstop : Body.IsStop previous depth u []) : depth = 0 ∧
      ((∃ rest, u = '}' :: rest ∧ Body.scan previous within u = .closed u) ∨
        ∃ inside, Body.renderCall? u = some inside ∧ Body.joinsWord previous = false ∧
          Body.scan previous within u = .render u inside) := by
  obtain ⟨rfl, hhere⟩ := Body.isStop_nil_iff.mp hstop
  have htop : (decide (within = []) || decide (within = [.slash])) = true := by
    simpa [Body.AtTop] using (Body.atTop_iff h).mpr rfl
  refine ⟨rfl, ?_⟩
  rcases hhere with ⟨rest, rfl⟩ | ⟨space, inside, he, hs, ha⟩
  case inl => exact .inl ⟨rest, rfl, by rw [Body.scan, if_pos htop, if_pos rfl]⟩
  case inr =>
    have hcall : Body.renderCall? u = some inside :=
      Body.renderCall?_eq_some_iff.mpr ⟨space, he, hs⟩
    refine .inr ⟨inside, hcall, ha, ?_⟩
    cases u
    case nil => simp at he
    case cons c u =>
      have hc : c ≠ '}' := by
        rw [(List.cons.inj he).left]
        decide
      rw [Body.scan, if_pos htop, if_neg hc, hcall]
      simp [ha]

theorem not_isStop_of_isWide (hx : IsWide c) (previous : Option Char) (depth : Nat) (u : Text) :
    ¬Body.IsStop previous depth (c :: u) [] := by
  intro hstop
  rcases (Body.isStop_nil_iff.mp hstop).right with ⟨_, he⟩ | ⟨_, _, he, _⟩
  all_goals exact hx.ne (by decide) (List.cons.inj he).left

theorem callAt_of_not_isStop (hs : t.suffix? i = some u)
    (hstop : ¬Body.IsStop (t.before u).getLast? depth u []) :
    (if !Body.joinsWord (t.before u).getLast? && depth = 0 then
      callAt t i (i + Text.size (Identifier.split u).1) else pure none) = .ok none := by
  split_ifs with halone
  · rw [callAt_eq hs]
    cases hcall : Body.renderCall? u
    case none => rfl
    case some inside =>
      simp only [Bool.and_eq_true, Bool.not_eq_true', decide_eq_true_eq] at halone
      obtain ⟨space, he, hspace⟩ := Body.renderCall?_eq_some_iff.mp hcall
      exact absurd (Body.isStop_nil_iff.mpr
        ⟨halone.right, .inr ⟨space, inside, he, hspace, halone.left⟩⟩) hstop
  · rfl

theorem scan_identifier {previous : Option Char} (h : IsOutside within depth (c :: u))
    (hc : Identifier.isStart c) (hstop : ¬Body.IsStop previous depth (c :: u) []) :
    ∃ within', IsOutside within' depth (Identifier.split (c :: u)).2 ∧
    Body.scan previous within (c :: u) =
      Body.scan (Identifier.split (c :: u)).1.getLast? within' (Identifier.split (c :: u)).2 := by
  have hpart := Identifier.isPart_of_isStart hc
  have hsplit : u = u.takeWhile Identifier.isPart ++ u.dropWhile Identifier.isPart := by simp
  have hstep := h.step (literal?_of_isPart hpart u)
  rw [depthAfter_of_isPart hpart, hsplit] at hstep
  obtain ⟨within', hw, hscan⟩ := @scan_word _ (some c) _ _ _ (by simp [Body.joinsWord, hpart])
    (fun _ => List.mem_takeWhile_imp) hstep
  rw [Identifier.split, if_pos hc]
  refine ⟨within', hw, ?_⟩
  rw [Body.scan_of_not_isStop h hstop, ← List.singleton_append]
  nth_rewrite 1 [hsplit]
  have hlast := Body.getLast?_append_or (t := u.takeWhile Identifier.isPart) [c] none (by simp)
  rw [Option.or_none] at hlast
  rw [hscan, hlast]
  rfl

theorem name_next (hs : t.suffix? i = some (c :: rest)) (hc : Identifier.isStart c) :
    i < i + Text.size (Identifier.split (c :: rest)).1 ∧
      t.suffix? (i + Text.size (Identifier.split (c :: rest)).1) =
        some (Identifier.split (c :: rest)).2 := by
  have hname : (Identifier.split (c :: rest)).1 ≠ [] := by simp [Identifier.split, hc]
  have hpos := Text.size_pos_of_ne_nil hname
  exact ⟨by omega, Text.suffix?_add_size (suffix?_split hs)⟩

theorem scanFrom_literal {literal : Text} (hs : t.suffix? i = some u)
    (hl : literal? u = some (literal, rest)) :
    scanFrom t depth i = scanFrom t depth (i + literal.size) := by
  have ⟨hlt, hrest⟩ := literal_next hs hl
  have hle := Text.add_size_of_suffix? hrest
  rw [scanFrom]
  split
  case h_1 hn => exact absurd (Text.code?_eq_none_iff.mp hn) (by omega)
  case h_2 =>
    rw [literalEnd_eq, ok_bind, literalEnd?_eq hs, hl]
    simp only [Option.map_some, onward_eq ⟨hlt, Nat.le.intro hle⟩, ok_bind]

theorem scanFrom_next (hc : t.code? i = some c) (hl : literalEnd? t i = none)
    (hbrace : ¬(c = '}' ∧ depth = 0)) (hstart : ¬Identifier.isStart c) :
    scanFrom t depth i = scanFrom t (depthAfter depth c) (i + 1) := by
  rw [scanFrom]
  split
  case h_1 hn => simp [hn] at hc
  case h_2 d hd =>
    cases hc.symm.trans hd
    have hbrace' : (decide (c = '}') && decide (depth = 0)) = false := by simpa using hbrace
    rw [literalEnd_eq, ok_bind, hl, depthAfter]
    by_cases hopener : isOpener c
    case pos => simp [hopener]
    by_cases hcloser : isCloser c
    case pos => simp [hopener, hcloser, hbrace']
    case neg => simp [hopener, hcloser, hbrace', hstart]

theorem scanFrom_brace (hs : t.suffix? i = some ('}' :: rest)) :
    scanFrom t 0 i = .ok (.closed i) := by
  have hc := (Text.code?_eq_some_iff (by decide)).mpr ⟨rest, hs⟩
  rw [scanFrom]
  split
  case h_1 hn => simp [hn] at hc
  case h_2 d hd =>
    cases hc.symm.trans hd
    rw [literalEnd_eq, ok_bind, literalEnd?_eq hs]
    rfl

theorem scanFrom_name {paren? : Option Nat} (hs : t.suffix? i = some (c :: rest))
    (hc : Identifier.isStart c)
    (hcall : (if !Body.joinsWord (t.before (c :: rest)).getLast? && depth = 0 then
      callAt t i (i + Text.size (Identifier.split (c :: rest)).1) else pure none) = .ok paren?) :
    scanFrom t depth i =
      paren?.elim (scanFrom t depth (i + Text.size (Identifier.split (c :: rest)).1)) fun paren =>
        .ok (.render i paren) := by
  have hpart := Identifier.isPart_of_isStart hc
  obtain ⟨hopener, hcloser⟩ := not_bracket_of_isPart hpart
  have hbrace : ¬(decide (c = '}') && decide (depth = 0)) := by
    have hne : c ≠ '}' := ne_of_isPart hpart rfl
    simp [hne]
  have hcode := (Text.code?_eq_some_iff (onlyAscii_isStart.toNat_lt hc)).mpr ⟨rest, hs⟩
  have hend : Code.identifierEnd t i = i + Text.size (Identifier.split (c :: rest)).1 := by
    rw [Code.identifierEnd, hs]
  rw [scanFrom]
  split
  case h_1 hn => simp [hn] at hcode
  case h_2 d hd =>
    cases hcode.symm.trans hd
    rw [literalEnd_eq, ok_bind, literalEnd?_eq hs, literal?_of_isPart hpart]
    simp only [Option.map_none, identifierEnd_eq, ok_bind, hend, joinsWord_eq hs]
    rw [if_neg hopener, if_neg hbrace, if_neg hcloser, if_pos hc, hcall, ok_bind]
    cases paren?
    case some => rfl
    case none =>
      obtain ⟨hlt, hafter⟩ := name_next hs hc
      dsimp only
      rw [onward_eq ⟨hlt, Nat.le.intro (Text.add_size_of_suffix? hafter)⟩, ok_bind]
      rfl

theorem scanFrom_stop (hs : t.suffix? i = some (c :: rest)) (h : IsOutside within depth (c :: rest))
    (hstop : Body.IsStop (t.before (c :: rest)).getLast? depth (c :: rest) []) :
    scanFrom t depth i =
      .ok (placeIn t (Body.scan (t.before (c :: rest)).getLast? within (c :: rest))) := by
  obtain ⟨rfl, ⟨_, he, hscan⟩ | ⟨inside, hcall, hj, hscan⟩⟩ := scan_of_isStop h hstop
  case inl =>
    cases he
    rw [hscan, scanFrom_brace hs, placeIn, Text.offset_of_suffix? hs]
  case inr =>
    obtain ⟨_, he, _⟩ := Body.renderCall?_eq_some_iff.mp hcall
    obtain ⟨rfl, _⟩ := List.cons.inj he
    rw [hscan, scanFrom_name hs (by decide) (by rw [hj, callAt_eq hs, hcall]; rfl), placeIn,
      Text.offset_of_suffix? hs]
    rfl

-- Every place outside all literals is passed in the order of the text, until the reading stops.
theorem scanFrom_eq (depth i : Nat) (h : IsOutside within depth (t.dropBytes i)) :
    scanFrom t depth i =
    .ok (placeIn t (Body.scan (t.before (t.dropBytes i)).getLast? within (t.dropBytes i))) := by
  induction hn : t.size - i using Nat.strongRecOn generalizing i within depth
  case ind n ih =>
  -- One character is passed.
  have hnext {c : Char} {rest : Text} (hs : t.suffix? i = some (c :: rest))
      (h : IsOutside within depth (c :: rest)) (hl : literal? (c :: rest) = none)
      (hstop : ¬Body.IsStop (t.before (c :: rest)).getLast? depth (c :: rest) []) :
      scanFrom t (depthAfter depth c) (i + 1) =
        .ok (placeIn t (Body.scan (t.before (c :: rest)).getLast? within (c :: rest))) := by
    have hlt := Text.lt_size_of_suffix? hs
    have hdrop := Text.dropBytes_next hs
    have hlater := ih _ (by omega) (depthAfter depth c) (i + 1) (hdrop ▸ h.step hl) rfl
    rw [hdrop, getLast?_before (s := [c]) hs (by simp)] at hlater
    rw [Body.scan_of_not_isStop h hstop]
    exact hlater
  have hsame {d : Char} (hd : IsWide d) : depthAfter depth d = depth := by
    simp [depthAfter, onlyAscii_isOpener _ hd, onlyAscii_isCloser _ hd]
  cases t.place i
  case past hi hc _ =>
    rw [Text.dropBytes_of_size_le hi, scanFrom]
    split
    case h_1 => rfl
    case h_2 hd => simp [hd] at hc
  case inside d hi hs hc hd hr =>
    have hnone : literalEnd? t i = none := by simp [literalEnd?, hs]
    rw [← hr] at h ⊢
    rw [scanFrom_next hc hnone (by simp [hd.ne]) (by simp [onlyAscii_isStart _ hd]), hsame hd]
    exact ih _ (by omega) depth (i + 1) h rfl
  case wide c d rest hx hs hc hd =>
    have hl : literal? (c :: rest) = none := literal?_of_wide hx
    have hnone : literalEnd? t i = none := by rw [literalEnd?_eq hs, hl]; rfl
    rw [Text.dropBytes_of_suffix? hs] at h ⊢
    rw [scanFrom_next hc hnone (by simp [hd.ne]) (by simp [onlyAscii_isStart _ hd]),
      hsame hd, ← hsame hx]
    exact hnext hs h hl (not_isStop_of_isWide hx _ _ _)
  case ascii c rest hx hs hc =>
    rw [Text.dropBytes_of_suffix? hs] at h ⊢
    cases hl : literal? (c :: rest)
    case some p =>
      obtain ⟨literal, after⟩ := p
      obtain ⟨hlt, hafter⟩ := literal_next hs hl
      have hle := Text.add_size_of_suffix? hafter
      have houtside : IsOutside (List.replicate depth .group) depth
          (t.dropBytes (i + literal.size)) :=
        .inl rfl
      have hlater := ih _ (by omega) depth (i + literal.size) houtside rfl
      have hlast :=
        getLast?_before (hs.trans (congrArg some (literal?_append hl))) (literal_ne_nil hl)
      rw [Text.dropBytes_of_suffix? hafter, hlast] at hlater
      rw [scanFrom_literal hs hl, hlater, Body.scan_literal h hl]
    case none =>
      have hnone : literalEnd? t i = none := by rw [literalEnd?_eq hs, hl]; rfl
      by_cases hstop : Body.IsStop (t.before (c :: rest)).getLast? depth (c :: rest) []
      case pos => exact scanFrom_stop hs h hstop
      case neg =>
        by_cases hstart : Identifier.isStart c
        case neg =>
          have hbrace : ¬(c = '}' ∧ depth = 0) := by
            rintro ⟨rfl, rfl⟩
            exact hstop (Body.isStop_nil_iff.mpr ⟨rfl, .inl ⟨rest, rfl⟩⟩)
          rw [scanFrom_next hc hnone hbrace hstart]
          exact hnext hs h hl hstop
        case pos =>
          obtain ⟨within', hw, hscan⟩ := scan_identifier h hstart hstop
          obtain ⟨hlt, hafter⟩ := name_next hs hstart
          have hle := Text.add_size_of_suffix? hafter
          have hlater := ih _ (by omega) depth _ (Text.dropBytes_of_suffix? hafter ▸ hw) rfl
          have hlast := getLast?_before (suffix?_split hs) (by simp [Identifier.split, hstart])
          rw [Text.dropBytes_of_suffix? hafter, hlast] at hlater
          rw [scanFrom_name hs hstart (callAt_of_not_isStop hs hstop), hscan, ← hlater]
          rfl

end Scan

section Ending

variable {t u space inside brace : Text} {accept : Nat → Checked Bool} {test : Text → Bool}
  {i k : Nat}

theorem firstAccepted_eq {f : Nat → Bool} {l : List Nat} (h : ∀ n ∈ l, accept n = .ok (f n)) :
    firstAccepted accept l = .ok (l.find? f) := by
  induction l
  case nil => rfl
  case cons n l ih =>
    have ⟨hn, hl⟩ := List.forall_mem_cons.mp h
    rw [firstAccepted, hn, ok_bind, ih hl]
    cases hf : f n <;> simp [hf]

theorem suffix?_of_mem_offsets {p : Text → Bool} {n : Nat} (h : n ∈ offsets p u)
    (hs : t.suffix? i = some u) : ∃ v, t.suffix? (i + n) = some v ∧ v <:+ u ∧ p v := by
  induction u generalizing i n
  case nil => simp [offsets] at h
  case cons c u ih =>
    rw [offsets, List.mem_append] at h
    rcases h with h | h
    case inl =>
      split_ifs at h with hp
      · cases List.mem_singleton.mp h
        exact ⟨c :: u, hs, List.suffix_refl _, hp⟩
      · simp at h
    case inr =>
      obtain ⟨m, hm, rfl⟩ := List.mem_map.mp h
      obtain ⟨v, hv, hsuffix, hp⟩ := ih hm (Text.suffix?_next hs)
      exact ⟨v, by rw [← hv, Nat.add_assoc], hsuffix.trans (List.suffix_cons c u), hp⟩

theorem find?_offsets (hs : t.suffix? i = some u) :
    ((offsets (·.head? = some '}') u).reverse.map (i + ·)).find? (fun n => (t.suffix? n).any test) =
      (Body.lastBrace? test u).map t.offset := by
  induction u generalizing i
  case nil => rfl
  case cons c u ih =>
    have hreverse : (offsets (·.head? = some '}') (c :: u)).reverse.map (i + ·) =
        (offsets (·.head? = some '}') u).reverse.map (i + c.utf8Size + ·) ++
        (if c = '}' then [i] else []) := by
      by_cases hc : c = '}'
      case pos => simp [offsets, hc, Function.comp_def, Nat.add_assoc]
      case neg => simp [offsets, hc, Function.comp_def, Nat.add_assoc]
    have hlast : (if c = '}' then [i] else []).find? (fun n => (t.suffix? n).any test) =
        (if c = '}' && test (c :: u) then some (c :: u) else none).map t.offset := by
      by_cases hc : c = '}'
      case neg => simp [hc]
      case pos =>
        cases htest : test (c :: u)
        case false => simp [hc, hc ▸ hs, hc ▸ htest]
        case true => simp [hc, hc ▸ hs, hc ▸ htest, Text.offset_of_suffix? (hc ▸ hs)]
    rw [hreverse, List.find?_append, ih (Text.suffix?_next hs), hlast, Body.lastBrace?]
    cases Body.lastBrace? test u <;> simp

theorem argument?_call (hs : ∀ c ∈ space, isSpace c) (u : Text) :
    argument? ("render".toList ++ (space ++ '(' :: u)) = Body.argument? u := by
  have hblank : ∀ c ∈ space, isBlank c := fun c hc => isBlank_of_isSpace (hs c hc)
  have htrim : Text.trimStart (space ++ '(' :: u) = '(' :: u := Text.trimStart_append hblank rfl
  simp only [argument?, Text.stripStart?_append, Option.bind_eq_bind, Option.bind_some, htrim]

theorem slice_call (hk : t.suffix? k = some ("render".toList ++ (space ++ '(' :: inside)))
    (hb : brace <:+ inside) :
    slice t k (t.offset brace) = .ok ("render".toList ++
      (space ++ '(' :: inside.before brace)) := by
  obtain ⟨u, rfl⟩ := hb
  have hcall : "render".toList ++ (space ++ '(' :: (u ++ brace)) =
      ("render".toList ++ (space ++ '(' :: u)) ++ brace := by simp
  rw [hcall] at hk
  rw [Text.before_append, Text.offset_of_suffix? (Text.suffix?_add_size hk), slice_eq hk]

theorem endsCall_eq (hk : t.suffix? k = some ("render".toList ++ (space ++ '(' :: inside)))
    (hs : ∀ c ∈ space, isSpace c) (hb : brace <:+ inside) :
    endsCall t k (t.offset brace) = .ok (Body.argument? (inside.before brace)).isSome := by
  rw [endsCall, slice_call hk hb, ok_bind, argument?_call hs, pure_eq_ok]

theorem suffix?_inside (hk : t.suffix? k = some ("render".toList ++ (space ++ '(' :: inside))) :
    t.suffix? (t.offset inside - 1) = some ('(' :: inside) ∧
    t.offset inside - 1 + 1 = t.offset inside := by
  have hcall : "render".toList ++ (space ++ '(' :: inside) =
      ("render".toList ++ space) ++ '(' :: inside := by simp
  rw [hcall] at hk
  have hparen := Text.suffix?_add_size hk
  have hoffset := Text.offset_of_suffix? (Text.suffix?_succ (by decide) hparen)
  rw [hoffset]
  exact ⟨hparen, rfl⟩

theorem bodyEnd_eq (hk : t.suffix? k = some ("render".toList ++ (space ++ '(' :: inside)))
    (hs : ∀ c ∈ space, isSpace c)
    (htest : ∀ brace, test brace = (Body.argument? (inside.before brace)).isSome) :
    bodyEnd t k (t.offset inside - 1) =
      .ok (((Markup.close? test 0 inside).or (Body.lastBrace? test inside)).map t.offset) := by
  obtain ⟨hparen, hnext⟩ := suffix?_inside hk
  have hinside : t.suffix? (t.offset inside) = some inside :=
    hnext ▸ Text.suffix?_succ (by decide) hparen
  have haccept {j : Nat} {brace : Text} (hj : t.offset inside ≤ j) (hb : t.suffix? j = some brace) :
      endsCall t k j = .ok (test brace) := by
    rw [htest, ← Text.offset_of_suffix? hb]
    exact endsCall_eq hk hs (Text.suffix_of_suffix? hinside hb hj)
  have hclose := @closeAt_eq t test (endsCall t k) _ fun j rest hj hb => haccept hj hb
  rw [bodyEnd, hnext, hclose, ok_bind, Text.dropBytes_of_suffix? hinside]
  cases Markup.close? test 0 inside
  case some brace => rfl
  case none =>
    have hbraces : ∀ n ∈ (offsets (·.head? = some '}') ('(' :: inside)).reverse.map (t.offset
        inside - 1 + ·), endsCall t k n = .ok ((t.suffix? n).any test) := by
      intro n hn
      obtain ⟨m, hm, rfl⟩ := List.mem_map.mp hn
      obtain ⟨v, hv, _, hbrace⟩ := suffix?_of_mem_offsets (List.mem_reverse.mp hm) hparen
      have hpos : m ≠ 0 := by
        rintro rfl
        cases hparen.symm.trans hv
        simp at hbrace
      rw [hv]
      exact haccept (by omega) hv
    have hlast : Body.lastBrace? test ('(' :: inside) = Body.lastBrace? test inside := by
      simp [Body.lastBrace?]
    simp only [Option.map_none, sliceFrom_eq hparen, ok_bind, Option.none_or]
    rw [firstAccepted_eq hbraces, find?_offsets hparen, hlast]

theorem ended_accepts (h : (Markup.close? test 0 inside).or (Body.lastBrace? test inside) =
      some brace) :
    test brace ∧ brace <:+ inside := by
  rcases Option.or_eq_some_iff.mp h with hclose | ⟨_, hlast⟩
  case inl => exact Markup.close?_accepts hclose
  case inr =>
    have ⟨htest, hsuffix, _⟩ := Body.lastBrace?_accepts hlast
    exact ⟨htest, hsuffix⟩

end Ending

theorem split_eq {t statements : Text} {start : Nat} (hs : t.suffix? start = some statements) :
    split t start = done (Body.split t start) := by
  have hdrop := Text.dropBytes_of_suffix? hs
  have hscan := @scanFrom_eq [] t 0 start (.inl rfl)
  rw [hdrop] at hscan
  have hfinds : Body.Finds (t.before statements).getLast? 0 statements
      (Body.scan (t.before statements).getLast? [] statements) := Body.scan_finds (.inl rfl)
  rw [split, hscan, lift_bind, Body.split, hdrop]
  generalize Body.scan (t.before statements).getLast? [] statements = stop at hfinds
  cases hfinds
  case nothing => rfl
  case brace =>
    simp only [placeIn]
    split_ifs <;> rfl
  case call prelude space inside hcall _ =>
    have hstatements := hcall.outside.eq_append
    have hsplit := hs.trans (congrArg some hstatements)
    have hk := Text.suffix?_add_size hsplit
    have hoffset := Text.offset_of_suffix? hk
    simp only [placeIn, hoffset]
    rw [bodyEnd_eq hk hcall.isSpace fun _ => rfl, lift_bind]
    cases hfound : (Markup.close? (fun brace => (Body.argument? (inside.before brace)).isSome) 0
      inside).or
      (Body.lastBrace? (fun brace => (Body.argument? (inside.before brace)).isSome) inside)
    case none =>
      have hcontains : List.contains ('(' :: inside) '}' = inside.contains '}' := by simp
      simp only [Option.map_none, Option.bind_none, sliceFrom_eq (suffix?_inside hk).left,
        lift_bind, hcontains]
      split_ifs <;> rfl
    case some brace =>
      obtain ⟨haccepts, hbrace⟩ := ended_accepts hfound
      obtain ⟨argument, hargument⟩ := Option.isSome_iff_exists.mp haccepts
      have hprelude : statements.before ("render".toList ++ (space ++ '(' :: inside)) =
          prelude := by
        rw [hstatements, Text.before_append]
      simp only [Option.map_some, Option.bind_some, slice_call hk hbrace,
        lift_bind, slice_eq hsplit, argument?_call hcall.isSpace, hargument, hprelude,
        Option.getD_some, pure_eq_done]

end Componentry.Cursor
