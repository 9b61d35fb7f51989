import Componentry.Proofs.Static.Sums

/-!
Choices. The text of a choice is cut at its question mark and its colon, and where the chosen branch
is known the choice has its value. Otherwise the text is read in other ways, as an operation on
parts of the choice, and such a part has a value only where the condition lets it: firm conditions
do not.
-/
namespace Componentry.Static

def choiceSigns : List Char :=
  ['?', ':', ';']

def selected (holds : Option Bool) (yes no : Option Text) : Option Text :=
  holds.bind fun b => if b then yes else no

section Texts

variable {inside : Text → Prop} {absent : List Char} {c w p q : Text}

theorem part_choice (hc : Part inside choiceSigns c) (hw : Part (fun _ => True) absent w)
    (ha : ∀ d ∈ absent, d ∈ choiceSigns) (hq : '?' ∉ absent) :
    Part (fun _ => True) absent (c ++ '?' :: w) := by
  have hquestion : Part (fun _ => True) absent ['?'] :=
    .of_bare (List.forall_mem_singleton.mpr rfl) fun d hd hm => hq (List.mem_singleton.mp hm ▸ hd)
  exact (hc.mono ha).weaken.append (hquestion.append hw)

theorem part_branches (hp : Part inside choiceSigns p) (hq : Part inside choiceSigns q) :
    Part inside ['?', ';'] (p ++ ':' :: q) := by
  have hcolon : Part inside ['?', ';'] [':'] :=
    .of_bare (List.forall_mem_singleton.mpr rfl) (by simp)
  have hfewer : ∀ d ∈ ['?', ';'], d ∈ choiceSigns := by simp [choiceSigns]
  exact (hp.mono hfewer).append (hcolon.append (hq.mono hfewer))

theorem statement_choice (hc : Part inside choiceSigns c) (hw : Part (fun _ => True) [';'] w) :
    statement (c ++ '?' :: w) = c.trimStart ++ '?' :: w.trimEnd := by
  have hpart := part_choice hc hw (by simp [choiceSigns]) (by simp)
  rw [hpart.statement_eq List.mem_cons_self, Text.trim_append_cons _ _ rfl]

theorem parenthesized?_choice (hc : Part IsEven choiceSigns c) (w : Text) :
    parenthesized? (c ++ '?' :: w) = none :=
  hc.balanced.parenthesized?_append (by simp) (by simp)

theorem ternary?_choice (hc : Part inside choiceSigns c) (hp : Part (fun _ => True) choiceSigns p)
    (hd : p.head? ≠ some '.') (q : Text) : ternary? (c ++ '?' :: (p ++ ':' :: q)) =
      some (c, p, q) := by
  have hmem : '?' ∈ choiceSigns ∧ ':' ∈ choiceSigns := by simp [choiceSigns]
  have hbefore : ∀ x ∈ (places c).map (Place.extend ('?' :: (p ++ ':' :: q))),
      (!ternary?.isQuestion x) = true := by
    rw [List.forall_mem_map]
    intro x hx
    have hn := hc.lacks x hx '?' hmem.left
    rw [← head?_after_extend hx ('?' :: (p ++ ':' :: q))] at hn
    simp [ternary?.isQuestion, hn]
  have hquestion : ternary?.isQuestion ⟨c.reverse, '?' :: (p ++ ':' :: q)⟩ = true := by
    have hlast := hc.getLast?_ne hmem.left rfl
    have hfirst := hp.head?_ne hmem.left rfl
    cases p <;> simp_all [ternary?.isQuestion]
  have hbranch : ((places p).map (Place.extend (':' :: q))).find?
      (fun x => x.after.head? = some ':') = none := by
    rw [List.find?_eq_none, List.forall_mem_map]
    intro x hx
    rw [head?_after_extend hx]
    simpa using hp.lacks x hx ':' hmem.right
  have hcolon : (places (p ++ ':' :: q)).find? (fun x => x.after.head? = some ':') =
      some ⟨p.reverse, ':' :: q⟩ := by
    rw [hp.balanced.places_append_cons rfl, List.find?_append, hbranch, Option.none_or,
      List.find?_cons_of_pos (by simp)]
  have hlater : ((places (p ++ ':' :: q)).map (Place.behind (c ++ ['?']))).find?
      (fun x => x.after.head? = some ':') =
        some (Place.behind (c ++ ['?']) ⟨p.reverse, ':' :: q⟩) := by
    rw [List.find?_map]
    exact congrArg (Option.map _) hcolon
  have htake : ((p.reverse ++ (c ++ ['?']).reverse).take
      ((p.reverse ++ (c ++ ['?']).reverse).length - c.reverse.length - 1)).reverse = p := by
    have hlength : (p.reverse ++ (c ++ ['?']).reverse).length - c.reverse.length - 1 =
        p.reverse.length := by
      simp only [List.length_append, List.length_reverse, List.length_singleton]
      omega
    rw [hlength, List.take_left, List.reverse_reverse]
  rw [ternary?, hc.balanced.places_append_cons rfl, List.dropWhile_append_of_pos hbefore,
    List.dropWhile_cons_of_neg (by simp [hquestion])]
  dsimp only
  rw [hlater, Option.map_some, List.reverse_reverse, Place.behind, htake, List.tail_cons]

end Texts

def start? (scope : Scope) (t : Text) : Option Text :=
  if t.head? = some '!' then (eval scope t.tail).map fun value => ofBool (!isTruthy value)
  else leaf scope t

def operation? (scope : Scope) (t : Text) : Option Text :=
  (loosest? t).elim ((total? scope (summands? t)).or (start? scope t)) fun parts =>
    (eval scope parts.2.1).bind fun l => parts.1.combine? l (eval scope parts.2.2)

section Forms

variable {scope : Scope} {s t c w p q value : Text}

theorem eval_eq_operation? (ht : statement t = s) (hs : s ≠ []) (hp : parenthesized? s = none) :
    eval scope t = (chosen? scope (ternary? s)).or (operation? scope s) := by
  obtain ⟨c, rest, rfl⟩ := List.exists_cons_of_ne_nil hs
  rw [eval_eq ht hp, operation?, start?]
  simp

theorem chosen?_eq_selected :
    chosen? scope (some (c, p, q)) = selected (condition scope c) (eval scope p)
    (eval scope q) := by
  rw [chosen?, condition, selected]
  cases eval scope c <;> rfl

theorem condition_trimStart (c : Text) : condition scope c.trimStart = condition scope c := by
  rw [condition, eval_trimStart, condition]

theorem eval_choice (hc : Part IsEven choiceSigns c) (hp : Part (fun _ => True) choiceSigns p)
    (hd : p.head? ≠ some '.') (hq : Part (fun _ => True) choiceSigns q) :
    eval scope (c ++ '?' :: (p ++ ':' :: q)) =
      (selected (condition scope c) (eval scope p) (eval scope q)).or
        (operation? scope (c.trimStart ++ '?' :: (p ++ ':' :: q.trimEnd))) := by
  have hw : Part (fun _ => True) [';'] (p ++ ':' :: q) := (part_branches hp hq).mono (by simp)
  have hcolon : isBlank ':' = false := rfl
  have hst := statement_choice hc hw
  rw [Text.trimEnd_append_cons _ _ hcolon] at hst
  rw [eval_eq_operation? hst (by simp) (parenthesized?_choice hc.trimStart _),
    ternary?_choice hc.trimStart hp hd, chosen?_eq_selected, condition_trimStart, eval_trimEnd]

theorem eval_branch (hc : Part IsEven choiceSigns c) (hw : Part (fun _ => True) choiceSigns w) :
    eval scope (c ++ '?' :: w) = operation? scope (c.trimStart ++ '?' :: w.trimEnd) := by
  have hst := statement_choice hc (hw.mono (by simp [choiceSigns]))
  have hpart : Part (fun _ => True) [':'] (c.trimStart ++ '?' :: w.trimEnd) :=
    part_choice hc.trimStart (hw.trimEnd.mono (by simp [choiceSigns])) (by simp [choiceSigns])
      (by simp)
  rw [eval_eq_operation? hst (by simp) (parenthesized?_choice hc.trimStart _),
    hpart.ternary?_eq_none (.inr List.mem_cons_self)]
  rfl

end Forms

-- A text that can be the start of one string, whatever follows up to a quote.
def OpensString (t : Text) : Prop :=
  ∃ q, isQuote q ∧ t.head? = some q ∧ (q = '\x60' → hasSubstitution t = false)

-- The last part of a condition, with which its question mark goes when it is taken apart, and which
-- is evaluated because the parts before it are known.
inductive LastPart (scope : Scope) (c : Text) : Text → Prop
  | operand {operator : Operator} {left value r : Text}
    (hs : loosest? (statement (c ++ ['?'])) = some (operator, left, r ++ ['?']))
    (hl : eval scope left = some value) : LastPart scope c r
  | summand {operands : List Text} {r : Text} (hn : loosest? (statement (c ++ ['?'])) = none)
    (hs : summands? (statement (c ++ ['?'])) = some (operands ++ [r ++ ['?']]))
    (hk : none ∉ operands.map (eval scope)) : LastPart scope c r
  | negated {r : Text} (hn : loosest? (statement (c ++ ['?'])) = none)
    (hs : statement (c ++ ['?']) = '!' :: (r ++ ['?'])) : LastPart scope c r

-- No operator of a condition has a value without its right operand, and the condition is not the
-- start of a string.
structure Steady (scope : Scope) (c : Text) : Prop where
  operator : ∀ {operator left right value},
    loosest? (statement (c ++ ['?'])) = some (operator, left, right) →
    eval scope left = some value →
      operator.combine? value none = none
  literal : loosest? (statement (c ++ ['?'])) = none → ¬OpensString (statement (c ++ ['?']))

-- A condition that is steady and that holds just as its last part does, down to the last part of
-- all.
inductive Firm (scope : Scope) : Text → Prop
  | intro {c : Text} (steady : Steady scope c)
    (same : ∀ r, LastPart scope c r → condition scope r = condition scope c)
    (last : ∀ r, LastPart scope c r → Firm scope r) : Firm scope c

section Parts

variable {scope : Scope} {c r x : Text}

theorem statement_question (hc : Part IsEven choiceSigns c) :
    statement (c ++ ['?']) = c.trimStart ++ ['?'] :=
  statement_choice hc ⟨.nil, by simp [places, places.go]⟩

theorem balanced_question (hc : Part IsEven choiceSigns c) :
    Balanced IsEven (c.trimStart ++ ['?']) :=
  hc.trimStart.balanced.append (.bare rfl .nil)

theorem exists_question_of_loosest? {operator : Operator} {left right : Text}
    (h : loosest? (c ++ ['?']) = some (operator, left, right)) : ∃ r, right = r ++ ['?'] := by
  obtain ⟨p, hp, _, ha, _, _, hn⟩ := exists_place_of_loosestAt? h
  have hne : right ≠ [] := by
    rintro rfl
    cases hn
  have hlast : (c ++ ['?']).getLast? = some '?' := List.getLast?_concat
  rw [← before_append_after hp, List.getLast?_append_of_ne_nil _ (after_ne_nil hp), ha,
    List.getLast?_append_of_ne_nil _ hne] at hlast
  exact List.getLast?_eq_some_iff.mp hlast

theorem exists_question_of_pieces {init : List Text} {last : Text} (hn : pluses (c ++ ['?']) ≠ [])
    (h : pieces (c ++ ['?']) = init ++ [last]) : ∃ r, last = r ++ ['?'] := by
  obtain ⟨p, hp, ha⟩ := exists_last_plus hn h
  have hlast : (c ++ ['?']).getLast? = some '?' := List.getLast?_concat
  rw [← before_append_after hp, List.getLast?_append_of_ne_nil _ (after_ne_nil hp), ha] at hlast
  cases last
  case nil => simp at hlast
  case cons => exact List.getLast?_eq_some_iff.mp hlast

theorem Part.of_place {absent : List Char} {p : Place} (hc : Part IsEven absent c)
    (hp : p ∈ places (c ++ ['?'])) (ha : p.after = x ++ (r ++ ['?'])) (hx : ∀ d ∈ x, isBare d)
    (hn : x ≠ []) : Part IsEven absent r ∧ r.length < c.length := by
  have hquestion : ∀ d ∈ ['?'], isBare d := List.forall_mem_singleton.mpr rfl
  have hcut : c = p.before.reverse ++ (x ++ r) := by
    have hs := before_append_after hp
    rw [ha, ← List.append_assoc, ← List.append_assoc] at hs
    simpa using (List.append_inj' hs rfl).left.symm
  obtain ⟨hbefore, hafter⟩ := (hc.balanced.append (.of_bare hquestion)).of_mem_places hp
  rw [ha, ← List.append_assoc] at hafter
  have hpart := (Part.append_iff hbefore (hafter.of_append_left hquestion)).mp (hcut ▸ hc)
  refine ⟨hpart.right.of_append_right hx, ?_⟩
  have hl := congrArg List.length hcut
  have hpos := List.length_pos_iff.mpr hn
  simp only [List.length_append] at hl
  omega

theorem LastPart.part (h : LastPart scope c r) (hc : Part IsEven choiceSigns c) :
    Part IsEven choiceSigns r ∧ r.length < c.length := by
  have hshort {r : Text} (h : Part IsEven choiceSigns r ∧ r.length < c.trimStart.length) :
      Part IsEven choiceSigns r ∧ r.length < c.length :=
    ⟨h.left, Nat.lt_of_lt_of_le h.right c.length_trimStart_le⟩
  have hst := statement_question hc
  cases h with
  | operand hs hl =>
    rw [hst] at hs
    obtain ⟨p, hp, _, ha, hne, hb, _⟩ := exists_place_of_loosestAt? hs
    exact hshort (hc.trimStart.of_place hp ha hb hne)
  | summand hn hs =>
    rw [hst, summands?_eq] at hs
    split at hs
    case isTrue => cases hs
    case isFalse hplus =>
      obtain ⟨p, hp, ha⟩ := exists_last_plus hplus (Option.some.inj hs)
      have hbare : ∀ d ∈ ['+'], isBare d := List.forall_mem_singleton.mpr rfl
      exact hshort (hc.trimStart.of_place hp ha hbare (List.cons_ne_nil '+' []))
  | negated hn hs =>
    rw [hst] at hs
    have hbare : ∀ d ∈ ['!'], isBare d := List.forall_mem_singleton.mpr rfl
    have hp : ⟨[], '!' :: (r ++ ['?'])⟩ ∈ places (c.trimStart ++ ['?']) := by
      rw [hs, places_bare rfl]
      exact List.mem_cons_self
    exact hshort (hc.trimStart.of_place hp rfl hbare (List.cons_ne_nil '!' []))

end Parts

-- What can follow a question mark so that the choice has no value: a part of the first branch, or
-- branches of which the selected one has no value.
inductive Open (scope : Scope) (holds : Option Bool) : Text → Prop
  | branch {w : Text} (hw : Part (fun _ => True) choiceSigns w) : Open scope holds w
  | branches {p q : Text} (hp : Part (fun _ => True) choiceSigns p) (hd : p.head? ≠ some '.')
    (hq : Part IsEven choiceSigns q) (hs : StartsOperand q)
    (hn : selected holds (eval scope p) (eval scope q) = none) : Open scope holds (p ++ ':' :: q)

namespace Open

variable {scope : Scope} {holds : Option Bool} {c w left right : Text} {operator : Operator}

theorem trimEnd (h : Open scope holds w) : Open scope holds w.trimEnd := by
  cases h with
  | branch hw => exact .branch hw.trimEnd
  | @branches p q hp hd hq hs hn =>
    have hcolon : isBlank ':' = false := rfl
    obtain ⟨s, hq', _⟩ := q.exists_trimEnd
    rw [Text.trimEnd_append_cons _ _ hcolon]
    exact .branches hp hd hq.trimEnd (hq' ▸ hs).of_append (by rwa [eval_trimEnd])

theorem eval_eq (h : Open scope (condition scope c) w) (hc : Part IsEven choiceSigns c) :
    eval scope (c ++ '?' :: w) = operation? scope (c.trimStart ++ '?' :: w.trimEnd) := by
  cases h with
  | branch hw => exact eval_branch hc hw
  | branches hp hd hq hs hn =>
    have hcolon : isBlank ':' = false := rfl
    rw [eval_choice hc hp hd hq.weaken, hn, Option.none_or, Text.trimEnd_append_cons _ _ hcolon]

end Open

theorem eval_of_places {scope : Scope} {t : Text} (h : Part IsEven choiceSigns t)
    (hp : places t.trim ≠ []) : eval scope t = operation? scope t.trim := by
  have hst := h.statement_eq (by simp [choiceSigns])
  have htrim : Part IsEven choiceSigns t.trim := h.trimStart.trimEnd
  have hne : t.trim ≠ [] := by
    intro hn
    exact hp (by rw [hn]; rfl)
  have hparen : parenthesized? t.trim = none := by
    rw [Option.eq_none_iff_forall_ne_some]
    exact fun inner hi => hp (htrim.balanced.places_of_parenthesized? hi)
  rw [eval_eq_operation? hst hne hparen, htrim.ternary?_eq_none (.inl (by simp [choiceSigns]))]
  rfl

section Branches

variable {inside : Text → Prop} {s p q left right : Text} {operator : Operator}

theorem part_gap {t : Text} (h : ∀ d ∈ t, d ∈ '?' :: ':' :: blanks) :
    Part inside ('+' :: operatorSigns) t := by
  have hbare : ('?' :: ':' :: blanks).all isBare := by decide
  have hsigns : ('?' :: ':' :: blanks).all fun d => !(List.contains ('+' :: operatorSigns) d) := by
    decide
  refine .of_bare (fun d hd => List.all_eq_true.mp hbare d (h d hd)) fun d hd hm => ?_
  have hn := List.all_eq_true.mp hsigns d (h d hm)
  rw [List.contains_iff_mem.mpr hd] at hn
  cases hn

theorem map_behind_places_branches (hp : Balanced inside p) (s q : Text) : ∃ gap : List Place,
    (∀ x ∈ gap, ∀ d ∈ operatorSigns, x.after.head? ≠ some d) ∧
    (places (p ++ ':' :: q)).map (Place.behind s) =
      ((places p).map (Place.extend (':' :: q))).map (Place.behind s) ++
        (gap ++ (places q.trimStart).map (Place.behind
          (s ++ (p ++ ':' :: q.takeWhile isBlank)))) := by
  have hblank : ∀ d ∈ q.takeWhile isBlank, isBlank d := fun _ hd => List.mem_takeWhile_imp hd
  have hgap : Part (fun _ => True) ('+' :: operatorSigns) (':' :: q.takeWhile isBlank) := by
    refine part_gap (List.forall_mem_cons.mpr ⟨by decide, fun d hd => ?_⟩)
    exact List.mem_cons_of_mem _ (List.mem_cons_of_mem _ (mem_blanks (hblank d hd)))
  have hq : ':' :: q.takeWhile isBlank ++ q.trimStart = ':' :: q :=
    congrArg (':' :: ·) List.takeWhile_append_dropWhile
  have hplaces := hgap.balanced.places_append q.trimStart
  rw [hq] at hplaces
  refine ⟨(((places (':' :: q.takeWhile isBlank)).map (Place.extend q.trimStart)).map
    (Place.behind p)).map
    (Place.behind s), ?_, ?_⟩
  · simp only [List.forall_mem_map, Place.after_behind]
    intro x hx
    rw [head?_after_extend hx]
    exact fun d hd => hgap.lacks x hx d (List.mem_cons_of_mem '+' hd)
  · rw [hp.places_append, hplaces]
    simp [Function.comp_def]

-- An operator among two branches has its left operand in the first, or belongs to the second.
theorem loosestAt?_branches (hp : Balanced inside p) (hq : StartsOperand q)
    (h : loosestAt? ((places (p ++ ':' :: q)).map (Place.behind s)) =
      some (operator, left, right)) :
    (∃ x ∈ places p, left = s ++ x.before.reverse) ∨ ∃ l,
      loosest? q.trimStart = some (operator, l, right) ∧
        left = s ++ (p ++ ':' :: q.takeWhile isBlank) ++ l := by
  obtain ⟨gap, hgap, hplaces⟩ := map_behind_places_branches hp s q
  rw [hplaces] at h
  rcases loosestAt?_append_eq_some h with h | h
  case inl =>
    obtain ⟨x, hx, hl, _⟩ := exists_place_of_loosestAt? h
    simp only [List.mem_map, exists_exists_and_eq_and] at hx
    obtain ⟨y, hy, rfl⟩ := hx
    exact .inl ⟨y, hy, by rw [← hl, Place.reverse_before_behind]; rfl⟩
  case inr =>
    rcases loosestAt?_append_eq_some h with h | h
    case inl =>
      rw [loosestAt?_eq_none_of_lacks hgap] at h
      cases h
    case inr =>
      rw [loosestAt?_behind_of_starts hq.trimStart (Text.head?_dropWhile isBlank q)] at h
      obtain ⟨⟨o, l, r⟩, hf, he⟩ := Option.map_eq_some_iff.mp h
      simp only [Prod.mk.injEq] at he
      obtain ⟨rfl, rfl, rfl⟩ := he
      exact .inr ⟨l, hf, rfl⟩

theorem loosest?_of_branches (hp : Balanced inside p) (hq : StartsOperand q)
    (h : loosestAt? ((places (p ++ ':' :: q)).map (Place.behind s)) = none) :
    loosest? q.trimStart = none := by
  obtain ⟨gap, _, hplaces⟩ := map_behind_places_branches hp s q
  rw [hplaces] at h
  simp only [loosestAt?_eq_none_iff, List.forall_mem_append] at h
  have hn := loosestAt?_eq_none_iff.mpr h.right.right
  rw [loosestAt?_behind_of_starts hq.trimStart (Text.head?_dropWhile isBlank q),
    Option.map_eq_none_iff] at hn
  exact hn

end Branches

section Open

variable {scope : Scope} {holds : Option Bool} {c w left right p q value : Text}
  {operator : Operator}

theorem selected_eq_some (hn : selected holds (eval scope p) (eval scope q) = none)
    {other : Option Text}
    (hs : selected holds (eval scope p) other = some value) :
    eval scope q = none ∧ other = some value := by
  cases holds with
  | none => cases hs
  | some b =>
    cases b with
    | false => exact ⟨hn, hs⟩
    | true =>
      rw [selected, Option.bind_some, if_pos rfl] at hn hs
      rw [hn] at hs
      cases hs

theorem trimEnd_of_branches (h : Text.trimEnd (p ++ ':' :: q) = p ++ ':' :: q) : q.trimEnd = q := by
  have hcolon : isBlank ':' = false := rfl
  rw [Text.trimEnd_append_cons _ _ hcolon] at h
  exact (List.cons.inj (List.append_cancel_left h)).right

-- An operator of the second branch has no value in the choice, if the shorter choice that is its
-- left operand there has none.
theorem combine?_second_eq_none {l : Text} (hc : Part IsEven choiceSigns c)
    (hp : Part (fun _ => True) choiceSigns p) (hd : p.head? ≠ some '.')
    (hq : Part IsEven choiceSigns q)
    (hs : StartsOperand q) (hn : selected (condition scope c) (eval scope p) (eval scope q) = none)
    (ht : q.trimEnd = q) (hf : loosest? q.trimStart = some (operator, l, right))
    (hshorter : ∀ v, v.length < q.length → Open scope (condition scope c) (p ++ ':' :: v) →
      eval scope (c ++ '?' :: (p ++ ':' :: v)) = none) :
    (eval scope (c ++ '?' :: (p ++ ':' :: (q.takeWhile isBlank ++ l)))).bind
      (fun l => operator.combine? l (eval scope right)) = none := by
  obtain ⟨x, hx, hxl, _⟩ := exists_place_of_loosestAt? hf
  have hcut : q = (q.takeWhile isBlank ++ l) ++ x.after := by
    rw [← hxl, List.append_assoc, before_append_after hx]
    exact List.takeWhile_append_dropWhile.symm
  obtain ⟨hl, hafter⟩ := hq.trimStart.balanced.of_mem_places hx
  have hblank : Balanced IsEven (q.takeWhile isBlank) :=
    .of_bare fun d hd => isBare_of_isBlank (List.mem_takeWhile_imp hd)
  have hpart : Part IsEven choiceSigns (q.takeWhile isBlank ++ l) :=
    ((Part.append_iff (hblank.append (hxl ▸ hl)) hafter).mp (hcut ▸ hq)).left
  have hstarts : StartsOperand (q.takeWhile isBlank ++ l) := (hcut ▸ hs).of_append
  cases hsel : selected (condition scope c) (eval scope p) (eval scope (q.takeWhile isBlank ++ l))
  case none =>
    rw [hshorter _ ?_ (.branches hp hd hpart hstarts hsel), Option.bind_none]
    have hlength := congrArg List.length hcut
    have hpos := List.length_pos_iff.mpr (after_ne_nil hx)
    rw [List.length_append] at hlength
    omega
  case some value =>
    -- The operator is that of the second branch by itself, which has no value.
    obtain ⟨hnone, hvalue⟩ := selected_eq_some hn hsel
    rw [eval_append_left fun d hd => List.mem_takeWhile_imp hd] at hvalue
    have hplaces : places q.trim ≠ [] := by
      rw [Text.trim_eq_trimStart ht]
      exact List.ne_nil_of_mem hx
    rw [eval_of_places hq hplaces, Text.trim_eq_trimStart ht, operation?, hf, Option.elim_some,
      hvalue, Option.bind_some] at hnone
    rw [eval_choice hc hp hd hpart.weaken, hsel, Option.some_or, Option.bind_some]
    exact hnone

theorem Open.combine?_eq_none (h : Open scope (condition scope c) w)
    (hc : Part IsEven choiceSigns c)
    (ht : w.trimEnd = w)
    (hshorter : ∀ v, v.length < w.length → Open scope (condition scope c) v →
      eval scope (c ++ '?' :: v) = none)
    (hf : loosestAt? ((places w).map (Place.behind (c ++ ['?']))) = some (operator, left, right)) :
    (eval scope left).bind (fun l => operator.combine? l (eval scope right)) = none := by
  -- The left operand ends in the first branch.
  have hbranch {x : Place} {p : Text} (hp : Part (fun _ => True) choiceSigns p) (hx : x ∈ places p)
      (hw : p.length ≤ w.length) (hl : left = (c ++ ['?']) ++ x.before.reverse) :
      (eval scope left).bind (fun l => operator.combine? l (eval scope right)) = none := by
    have hshort : x.before.reverse.length < w.length := by
      have := length_before_lt hx
      rw [List.length_reverse]
      omega
    rw [hl, List.append_assoc, List.singleton_append,
      hshorter _ hshort (.branch (hp.of_mem_places hx).left), Option.bind_none]
  cases h with
  | branch hw =>
    obtain ⟨x, hx, hl, _⟩ := exists_place_of_loosestAt? hf
    obtain ⟨y, hy, rfl⟩ := List.mem_map.mp hx
    rw [Place.reverse_before_behind] at hl
    exact hbranch hw hy (Nat.le_refl _) hl.symm
  | @branches p q hp hd hq hs hn =>
    rcases loosestAt?_branches hp.balanced hs hf with ⟨x, hx, hl⟩ | ⟨l, hf, hl⟩
    case inl => exact hbranch hp hx (by simp) hl
    case inr =>
      have hchoice : left = c ++ '?' :: (p ++ ':' :: (q.takeWhile isBlank ++ l)) := by simp [hl]
      rw [hchoice]
      refine combine?_second_eq_none hc hp hd hq hs hn (trimEnd_of_branches ht) hf fun v hv ho => ?_
      exact hshorter _ (by simpa using hv) ho

theorem none_mem_of_eval_eq_none (hq : Part IsEven choiceSigns q) (ht : q.trimEnd = q)
    (hn : loosest? q.trimStart = none) (hplus : pluses q ≠ []) (he : eval scope q = none) :
    none ∈ (pieces q).map (eval scope) := by
  have hsplit : q.takeWhile isBlank ++ q.trimStart = q := List.takeWhile_append_dropWhile
  have hblank : ∀ d ∈ q.takeWhile isBlank, isBlank d := fun _ hd => List.mem_takeWhile_imp hd
  have hpluses : pluses q.trimStart ≠ [] := by
    have hbare : Balanced (fun _ => True) (q.takeWhile isBlank) :=
      .of_bare fun d hd => isBare_of_isBlank (hblank d hd)
    intro hnil
    have happend := hbare.pluses_append q.trimStart
    rw [hsplit, pluses_of_isBlank hblank, hnil] at happend
    exact hplus happend
  have hplaces : places q.trim ≠ [] := by
    rw [Text.trim_eq_trimStart ht]
    intro hnil
    exact hpluses (by simp [pluses, hnil])
  rw [eval_of_places hq hplaces, Text.trim_eq_trimStart ht, operation?, hn, Option.elim_none,
    Option.or_eq_none_iff, total?_eq_none_iff] at he
  rw [← hsplit, map_eval_pieces_left hblank]
  exact he.left.resolve_left hpluses

-- A second branch that is a sum without a value is open up to its first plus sign, or another of
-- its pieces has no value.
theorem open_first_piece {y : Place} {ys : List Place} {qs : List Text}
    (hp : Part (fun _ => True) choiceSigns p) (hd : p.head? ≠ some '.')
    (hq : Part IsEven choiceSigns q)
    (hs : StartsOperand q) (hn : selected holds (eval scope p) (eval scope q) = none)
    (ht : q.trimEnd = q) (hl : loosest? q.trimStart = none) (hplus : pluses q = y :: ys)
    (hpieces : pieces q = y.before.reverse :: qs) :
    Open scope holds (p ++ ':' :: y.before.reverse) ∨ none ∈ qs.map (eval scope) := by
  have hy := (pieces_eq_cons hplus).left
  cases hsel : selected holds (eval scope p) (eval scope y.before.reverse)
  case none =>
    rw [← before_append_after hy] at hs
    exact .inl (.branches hp hd (hq.of_mem_places hy).left hs.of_append hsel)
  case some value =>
    obtain ⟨hnone, hvalue⟩ := selected_eq_some hn hsel
    have hm := none_mem_of_eval_eq_none hq ht hl (by simp [hplus]) hnone
    rw [hpieces, List.map_cons, hvalue] at hm
    exact .inr (by simpa using hm)

theorem Open.first_piece {s first : Text} {more : List Text} (h : Open scope holds w)
    (ht : w.trimEnd = w) (hn : loosestAt? ((places w).map (Place.behind s)) = none)
    (hw : pieces w = first :: more) :
    pluses w = [] ∨ (first.length < w.length ∧ Open scope holds first) ∨
      none ∈ more.map (eval scope) := by
  by_cases hplus : pluses w = []
  case pos => exact .inl hplus
  case neg =>
    obtain ⟨x, xs, hx⟩ := List.exists_cons_of_ne_nil hplus
    obtain ⟨hmem, rest, hfirst⟩ := pieces_eq_cons hx
    obtain ⟨rfl, rfl⟩ := List.cons.inj (hw.symm.trans hfirst)
    have hshort : x.before.reverse.length < w.length := by
      rw [List.length_reverse]
      exact length_before_lt hmem
    refine .inr ?_
    cases h with
    | branch hpart => exact .inl ⟨hshort, .branch (hpart.of_mem_places hmem).left⟩
    | @branches p q hp hd hq hs hsel =>
      have hcolon : Balanced (fun _ => True) [':'] := .bare rfl .nil
      have hsingle : pluses [':'] = [] := rfl
      by_cases hpp : pluses p = []
      case neg =>
        obtain ⟨y, ys, hy⟩ := List.exists_cons_of_ne_nil hpp
        rw [hp.balanced.pluses_append, hy, List.map_cons, List.cons_append] at hx
        obtain ⟨rfl, _⟩ := List.cons.inj hx
        exact .inl ⟨hshort, .branch (hp.of_mem_places (pieces_eq_cons hy).left).left⟩
      case pos =>
        -- The first piece ends in the second branch.
        cases hq' : pluses q
        case nil =>
          rw [hp.balanced.pluses_append, ← List.singleton_append, hcolon.pluses_append, hpp,
            hsingle, hq'] at hx
          cases hx
        case cons y ys =>
          obtain ⟨_, qs, hpieces⟩ := pieces_eq_cons hq'
          have hlater := hcolon.pieces_append_single rfl hpieces
          have hall := hp.balanced.pieces_append_single (by simp [pieces, hpp, cutAt]) hlater
          obtain ⟨hx', rfl⟩ := List.cons.inj (hw.symm.trans hall)
          rw [List.singleton_append] at hx'
          rw [hx'] at hshort ⊢
          have hloosest := loosest?_of_branches hp.balanced hs hn
          exact (open_first_piece hp hd hq hs hsel (trimEnd_of_branches ht) hloosest
            hq' hpieces).imp_left
            fun ho => ⟨hshort, ho⟩

end Open

-- The choices that are parts of one have no value, where they are open.
structure Settled (scope : Scope) (c w : Text) : Prop where
  shorter : ∀ v, v.length < w.length → Open scope (condition scope c) v →
    eval scope (c ++ '?' :: v) = none
  last : ∀ r v, LastPart scope c r → v.length ≤ w.length → Open scope (condition scope c) v →
    eval scope (r ++ '?' :: v) = none

namespace Settled

variable {scope : Scope} {c w left right : Text} {operator : Operator}

theorem operator_eq_none (h : Settled scope c w) (hs : Steady scope c)
    (hc : Part IsEven choiceSigns c)
    (hw : Open scope (condition scope c) w) (ht : w.trimEnd = w)
    (hl : loosest? (c.trimStart ++ '?' :: w) = some (operator, left, right)) :
    (eval scope left).bind (fun l => operator.combine? l (eval scope right)) = none := by
  rw [← List.singleton_append, ← List.append_assoc] at hl
  rcases (balanced_question hc).loosest?_append hl with hl | hl
  case inl =>
    rw [loosestAt?_extend_question List.getLast?_concat] at hl
    obtain ⟨⟨o, l, r⟩, hf, he⟩ := Option.map_eq_some_iff.mp hl
    simp only [Prod.mk.injEq] at he
    obtain ⟨rfl, rfl, rfl⟩ := he
    obtain ⟨r, rfl⟩ := exists_question_of_loosest? hf
    rw [← statement_question hc] at hf
    cases hv : eval scope l
    case none => rfl
    case some value =>
      rw [Option.bind_some, List.append_assoc, List.singleton_append,
        h.last r w (.operand hf hv) (Nat.le_refl _) hw]
      exact hs.operator hf hv
  case inr =>
    rw [← condition_trimStart] at hw
    refine hw.combine?_eq_none hc.trimStart ht (fun v hv ho => ?_) hl
    rw [condition_trimStart] at ho
    rw [eval_trimStart_append, h.shorter v hv ho]

theorem total?_eq_none (h : Settled scope c w) (hc : Part IsEven choiceSigns c)
    (hw : Open scope (condition scope c) w) (ht : w.trimEnd = w)
    (hl : loosest? (c.trimStart ++ '?' :: w) = none) :
    total? scope (summands? (c.trimStart ++ '?' :: w)) = none := by
  rw [← List.singleton_append, ← List.append_assoc] at hl ⊢
  obtain ⟨hl, hlater⟩ := (balanced_question hc).loosest?_append_eq_none hl
  rw [loosestAt?_extend_question List.getLast?_concat, Option.map_eq_none_iff,
    ← statement_question hc] at hl
  obtain ⟨first, more, hfirst⟩ := List.exists_cons_of_ne_nil (pieces_ne_nil w)
  have hlast := (List.dropLast_append_getLast (pieces_ne_nil (c.trimStart ++ ['?']))).symm
  generalize (pieces (c.trimStart ++ ['?'])).dropLast = init at hlast
  generalize (pieces (c.trimStart ++ ['?'])).getLast (pieces_ne_nil _) = last at hlast
  rw [total?_eq_none_iff, (balanced_question hc).pieces_append hlast hfirst]
  by_cases hk : none ∈ init.map (eval scope)
  case pos => exact .inr (by simp only [List.map_append, List.mem_append, hk, true_or])
  case neg =>
    have hmiddle (he : eval scope (last ++ first) = none) :
        none ∈ (init ++ (last ++ first) :: more).map (eval scope) :=
      List.mem_map.mpr ⟨last ++ first, by simp, he⟩
    by_cases hplus : pluses (c.trimStart ++ ['?']) = []
    case pos =>
      have hone : init ++ [last] = [] ++ [c.trimStart ++ ['?']] :=
        hlast.symm.trans (pieces_of_pluses hplus)
      obtain ⟨rfl, he⟩ := List.append_inj' hone rfl
      obtain rfl := (List.cons.inj he).left
      rcases hw.first_piece ht hlater hfirst with hno | ⟨hshort, ho⟩ | hm
      case inl => exact .inl (by rw [(balanced_question hc).pluses_append, hplus, hno]; rfl)
      case inr.inl =>
        refine .inr (hmiddle ?_)
        rw [List.append_assoc, List.singleton_append, eval_trimStart_append,
          h.shorter first hshort ho]
      case inr.inr => exact .inr (by simp [hm])
    case neg =>
      obtain ⟨r, rfl⟩ := exists_question_of_pieces hplus hlast
      have hr : LastPart scope c r := by
        refine .summand hl ?_ hk
        rw [statement_question hc, summands?_eq, if_neg hplus, hlast]
      refine .inr ?_
      rcases hw.first_piece ht hlater hfirst with hno | ⟨hshort, ho⟩ | hm
      case inl =>
        obtain rfl := (List.cons.inj (hfirst.symm.trans (pieces_of_pluses hno))).left
        refine hmiddle ?_
        rw [List.append_assoc, List.singleton_append, h.last r _ hr (Nat.le_refl _) hw]
      case inr.inl =>
        refine hmiddle ?_
        rw [List.append_assoc, List.singleton_append, h.last r _ hr hshort.le ho]
      case inr.inr => simp [hm]

theorem start?_eq_none (h : Settled scope c w) (hs : Steady scope c)
    (hc : Part IsEven choiceSigns c)
    (hw : Open scope (condition scope c) w) (hl : loosest? (c.trimStart ++ '?' :: w) = none) :
    start? scope (c.trimStart ++ '?' :: w) = none := by
  rw [← List.singleton_append, ← List.append_assoc] at hl
  have hl := ((balanced_question hc).loosest?_append_eq_none hl).left
  rw [loosestAt?_extend_question List.getLast?_concat, Option.map_eq_none_iff,
    ← statement_question hc] at hl
  rw [start?]
  split
  case isTrue hnot =>
    obtain ⟨t, ht⟩ := List.head?_eq_some_iff.mp hnot
    cases hd : c.trimStart
    case nil => simp [hd] at ht
    case cons d r =>
      rw [hd] at ht
      obtain ⟨rfl, _⟩ := List.cons.inj ht
      have hr : LastPart scope c r := .negated hl (by rw [statement_question hc, hd]; rfl)
      rw [List.cons_append, List.tail_cons, h.last r w hr (Nat.le_refl _) hw, Option.map_none]
  case isFalse =>
    rw [leaf_eq_string? (c := '?') (by simp) (by decide) (by decide) (by decide +kernel)]
    by_contra hstring
    obtain ⟨q, content, htrim, hq, hsub⟩ := string?_ne_none_iff.mp hstring
    have hblank : isBlank '?' = false := rfl
    rw [Text.trim_append_cons _ _ hblank, Text.trimStart_trimStart] at htrim
    refine hs.literal hl ⟨q, hq, ?_, fun he => ?_⟩
    · rw [statement_question hc]
      cases hd : c.trimStart
      all_goals
        rw [hd] at htrim
        obtain ⟨rfl, _⟩ := List.cons.inj htrim
        rfl
    · have hwhole := hsub he
      rw [← List.singleton_append, ← List.append_assoc] at hwhole
      rw [statement_question hc]
      exact hasSubstitution_of_append hwhole

end Settled

-- A choice of a firm condition has no value unless the selected branch has one.
theorem Firm.eval_eq_none {scope : Scope} {c w : Text} (n : Nat) (hn : c.length + w.length < n)
    (hf : Firm scope c) (hc : Part IsEven choiceSigns c) (hw : Open scope (condition scope c) w) :
    eval scope (c ++ '?' :: w) = none := by
  induction n generalizing c w
  case zero => omega
  case succ n ih =>
    have hlength := w.length_trimEnd_le
    have htrim := w.trimEnd_trimEnd
    obtain ⟨steady, hsame, hlast⟩ := id hf
    have hsettled : Settled scope c w.trimEnd := by
      refine ⟨fun v hv ho => ih (by omega) hf hc ho, fun r v hr hv ho => ?_⟩
      obtain ⟨hpart, hshort⟩ := hr.part hc
      exact ih (by omega) (hlast r hr) hpart (hsame r hr ▸ ho)
    rw [hw.eval_eq hc, operation?]
    cases hl : loosest? (c.trimStart ++ '?' :: w.trimEnd)
    case some found => exact hsettled.operator_eq_none steady hc hw.trimEnd htrim hl
    case none =>
      rw [Option.elim_none, hsettled.total?_eq_none hc hw.trimEnd htrim hl,
        hsettled.start?_eq_none steady hc hw.trimEnd hl, Option.none_or]

end Componentry.Static
