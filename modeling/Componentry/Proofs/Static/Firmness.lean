import Componentry.Proofs.Static.Choices

/-!
Firm conditions are just those whose choices are never given another value than that of the selected
branch. A condition that is not firm is shown by branches of one word each.
-/
namespace Componentry.Static

section Values

variable {inside : Text → Prop} {scope : Scope} {s t : Text}

theorem eval_append_trimEnd (s t : Text) : eval scope (s ++ t.trimEnd) = eval scope (s ++ t) := by
  obtain ⟨u, hu, hb⟩ := t.exists_trimEnd
  conv_rhs => rw [hu, ← List.append_assoc]
  exact (eval_append_right hb).symm

theorem IsOperand.eval_eq_leaf (h : IsOperand inside t) (hp : parenthesized? t.trim = none) :
    eval scope t = leaf scope t.trim := by
  have hst := h.part.statement_eq (by decide)
  have hpart : Part inside ('+' :: sumSigns) t.trim := h.part.trimStart.trimEnd
  have hne : t.trim ≠ [] := Text.trim_ne_nil h.not_blank
  have hnot : t.trim.head? ≠ some '!' := hpart.head?_ne (by decide) rfl
  rw [eval_eq_operation? hst hne hp, hpart.ternary?_eq_none (.inl (by decide)), operation?,
    hpart.loosest?_eq_none (by simp [operatorSigns, sumSigns]), summands?_eq,
    if_pos hpart.pluses_eq_nil, start?, if_neg hnot]
  rfl

theorem ne_of_number {d e : Char} (h : (Decimal.read? t).isSome) (hd : d ∈ t)
    (he : e ∈ signs ++ blanks)
    (hn : e ≠ '+') : d ≠ e := by
  rintro rfl
  have hall : (signs ++ blanks).all fun d =>
      d = '+' || !d.isAlphanum && !(List.contains ['+', '-', '.'] d) := by decide
  have he := List.all_eq_true.mp hall d he
  simp only [hn, decide_false, Bool.false_or, Bool.and_eq_true, Bool.not_eq_true'] at he
  rw [Decimal.read?_eq_none hd he.left (by simpa using he.right)] at h
  cases h

theorem trim_of_number (h : (Decimal.read? t).isSome) : t.trim = t := by
  refine Text.trim_of_not_blank fun d hd => ?_
  rw [Bool.eq_false_iff]
  intro hb
  refine ne_of_number h hd (List.mem_append_right signs (mem_blanks hb)) ?_ rfl
  rintro rfl
  cases hb

theorem part_of_number (h : (Decimal.read? t).isSome) : Part IsEven sumSigns t := by
  refine .of_bare (fun d hd => ?_) fun d hd hm => ?_
  · have hne : ∀ e ∈ signs, e ≠ '+' → d ≠ e :=
      fun e he => ne_of_number h hd (List.mem_append_left blanks he)
    simp only [signs, List.forall_mem_cons] at hne
    simp_all [isBare, Code.isOpener, Code.isCloser, isQuote]
  · have hsigns : sumSigns.all fun d => signs.contains d && d ≠ '+' := by decide
    have hd := List.all_eq_true.mp hsigns d hd
    simp only [Bool.and_eq_true, List.contains_iff_mem, decide_eq_true_eq] at hd
    exact ne_of_number h hm (List.mem_append_left blanks hd.left) hd.right rfl

theorem eval_ne_none_of_number (h : (Decimal.read? t).isSome) : eval scope t ≠ none := by
  have hpart := part_of_number h
  have hne : t ≠ [] := by
    rintro rfl
    cases h
  have hparen : parenthesized? t = none := by
    obtain ⟨d, u, rfl⟩ := List.exists_cons_of_ne_nil hne
    exact parenthesized?_eq_none (ne_of_number h List.mem_cons_self (by decide) (by decide))
  have hst := hpart.statement_eq (by decide)
  have hnot : t.head? ≠ some '!' := hpart.head?_ne (by decide) rfl
  rw [trim_of_number h] at hst
  rw [eval_eq_operation? hst hne hparen, hpart.ternary?_eq_none (.inl (by decide)), operation?,
    hpart.loosest?_eq_none (by simp [operatorSigns, sumSigns]), start?, if_neg hnot]
  simp only [chosen?, Option.none_or, Option.elim_none, ne_eq, Option.or_eq_none_iff]
  rintro ⟨_, hleaf⟩
  obtain ⟨x, hx⟩ := Option.isSome_iff_exists.mp h
  rw [leaf, hx] at hleaf
  cases hstring : string? t <;> simp [hstring] at hleaf

end Values

-- A name that has no value in a scope: it is longer than all that have one.
def unknown (scope : Scope) : Text :=
  List.replicate ((scope.map fun entry => entry.1.length).sum + 1) '_'

section Probes

variable {scope : Scope} {t : Text}

theorem mem_unknown {c : Char} (h : c ∈ unknown scope) : c = '_' :=
  List.eq_of_mem_replicate h

theorem get?_unknown (scope : Scope) : scope.get? (unknown scope) = none := by
  rw [Scope.get?, List.lookup_eq_none_iff]
  intro entry he
  rw [bne_iff_ne]
  intro hsame
  have hlength := List.le_sum_of_mem (List.mem_map_of_mem (f := fun entry => entry.1.length) he)
  have heq := congrArg List.length hsame
  simp only [unknown, List.length_replicate] at heq
  omega

-- The unknown name as it is, or with an empty string behind it.
inductive IsProbe (scope : Scope) : Text → Prop
  | name : IsProbe scope (unknown scope)
  | quoted {q : Char} (hq : isQuote q) : IsProbe scope (unknown scope ++ [q, q])

theorem isName_unknown : isName (unknown scope) := by
  simp [unknown, List.replicate_succ, isName]

theorem isWord_of_isQuote {q : Char} (h : isQuote q) : isWord q = false := by
  simp only [isQuote, Bool.or_eq_true, decide_eq_true_eq] at h
  rcases h with (rfl | rfl) | rfl <;> decide +kernel

namespace IsProbe

theorem eq_cons (h : IsProbe scope t) : ∃ u, t = '_' :: u := by
  cases h <;> simp [unknown, List.replicate_succ]

theorem trim_eq (h : IsProbe scope t) : t.trim = t := by
  apply Text.trim_of_not_blank
  cases h with
  | name => exact fun c hc => mem_unknown hc ▸ rfl
  | quoted hq =>
    refine List.forall_mem_append.mpr ⟨fun c hc => mem_unknown hc ▸ rfl, ?_⟩
    simp [isBlank_of_isQuote hq]

theorem isOperand (h : IsProbe scope t) : IsOperand IsEven t := by
  have hname : IsOperand IsEven (unknown scope) := .name isName_unknown
  cases h with
  | name => exact hname
  | quoted hq =>
    have hempty : IsOperand IsEven _ := .literal hq .nil (.of_not_mem (by simp) (by simp))
    refine ⟨hname.part.append hempty.part, ?_⟩
    rw [List.all_append, hname.not_blank, Bool.false_and]

theorem leaf_eq_none (h : IsProbe scope t) : leaf scope t = none := by
  obtain ⟨u, hu⟩ := h.eq_cons
  have hstring : string? t = none := by
    by_contra hn
    obtain ⟨q, content, he, hq, _⟩ := string?_ne_none_iff.mp hn
    rw [h.trim_eq, hu] at he
    obtain ⟨rfl, _⟩ := List.cons.inj he
    cases hq
  have hnumber : Decimal.read? t = none :=
    Decimal.read?_eq_none (c := '_') (by simp [hu]) (by decide) (by decide)
  have hkeyword : t ∉ keywords := not_mem_keywords (c := '_') (by simp [hu]) (by decide)
  have hname (hn : isName t) : scope.get? t = none := by
    cases h with
    | name => exact get?_unknown scope
    | quoted hq =>
      have hw := (isWord_of_isName hn).right _ (List.mem_append_right _ List.mem_cons_self)
      rw [isWord_of_isQuote hq] at hw
      cases hw
  rw [leaf, hstring, hnumber]
  dsimp only
  rw [if_neg (by simpa using hkeyword)]
  split
  case isTrue hn => exact hname hn
  case isFalse => rfl

theorem eval_eq_none (h : IsProbe scope t) : eval scope t = none := by
  obtain ⟨u, hu⟩ := h.eq_cons
  have hparen : parenthesized? t.trim = none := by
    rw [h.trim_eq, hu]
    exact parenthesized?_eq_none (by decide)
  rw [h.isOperand.eval_eq_leaf hparen, h.trim_eq, h.leaf_eq_none]

end IsProbe

theorem isOperand_empty : IsOperand IsEven ['"', '"'] :=
  .literal rfl .nil (.of_not_mem (by simp) (by simp))

theorem eval_empty : eval scope ['"', '"'] = some [] := by
  rw [isOperand_empty.eval_eq_leaf rfl]
  rfl

end Probes

section Tight

variable {scope : Scope} {c w r : Text}

theorem loosest?_tight (hc : Part IsEven choiceSigns c)
    (hw : Part (fun _ => True) ('+' :: operatorSigns) w) :
    loosest? (c.trimStart ++ '?' :: w) = (loosest? (statement (c ++ ['?']))).map fun found =>
      (found.1, found.2.1, found.2.2 ++ w) := by
  have hnone :=
    hw.loosestAt?_behind (fun d hd => List.mem_cons_of_mem '+' hd) (c.trimStart ++ ['?'])
  rw [← List.singleton_append, ← List.append_assoc, loosest?_eq,
    (balanced_question hc).places_append, loosestAt?_append_of_none hnone,
    loosestAt?_extend_question List.getLast?_concat, statement_question hc]

theorem total?_tight {operands : List Text} (hc : Part IsEven choiceSigns c)
    (hw : Part (fun _ => True) ('+' :: operatorSigns) w)
    (hs : summands? (statement (c ++ ['?'])) = some (operands ++ [r ++ ['?']]))
    (hn : total? scope (summands? (c.trimStart ++ '?' :: w)) = none) :
    none ∈ operands.map (eval scope) ∨ eval scope (r ++ '?' :: w) = none := by
  rw [statement_question hc, summands?_eq] at hs
  split at hs
  case isTrue => cases hs
  case isFalse hplus =>
    have hpieces := (balanced_question hc).pieces_append (Option.some.inj hs)
      (pieces_of_pluses hw.pluses_eq_nil)
    rw [← List.singleton_append, ← List.append_assoc, total?_eq_none_iff, hpieces, List.map_append,
      List.mem_append, (balanced_question hc).pluses_append] at hn
    rcases hn with hn | hn | hn
    case inl => simp [hplus] at hn
    case inr.inl => exact .inl hn
    case inr.inr =>
      rw [List.map_singleton, List.mem_singleton, List.append_assoc] at hn
      exact .inr hn.symm

theorem LastPart.eval_eq_none (h : LastPart scope c r) (hc : Part IsEven choiceSigns c)
    (hw : Part (fun _ => True) ('+' :: operatorSigns) w)
    (ho : operation? scope (c.trimStart ++ '?' :: w) = none) :
    eval scope (r ++ '?' :: w) = none := by
  rw [operation?, loosest?_tight hc hw] at ho
  cases h with
  | operand hs hl =>
    rw [hs, Option.map_some, Option.elim_some, hl, Option.bind_some, List.append_assoc,
      List.singleton_append] at ho
    cases he : eval scope (r ++ '?' :: w)
    case none => rfl
    case some value =>
      rw [he, Operator.combine?_some] at ho
      cases ho
  | summand hn hs hk =>
    rw [hn, Option.map_none, Option.elim_none, Option.or_eq_none_iff] at ho
    exact (total?_tight hc hw hs ho.left).resolve_left hk
  | negated hn hs =>
    rw [statement_question hc] at hs
    have ht : c.trimStart ++ '?' :: w = '!' :: (r ++ '?' :: w) := by
      rw [← List.singleton_append, ← List.append_assoc, hs]
      simp
    rw [hn, Option.map_none, Option.elim_none, Option.or_eq_none_iff, start?, ht,
      if_pos List.head?_cons, List.tail_cons, Option.map_eq_none_iff] at ho
    exact ho.right

end Tight

section Conditions

variable {scope : Scope} {c r d left value : Text} {operator : Operator}

theorem exists_gap (hc : Part IsEven choiceSigns c) :
    ∃ s, statement (c ++ ['?']) = c.trim ++ (s ++ ['?']) ∧
    (∀ e ∈ s, isBlank e) ∧ Part IsEven ('+' :: operatorSigns) (s ++ ['?']) := by
  obtain ⟨s, hs, hb⟩ := c.trimStart.exists_trimEnd
  refine ⟨s, ?_, hb, part_gap (List.forall_mem_append.mpr ⟨fun e he => ?_, by simp⟩)⟩
  · rw [statement_question hc, hs, List.append_assoc]
    rfl
  · exact List.mem_cons_of_mem _ (List.mem_cons_of_mem _ (mem_blanks (hb e he)))

theorem loosest?_trim_eq_none (hc : Part IsEven choiceSigns c)
    (hn : loosest? (statement (c ++ ['?'])) = none) : loosest? c.trim = none := by
  obtain ⟨s, hs, _⟩ := exists_gap hc
  rw [hs] at hn
  exact Balanced.loosest?_left hc.trimStart.trimEnd.balanced hn

theorem eval_not_eq_none (n : Nat) (hn : d.length < n) (hd : Part IsEven choiceSigns d)
    (hl : loosest? ('!' :: d) = none) (he : eval scope d = none) :
    eval scope ('!' :: d) = none := by
  induction n generalizing d
  case zero => omega
  case succ n ih =>
    have hbang : Balanced IsEven ['!'] := .bare rfl .nil
    have hpart : Part IsEven choiceSigns ('!' :: d) :=
      .append (.of_bare (List.forall_mem_singleton.mpr rfl) (by simp [choiceSigns])) hd
    have htrim : Text.trim ('!' :: d) = '!' :: d.trimEnd := Text.trim_append_cons [] d rfl
    have hl : loosest? (['!'] ++ d.trimEnd) = none := by
      obtain ⟨s, hs, _⟩ := d.exists_trimEnd
      rw [hs] at hl
      exact (hbang.append hd.trimEnd.balanced).loosest?_left hl
    have hplaces : places (Text.trim ('!' :: d)) ≠ [] := by
      rw [htrim, places_bare rfl]
      exact List.cons_ne_nil _ _
    rw [eval_of_places hpart hplaces, htrim, ← List.singleton_append, operation?,
      hl, Option.elim_none, Option.or_eq_none_iff, total?_eq_none_iff, hbang.pluses_append]
    rw [← eval_trimEnd] at he
    constructor
    case right => simp [start?, he]
    case left =>
      cases hp : pluses d.trimEnd
      case nil => exact .inl rfl
      case cons x xs =>
        obtain ⟨hx, more, hpieces⟩ := pieces_eq_cons hp
        have hcut := before_append_after hx
        have hblank : Balanced IsEven (d.trimEnd.takeWhile isBlank) :=
          .of_bare fun e he => isBare_of_isBlank (List.mem_takeWhile_imp he)
        have hloosest : loosest? d.trimEnd.trimStart = none := by
          refine Balanced.loosest?_right (s := ['!'] ++ d.trimEnd.takeWhile isBlank)
            (hbang.append hblank) ?_
          rw [List.append_assoc, Text.trimStart, List.takeWhile_append_dropWhile, hl]
        have hm := none_mem_of_eval_eq_none hd.trimEnd d.trimEnd_trimEnd hloosest (by simp [hp]) he
        refine .inr ?_
        rw [hbang.pieces_append_single rfl hpieces, List.map_cons, List.mem_cons]
        rw [hpieces, List.map_cons, List.mem_cons] at hm
        refine hm.imp_left fun hfirst => (ih ?_ (hd.trimEnd.of_mem_places hx).left ?_
          hfirst.symm).symm
        · have hshort := length_before_lt hx
          have := d.length_trimEnd_le
          rw [List.length_reverse]
          omega
        · rw [← hcut] at hl
          exact (hbang.append (hd.trimEnd.of_mem_places hx).left.balanced).loosest?_left hl

-- An operator before the question mark has its right operand there, unless that is blank.
theorem operandsAt?_of_extend {p : Place} {row : List Operator} {s : Text}
    (hr : row ∈ Operator.rows)
    (ho : operator ∈ row) (hb : ∀ e ∈ s, isBlank e)
    (hgap : Part IsEven ('+' :: operatorSigns) (s ++ ['?'])) (hn : r.all isBlank = false)
    (h : operandsAt? (p.extend (s ++ ['?'])) operator = some (left, r ++ ['?'])) :
    ∃ x, r = x ++ s ∧ operandsAt? p operator = some (left, x) := by
  obtain ⟨ha, hl, hj, he, hbefore, _⟩ := operandsAt?_eq_some_iff.mp h
  obtain ⟨x, hx, rfl⟩ : ∃ x, p.after = operator.symbol ++ x ∧ r = x ++ s := by
    rcases List.append_eq_append_iff.mp ha with ⟨x, hx, hz⟩ | ⟨x, hx, hz⟩
    case inl =>
      cases x
      case nil =>
        rw [List.nil_append] at hz
        rw [← (List.append_inj' hz rfl).left, List.all_eq_true.mpr hb] at hn
        cases hn
      case cons e x =>
        have hmem : e ∈ operator.symbol := by simp [hx]
        have hsign := (symbol_spec row hr operator ho).right e hmem
        refine absurd ?_ (hgap.head?_ne (List.mem_cons_of_mem '+' hsign)
          (isBare_of_mem_symbol hr ho hmem))
        rw [hz]
        rfl
    case inr =>
      rw [← List.append_assoc] at hz
      exact ⟨x, hx, (List.append_inj' hz rfl).left⟩
  have hxn : x.all isBlank = false := by
    rw [List.all_append, List.all_eq_true.mpr hb, Bool.and_true] at hn
    exact hn
  refine ⟨x, rfl, operandsAt?_eq_some_iff.mpr ⟨hx, hl, hj, ?_, hbefore, hxn⟩⟩
  cases x
  case nil => cases hxn
  case cons => exact he

theorem loosest?_trim_eq_some (hc : Part IsEven choiceSigns c) (hn : r.all isBlank = false)
    (hs : loosest? (statement (c ++ ['?'])) = some (operator, left, r ++ ['?'])) :
    ∃ x, loosest? c.trim = some (operator, left, x) ∧ eval scope x = eval scope r := by
  have htrim : Part IsEven choiceSigns c.trim := hc.trimStart.trimEnd
  obtain ⟨s, hst, hb, hgap⟩ := exists_gap hc
  have hlacks := hgap.loosestAt?_behind (fun d hd => List.mem_cons_of_mem '+' hd) c.trim
  rw [hst, loosest?_eq, htrim.balanced.places_append, loosestAt?_append_of_none hlacks] at hs
  obtain ⟨p, hp, row, hr, ho, hp'⟩ := exists_of_loosestAt? hs
  obtain ⟨p, hp, rfl⟩ := List.mem_map.mp hp
  obtain ⟨x, hx, _⟩ := operandsAt?_of_extend hr ho hb hgap hn hp'
  refine ⟨x, loosestAt?_weaken hs (fun p hp row hr o ho => operandsAt?_eq_none_of_extend)
    fun p hp row hr o ho hsome => ?_, ?_⟩
  · obtain ⟨y, hy, hsome⟩ := operandsAt?_of_extend hr ho hb hgap hn hsome
    rw [hsome, List.append_cancel_right (hy.symm.trans hx)]
  · rw [hx, eval_append_right hb]

theorem pieces_trim {operands : List Text} (hc : Part IsEven choiceSigns c)
    (hs : summands? (statement (c ++ ['?'])) = some (operands ++ [r ++ ['?']])) :
    pluses c.trim ≠ [] ∧ ∃ x, pieces c.trim = operands ++ [x] ∧ eval scope x = eval scope r := by
  have htrim : Part IsEven choiceSigns c.trim := hc.trimStart.trimEnd
  obtain ⟨s, hst, hb, hgap⟩ := exists_gap hc
  have hno := hgap.pluses_eq_nil
  rw [hst, summands?_eq, htrim.balanced.pluses_append, hno] at hs
  split at hs
  case isTrue => cases hs
  case isFalse hplus =>
    have hlast := (List.dropLast_append_getLast (pieces_ne_nil c.trim)).symm
    have hwhole := htrim.balanced.pieces_append hlast (pieces_of_pluses hno)
    rw [hwhole, Option.some.injEq] at hs
    obtain ⟨hinit, hx⟩ := List.append_inj' hs rfl
    have hr := (List.cons.inj hx).left
    rw [← List.append_assoc] at hr
    refine ⟨by simpa using hplus, _, by rw [← hinit]; exact hlast, ?_⟩
    rw [← (List.append_inj' hr rfl).left, eval_append_right hb]

theorem leaf_sum_eq_none {t x : Text} {operands : List Text} (hp : pluses t ≠ [])
    (hs : pieces t = operands ++ [x]) (hx : eval scope x = none) (hstring : string? t = none) :
    leaf scope t = none := by
  obtain ⟨p, hp, ha⟩ := exists_last_plus hp hs
  have ht := before_append_after hp
  rw [ha] at ht
  have hplus : '+' ∈ t := by simp [← ht]
  have hnumber : Decimal.read? t = none := by
    rw [← Option.not_isSome_iff_eq_none]
    intro hn
    rw [← ht] at hn
    exact eval_ne_none_of_number (Decimal.read?_after_plus hn) hx
  have hkeyword := not_mem_keywords hplus (by decide)
  have hname : isName t = false := by
    rw [Bool.eq_false_iff]
    intro hname
    exact ne_of_isWord ((isWord_of_isName hname).right _ hplus) '+' (by decide) rfl
  rw [leaf, hstring, hnumber]
  simp [hkeyword, hname]

theorem string?_trim_eq_none (hc : Part IsEven choiceSigns c)
    (hs : ¬OpensString (statement (c ++ ['?']))) : string? c.trim = none := by
  obtain ⟨s, hst, hb, _⟩ := exists_gap hc
  by_contra hstring
  obtain ⟨q, content, he, hq, hsub⟩ := string?_ne_none_iff.mp hstring
  rw [Text.trim_trim] at he
  refine hs ⟨q, hq, by rw [hst, he]; rfl, fun hq => ?_⟩
  have hdollar : '$' ∉ s ++ ['?'] := by
    intro hm
    rcases List.mem_append.mp hm with hm | hm
    case inl => exact absurd (hb _ hm) (by decide)
    case inr => simp at hm
  have hbrace : (s ++ ['?']).head? ≠ some '{' := by
    cases s with
    | nil => simp
    | cons e s =>
      rintro ⟨⟩
      exact absurd (hb '{' List.mem_cons_self) (by decide)
  rw [hst, hasSubstitution_append_right hdollar hbrace, hsub hq]

theorem isTruthy_ofBool (b : Bool) : isTruthy (ofBool b) = b := by
  cases b <;> decide

-- A sum whose last operand has no value has one only as a negation or as a string.
theorem eval_sum {operands : List Text} (hc : Part IsEven choiceSigns c)
    (hn : loosest? (statement (c ++ ['?'])) = none)
    (hs : summands? (statement (c ++ ['?'])) = some (operands ++ [r ++ ['?']]))
    (hr : eval scope r = none) :
    eval scope c = start? scope c.trim ∧ (string? c.trim = none → leaf scope c.trim = none) := by
  obtain ⟨hplus, x, hpieces, hx⟩ := @pieces_trim scope _ _ _ hc hs
  rw [hr] at hx
  have hplaces : places c.trim ≠ [] := by
    intro hnil
    exact hplus (by simp [pluses, hnil])
  have htotal : total? scope (summands? c.trim) = none := by
    rw [total?_eq_none_iff, hpieces]
    exact .inr (List.mem_map.mpr ⟨x, by simp, hx⟩)
  refine ⟨?_, leaf_sum_eq_none hplus hpieces hx⟩
  rw [eval_of_places hc hplaces, operation?, loosest?_trim_eq_none hc hn, Option.elim_none, htotal,
    Option.none_or]

theorem LastPart.eval_condition_eq_none (h : LastPart scope c r) (hc : Part IsEven choiceSigns c)
    (hs : Steady scope c)
    (hnot : ∀ d, statement (c ++ ['?']) = '!' :: (d ++ ['?']) → LastPart scope c d →
      ∀ b, condition scope d = some b → condition scope c = some b)
    (hr : eval scope r = none) : eval scope c = none := by
  have hpart := (h.part hc).left
  cases h with
  | operand hl hv =>
    have hn : r.all isBlank = false := by
      rw [Bool.eq_false_iff]
      intro hb
      have hblank := @eval_append_left scope r [] (List.all_eq_true.mp hb)
      rw [List.append_nil, hr, eval_of_statement_nil rfl] at hblank
      cases hblank
    obtain ⟨x, hx, hex⟩ := loosest?_trim_eq_some hc hn hl
    obtain ⟨p, hp, _⟩ := exists_place_of_loosestAt? hx
    rw [eval_of_places hc (List.ne_nil_of_mem hp), operation?, hx, Option.elim_some,
      hv, Option.bind_some, hex, hr]
    exact hs.operator hl hv
  | negated hn ht =>
    rw [statement_question hc] at hn ht
    rw [← List.cons_append] at ht
    have hcut : c.trimStart = '!' :: r := (List.append_inj' ht rfl).left
    have hbang : Balanced IsEven ('!' :: r) := hcut ▸ hc.trimStart.balanced
    rw [hcut] at hn
    rw [← eval_trimStart, hcut]
    exact eval_not_eq_none _ (Nat.lt_succ_self _) hpart (hbang.loosest?_left hn) hr
  | summand hn hsum hk =>
    obtain ⟨heval, hleaf⟩ := eval_sum hc hn hsum hr
    rw [heval, start?]
    split
    case isFalse => exact hleaf (string?_trim_eq_none hc (hs.literal hn))
    case isTrue hhead =>
      -- The negated part would hold just as the condition does.
      obtain ⟨d, hd⟩ := List.head?_eq_some_iff.mp hhead
      obtain ⟨s, hst, hb, _⟩ := exists_gap hc
      rw [hd, List.tail_cons]
      cases hv : eval scope d
      case none => rfl
      case some value =>
        have hq : statement (c ++ ['?']) = '!' :: ((d ++ s) ++ ['?']) := by
          rw [hst, hd]
          simp
        have hsame := hnot (d ++ s) hq (.negated hn hq) (isTruthy value) (by
          rw [condition, eval_append_right hb, hv, Option.map_some])
        rw [condition, heval, start?, if_pos hhead, hd, List.tail_cons, hv, Option.map_some,
          Option.map_some, isTruthy_ofBool] at hsame
        simp at hsame

end Conditions

def branches (p q : Text) : Text :=
  ' ' :: (p ++ [' ']) ++ ':' :: ' ' :: q

section Branches

variable {inside : Text → Prop} {absent : List Char} {scope : Scope} {c p q r : Text}

theorem part_spaced (hp : Part inside absent p) (ha : ' ' ∉ absent) :
    Part inside absent (' ' :: (p ++ [' '])) ∧ Part inside absent (' ' :: p) := by
  have hspace : Part inside absent [' '] :=
    .of_bare (List.forall_mem_singleton.mpr rfl) fun d hd hm => ha (List.mem_singleton.mp hm ▸ hd)
  exact ⟨hspace.append (hp.append hspace), hspace.append hp⟩

theorem eval_spaced (p : Text) :
    eval scope (' ' :: (p ++ [' '])) = eval scope p ∧ eval scope (' ' :: p) = eval scope p := by
  have hblank : ∀ d ∈ [' '], isBlank d := List.forall_mem_singleton.mpr rfl
  have hleft (t : Text) : eval scope (' ' :: t) = eval scope t := eval_append_left hblank
  exact ⟨(hleft _).trans (eval_append_right hblank), hleft p⟩

theorem eval_branches (hc : Part IsEven choiceSigns c) (hp : Part (fun _ => True) choiceSigns p)
    (hq : Part (fun _ => True) choiceSigns q) : eval scope (c ++ '?' :: branches p q) =
      (selected (condition scope c) (eval scope p) (eval scope q)).or
        (operation? scope (c.trimStart ++ '?' :: (branches p q).trimEnd)) := by
  have hspace : ' ' ∉ choiceSigns := by decide
  have hcolon : isBlank ':' = false := rfl
  rw [branches, eval_choice hc (part_spaced hp hspace).left (by simp) (part_spaced hq hspace).right,
    (eval_spaced p).left, (eval_spaced q).right, Text.trimEnd_append_cons _ _ hcolon]

theorem part_tight (hp : IsOperand IsEven p) (hq : IsOperand IsEven q) :
    Part (fun _ => True) ('+' :: operatorSigns) (branches p q) := by
  have hfewer : ∀ d ∈ '+' :: operatorSigns, d ∈ '+' :: sumSigns := by simp [operatorSigns, sumSigns]
  have hspace : ' ' ∉ '+' :: operatorSigns := by decide
  have hcolon : Part (fun _ => True) ('+' :: operatorSigns) [':'] :=
    .of_bare (List.forall_mem_singleton.mpr rfl) (by simp [operatorSigns])
  exact (part_spaced (hp.part.mono hfewer).weaken hspace).left.append
    (hcolon.append (part_spaced (hq.part.mono hfewer).weaken hspace).right)

-- Branches of one operand each never give a choice another value than that of the selected one.
def Lawful (scope : Scope) (c : Text) : Prop :=
  ∀ p q, IsOperand IsEven p → IsOperand IsEven q →
    eval scope (c ++ '?' :: branches p q) = selected (condition scope c) (eval scope p)
    (eval scope q)

theorem IsOperand.choicePart (h : IsOperand inside p) : Part inside choiceSigns p :=
  h.part.mono (by simp [choiceSigns, sumSigns])

theorem Lawful.operation?_eq_none (h : Lawful scope c) (hc : Part IsEven choiceSigns c)
    (hp : IsOperand IsEven p) (hq : IsOperand IsEven q)
    (hn : selected (condition scope c) (eval scope p) (eval scope q) = none) :
    operation? scope (c.trimStart ++ '?' :: (branches p q).trimEnd) = none := by
  have hlaw := h p q hp hq
  rw [eval_branches hc hp.choicePart.weaken hq.choicePart.weaken, hn, Option.none_or] at hlaw
  exact hlaw

theorem Lawful.last_eq_none (h : Lawful scope c) (hc : Part IsEven choiceSigns c)
    (hr : LastPart scope c r) (hp : IsOperand IsEven p) (hq : IsOperand IsEven q)
    (hn : selected (condition scope c) (eval scope p) (eval scope q) = none) :
    eval scope (r ++ '?' :: branches p q) = none := by
  have hlast := hr.eval_eq_none hc (part_tight hp hq).trimEnd (h.operation?_eq_none hc hp hq hn)
  rw [← List.singleton_append, ← List.append_assoc] at hlast ⊢
  rw [← eval_append_trimEnd]
  exact hlast

theorem eq_some_of_selected {holds : Option Bool} {yes no : Option Text} {b : Bool}
    (hn : selected (some !b) yes no = none) (h : selected holds yes no ≠ none) :
    holds = some b := by
  cases holds
  case none => exact absurd rfl h
  case some x =>
    rcases Bool.eq_or_eq_not x b with rfl | rfl
    case inl => rfl
    case inr => exact absurd hn h

-- The last part of a condition holds only if the condition holds, and fails only if it fails.
theorem Lawful.condition_eq_some (h : Lawful scope c) (hc : Part IsEven choiceSigns c)
    (hr : LastPart scope c r) {b : Bool} (hb : condition scope r = some b) :
    condition scope c = some b := by
  have hpart := (hr.part hc).left
  -- Of the branches only that of the last part has a value.
  have hknown {p q : Text} (hp : IsOperand IsEven p) (hq : IsOperand IsEven q)
      (hs : selected (some b) (eval scope p) (eval scope q) = some []) :
      selected (condition scope c) (eval scope p) (eval scope q) ≠ none := by
    intro hn
    have hnone := h.last_eq_none hc hr hp hq hn
    rw [eval_branches hpart hp.choicePart.weaken hq.choicePart.weaken, hb, hs] at hnone
    cases hnone
  have hname : IsProbe scope (unknown scope) := .name
  cases b with
  | true =>
    have hsome := hknown isOperand_empty hname.isOperand (by rw [eval_empty]; rfl)
    exact eq_some_of_selected hname.eval_eq_none hsome
  | false =>
    have hsome := hknown hname.isOperand isOperand_empty (by rw [eval_empty]; rfl)
    exact eq_some_of_selected hname.eval_eq_none hsome

theorem selected_none (holds : Option Bool) : selected holds none none = none := by
  cases holds <;> simp [selected]

theorem string?_of_quote {t w : Text} {k : Char} (hk : isQuote k) (hh : t.head? = some k)
    (hs : k = '\x60' → hasSubstitution t = false) (hd : '$' ∉ w) (hb : w.head? ≠ some '{')
    (hw : w.getLast? = some k) : string? (t ++ w) ≠ none := by
  obtain ⟨u, rfl⟩ := List.head?_eq_some_iff.mp hh
  obtain ⟨v, rfl⟩ := List.getLast?_eq_some_iff.mp hw
  have hblank := isBlank_of_isQuote hk
  refine string?_ne_none_iff.mpr ⟨k, u ++ v, ?_, hk, fun he => ?_⟩
  · rw [Text.trim_eq_self (by simp [hblank]) (by simp [hblank, List.getLast?_cons])]
    simp
  · rw [hasSubstitution_append_right hd hb, hs he]

theorem branches_quoted {k : Char} (hk : isQuote k) : ∃ w,
    (branches (unknown scope) (unknown scope ++ [k, k])).trimEnd = ' ' :: (w ++ [k]) ∧
      '$' ∉ ' ' :: (w ++ [k]) := by
  have hunknown : '$' ∉ unknown scope := fun hm => absurd (mem_unknown hm) (by decide)
  have hquote : '$' ≠ k := by
    rintro rfl
    cases hk
  have hcut : branches (unknown scope) (unknown scope ++ [k, k]) =
      branches (unknown scope) (unknown scope ++ [k]) ++ [k] := by simp [branches]
  rw [hcut, Text.trimEnd_append_cons _ _ (isBlank_of_isQuote hk)]
  refine ⟨(unknown scope ++ [' ']) ++ ':' :: ' ' :: (unknown scope ++ [k]), rfl, ?_⟩
  simp [hunknown, hquote]

-- Otherwise branches that end with its quote would make the choice a string.
theorem Lawful.not_opensString (h : Lawful scope c) (hc : Part IsEven choiceSigns c)
    (hl : loosest? (statement (c ++ ['?'])) = none) : ¬OpensString (statement (c ++ ['?'])) := by
  rintro ⟨k, hk, hhead, hsub⟩
  have hname : IsProbe scope (unknown scope) := .name
  have hquoted : IsProbe scope (unknown scope ++ [k, k]) := .quoted hk
  have hnone := h.operation?_eq_none hc hname.isOperand hquoted.isOperand (by
    rw [hname.eval_eq_none, hquoted.eval_eq_none, selected_none])
  have htight := (part_tight hname.isOperand hquoted.isOperand).trimEnd
  obtain ⟨w, hw, hdollar⟩ := @branches_quoted scope k hk
  rw [hw] at hnone htight
  have hclosed : string? (c.trimStart ++ '?' :: ' ' :: (w ++ [k])) ≠ none := by
    rw [statement_question hc] at hhead hsub
    have hstring := string?_of_quote hk hhead hsub hdollar (by simp) (by simp [List.getLast?_cons])
    rwa [List.append_assoc] at hstring
  have hnot : (c.trimStart ++ '?' :: ' ' :: (w ++ [k])).head? ≠ some '!' := by
    rw [statement_question hc, List.head?_append] at hhead
    rw [List.head?_append]
    simp only [List.head?_cons] at hhead ⊢
    rw [hhead]
    rintro ⟨⟩
    cases hk
  rw [operation?, loosest?_tight hc htight, hl, Option.map_none, Option.elim_none,
    Option.or_eq_none_iff, start?, if_neg hnot,
    leaf_eq_string? (c := '?') (by simp) (by decide) (by decide) (by decide +kernel)] at hnone
  exact hclosed hnone.right

theorem Lawful.steady (h : Lawful scope c) (hc : Part IsEven choiceSigns c) : Steady scope c := by
  refine ⟨fun {operator left right value} hl hv => ?_, h.not_opensString hc⟩
  obtain ⟨r, rfl⟩ : ∃ r, right = r ++ ['?'] := by
    rw [statement_question hc] at hl
    exact exists_question_of_loosest? hl
  have hname : IsProbe scope (unknown scope) := .name
  have hnone := h.operation?_eq_none hc hname.isOperand hname.isOperand (by
    rw [hname.eval_eq_none, selected_none])
  have htight := (part_tight hname.isOperand hname.isOperand).trimEnd
  have hlast := (LastPart.operand hl hv).eval_eq_none hc htight hnone
  rw [operation?, loosest?_tight hc htight, hl, Option.map_some, Option.elim_some,
    hv, Option.bind_some, List.append_assoc, List.singleton_append, hlast] at hnone
  exact hnone

theorem Lawful.firm (n : Nat) (hn : c.length < n) (h : Lawful scope c)
    (hc : Part IsEven choiceSigns c) :
    Firm scope c := by
  induction n generalizing c
  case zero => omega
  case succ n ih =>
    have hsteady := h.steady hc
    have hsame (r : Text) (hr : LastPart scope c r) : condition scope r = condition scope c := by
      cases hb : condition scope r
      case some b => rw [h.condition_eq_some hc hr hb]
      case none =>
        rw [condition, Option.map_eq_none_iff] at hb
        have hnone := hr.eval_condition_eq_none hc hsteady
          (fun d _ hd b hb => h.condition_eq_some hc hd hb) hb
        rw [condition, hnone, Option.map_none]
    refine .intro hsteady hsame fun r hr => ?_
    obtain ⟨hpart, hshort⟩ := hr.part hc
    refine ih (by omega) (fun p q hp hq => ?_) hpart
    have hbranches := @eval_branches scope r p q hpart hp.choicePart.weaken hq.choicePart.weaken
    cases hs : selected (condition scope r) (eval scope p) (eval scope q)
    case some value => rw [hbranches, hs, Option.some_or]
    case none =>
      rw [hsame r hr] at hs
      exact h.last_eq_none hc hr hp hq hs

end Branches

def choice (c p q : Text) : Text :=
  c ++ ' ' :: '?' :: ' ' :: (p ++ ' ' :: ':' :: ' ' :: q)

section Choice

variable {inside : Text → Prop} {scope : Scope} {c p q : Text}

theorem choice_eq (c p q : Text) : choice c p q = (c ++ [' ']) ++ '?' :: branches p q := by
  simp [choice, branches]

theorem part_condition (hc : Part inside choiceSigns c) : Part inside choiceSigns (c ++ [' ']) :=
  hc.append (.of_bare (List.forall_mem_singleton.mpr rfl) (by simp [choiceSigns]))

theorem condition_append_space (c : Text) : condition scope (c ++ [' ']) = condition scope c := by
  rw [condition, eval_append_right (List.forall_mem_singleton.mpr rfl), condition]

theorem IsOperand.startsOperand (h : IsOperand inside q) : StartsOperand q := by
  intro row hr operator ho
  rw [Option.eq_none_iff_forall_ne_some]
  intro rest hrest
  obtain ⟨hne, hsigns⟩ := symbol_spec row hr operator ho
  obtain ⟨d, more, hd⟩ := List.exists_cons_of_ne_nil hne
  have hmem : d ∈ operator.symbol := hd ▸ List.mem_cons_self
  have hsign : d ∈ '+' :: sumSigns := by
    have hall : operatorSigns.all ('+' :: sumSigns).contains := by decide
    exact List.contains_iff_mem.mp (List.all_eq_true.mp hall d (hsigns d hmem))
  refine h.part.trimStart.head?_ne hsign (isBare_of_mem_symbol hr ho hmem) ?_
  rw [Text.stripStart?_eq_some_iff.mp hrest, hd]
  rfl

-- A choice whose selected branch has a value has that value. One whose selected branch or condition
-- has none has none, for all branches, just if the condition is firm.
theorem eval_choice_eq_selected_iff (hc : Part IsEven choiceSigns c) :
    (∀ p q value, Part (fun _ => True) choiceSigns p → Part (fun _ => True) choiceSigns q →
      selected (condition scope c) (eval scope p) (eval scope q) = some value →
        eval scope (choice c p q) = some value) ∧
    ((∀ p q, Part (fun _ => True) choiceSigns p → p.all isBlank = false →
      Part IsEven choiceSigns q → q.all isBlank = false → StartsOperand q →
        eval scope (choice c p q) = selected (condition scope c) (eval scope p) (eval scope q)) ↔
      Firm scope (c ++ [' '])) := by
  have hpart := part_condition hc
  have heval {p q : Text} (hp : Part (fun _ => True) choiceSigns p)
      (hq : Part (fun _ => True) choiceSigns q) :=
    @eval_branches scope (c ++ [' ']) p q hpart hp hq
  simp only [choice_eq, ← @condition_append_space scope c]
  refine ⟨fun p q value hp hq hs => by
    rw [heval hp hq, hs, Option.some_or], fun hlaw => ?_, fun hfirm => ?_⟩
  · refine Lawful.firm _ (Nat.lt_succ_self _) (fun p q hp hq => ?_) hpart
    exact hlaw p q hp.choicePart.weaken hp.not_blank hq.choicePart hq.not_blank hq.startsOperand
  · intro p q hp _ hq _ hs
    cases hsel : selected (condition scope (c ++ [' '])) (eval scope p) (eval scope q)
    case some value => rw [heval hp hq.weaken, hsel, Option.some_or]
    case none =>
      have hspace : ' ' ∉ choiceSigns := by decide
      rw [← (eval_spaced p).left, ← (eval_spaced q).right] at hsel
      refine hfirm.eval_eq_none _ (Nat.lt_succ_self _) hpart ?_
      exact .branches (part_spaced hp hspace).left (by simp) (part_spaced hq hspace).right hs hsel

theorem Firm.of_operand (h : IsOperand IsEven c)
    (hq : ∀ k, isQuote k → c.trimStart.head? ≠ some k) :
    Firm scope c := by
  have hst := statement_question h.choicePart
  have hpart : Part IsEven ('+' :: operatorSigns) (c.trimStart ++ ['?']) :=
    (h.part.trimStart.mono (by simp [operatorSigns, sumSigns])).append (part_gap (by simp))
  have hnone : loosest? (statement (c ++ ['?'])) = none := by
    rw [hst]
    exact hpart.loosest?_eq_none fun d hd => List.mem_cons_of_mem '+' hd
  have hlast (r : Text) : ¬LastPart scope c r := by
    rintro (⟨hs, _⟩ | ⟨_, hs, _⟩ | ⟨_, hs⟩)
    · rw [hnone] at hs
      cases hs
    · rw [hst, summands?_eq, if_pos hpart.pluses_eq_nil] at hs
      cases hs
    · rw [hst] at hs
      exact hpart.head?_ne (c := '!') (by decide) rfl (by rw [hs]; rfl)
  refine .intro ⟨fun hs _ => ?_, fun _ => ?_⟩ (fun r hr => absurd hr (hlast r)) fun r hr =>
    absurd hr (hlast r)
  · rw [hnone] at hs
    cases hs
  · rintro ⟨k, hk, hhead, _⟩
    rw [hst] at hhead
    cases ht : c.trimStart
    all_goals
      rw [ht] at hhead
      obtain rfl := Option.some.inj hhead
    case nil => cases hk
    case cons => exact hq _ hk (by rw [ht]; rfl)

-- A condition is firm if its right operand is, on which its value depends just as the condition
-- does.
theorem Firm.of_operator {operator : Operator} {left value r : Text}
    (hl : loosest? (statement (c ++ ['?'])) = some (operator, left, r ++ ['?']))
    (hv : eval scope left = some value) (hn : operator.combine? value none = none)
    (hs : condition scope r = condition scope c) (hf : Firm scope r) : Firm scope c := by
  have hlast {x : Text} (h : LastPart scope c x) : x = r := by
    rcases h with ⟨hx, _⟩ | ⟨hx, _, _⟩ | ⟨hx, _⟩
    all_goals rw [hl] at hx
    case operand =>
      simp only [Option.some.injEq, Prod.mk.injEq] at hx
      exact (List.append_cancel_right hx.right.right).symm
    all_goals cases hx
  refine .intro ⟨fun hx hy => ?_, fun hx => ?_⟩ (fun x hx => hlast hx ▸ hs) fun x hx =>
    hlast hx ▸ hf
  · rw [hl] at hx
    simp only [Option.some.injEq, Prod.mk.injEq] at hx
    obtain ⟨rfl, rfl, _⟩ := hx
    rw [Option.some.inj (hy.symm.trans hv), hn]
  · rw [hl] at hx
    cases hx

theorem eval_choice_of_conjunction :
    Firm [(['a'], ['1']), (['b'], ['1'])] (['a', ' ', '&', '&', ' ', 'b'] ++ [' ']) ∧
      eval [(['a'], ['1']), (['b'], ['1'])]
        (choice ['a', ' ', '&', '&', ' ', 'b'] ['x'] ['\'', 'c', '\'']) = none := by
  have hx : IsOperand IsEven ['x'] := .name (by decide +kernel)
  have hc : IsOperand IsEven ['\'', 'c', '\''] :=
    .literal rfl (.plain (by decide) (by decide) .nil) (.of_not_mem (by decide) (by decide))
  have hb : IsOperand IsEven [' ', 'b', ' '] := by
    have hname : IsOperand IsEven ['b'] := .name (by decide +kernel)
    exact ⟨(part_spaced hname.part (by decide)).left, rfl⟩
  have hlast : Firm [(['a'], ['1']), (['b'], ['1'])] [' ', 'b', ' '] := by
    refine .of_operand hb fun k hk hh => ?_
    obtain rfl := Option.some.inj hh
    cases hk
  have hand : Part IsEven choiceSigns ['a', ' ', '&', '&', ' ', 'b'] :=
    .of_bare (List.all_eq_true.mp rfl) (by simp [choiceSigns])
  have hloosest : loosest? (statement (['a', ' ', '&', '&', ' ', 'b'] ++ [' '] ++ ['?'])) =
      some (.and, ['a', ' '], [' ', 'b', ' '] ++ ['?']) := by decide +kernel
  have hvalue : eval [(['a'], ['1']), (['b'], ['1'])] ['a', ' '] = some ['1'] := by decide +kernel
  have hfirm : Firm [(['a'], ['1']), (['b'], ['1'])] (['a', ' ', '&', '&', ' ', 'b'] ++ [' ']) :=
    .of_operator hloosest hvalue (by decide +kernel) (by decide +kernel) hlast
  refine ⟨hfirm, ?_⟩
  rw [(eval_choice_eq_selected_iff hand).right.mpr hfirm ['x'] ['\'', 'c', '\'']
    hx.choicePart.weaken hx.not_blank hc.choicePart hc.not_blank hc.startsOperand]
  decide +kernel

-- The comparison is made with all that follows it.
theorem eval_choice_of_comparison :
    Part IsEven choiceSigns ['n', ' ', '>', ' ', '0'] ∧ IsOperand IsEven ['x'] ∧
      IsOperand IsEven ['\'', 'a', '\''] ∧
      condition [(['n'], ['2'])] ['n', ' ', '>', ' ', '0'] = some true ∧
      eval [(['n'], ['2'])] ['x'] = none ∧
      eval [(['n'], ['2'])] (choice ['n', ' ', '>', ' ', '0'] ['x'] ['\'', 'a', '\'']) =
        some ['f', 'a', 'l', 's', 'e'] := by
  refine ⟨.of_bare (List.all_eq_true.mp rfl) (by simp [choiceSigns]), .name (by decide +kernel),
    .literal rfl (.plain (by decide) (by decide) .nil) (.of_not_mem (by decide) (by decide)),
    by decide +kernel, by decide +kernel, by decide +kernel⟩

end Choice

end Componentry.Static
