import Componentry.Proofs.Decimal.Notation
import Componentry.Proofs.Static.Operators

/-!
Sums. A text is cut at the plus signs of its top level, and the pieces of two balanced texts, one
after the other, are those of each with two of them joined. So a sum of operands is cut into these
operands. A sum with an operand that is not known has no value, but its text can also be taken for
one string, or for what stands in its first and last parenthesis.
-/
namespace Componentry.Static

def pluses (t : Text) : List Place :=
  (places t).filter (·.after.head? = some '+')

def pieces (t : Text) : List Text :=
  cutAt t 0 (pluses t)

section Pieces

variable {inside : Text → Prop} {absent : List Char} {s t first last : Text} {init rest : List Text}

theorem summands?_eq (t : Text) : summands? t =
    if pluses t = [] then none else some (pieces t) := by
  unfold summands? pieces pluses
  split
  case h_1 hn => rw [if_pos hn]
  case h_2 hs => rw [if_neg (by simp [hs]), hs]

theorem cutAt_extend (s : Text) (ps : List Place) (start : Nat) (hs : start ≤ s.length)
    (hp : ∀ p ∈ ps, p.before.length < s.length) :
    ∃ init stop, stop ≤ s.length ∧ cutAt s start ps = init ++ [s.drop stop] ∧
      ∀ t qs, cutAt (s ++ t) start (ps.map (Place.extend t) ++ qs) =
        init ++ cutAt (s ++ t) stop qs := by
  induction ps generalizing start
  case nil => exact ⟨[], start, hs, rfl, fun _ _ => rfl⟩
  case cons p ps ih =>
    obtain ⟨hfirst, hmore⟩ := List.forall_mem_cons.mp hp
    obtain ⟨init, stop, hstop, hcut, hext⟩ := ih (p.before.length + 1) hfirst hmore
    refine ⟨(p.before.take (p.before.length - start)).reverse :: init, stop,
      hstop, ?_, fun t qs => ?_⟩
    · rw [cutAt, hcut, List.cons_append]
    · rw [List.map_cons, List.cons_append, cutAt, Place.before_extend, hext, List.cons_append]

theorem cutAt_behind (s t : Text) (qs : List Place) (start : Nat) :
    cutAt (s ++ t) (start + s.length) (qs.map (Place.behind s)) = cutAt t start qs := by
  induction qs generalizing start
  case nil => simp [cutAt, Nat.add_comm start, List.drop_append]
  case cons q qs ih =>
    have hlength : (q.behind s).before.length = q.before.length + s.length := by simp [Place.behind]
    have htake : (q.behind s).before.take (q.before.length + s.length - (start + s.length)) =
        q.before.take (q.before.length - start) := by
      rw [Place.behind, Nat.add_sub_add_right, List.take_append_of_le_length (Nat.sub_le _ _)]
    rw [List.map_cons, cutAt, cutAt, hlength, htake, Nat.add_right_comm, ih]

theorem cutAt_across (s t : Text) (qs : List Place) (start : Nat) (hs : start ≤ s.length) :
    ∃ first rest, cutAt t 0 qs = first :: rest ∧
      cutAt (s ++ t) start (qs.map (Place.behind s)) = (s.drop start ++ first) :: rest := by
  cases qs
  case nil => exact ⟨t, [], rfl, by simp [cutAt, List.drop_append_of_le_length hs]⟩
  case cons q qs =>
    refine ⟨q.before.reverse, cutAt t (q.before.length + 1) qs, by simp [cutAt], ?_⟩
    have hlength : (q.behind s).before.length = q.before.length + s.length := by simp [Place.behind]
    have htake : ((q.behind s).before.take (q.before.length + s.length - start)).reverse =
        s.drop start ++ q.before.reverse := by
      rw [List.reverse_take, Place.reverse_before_behind, hlength, Nat.sub_sub_self (by omega),
        List.drop_append_of_le_length hs]
    rw [List.map_cons, cutAt, hlength, htake, Nat.add_right_comm, cutAt_behind]

theorem Balanced.pluses_append (h : Balanced inside s) (t : Text) :
    pluses (s ++ t) = (pluses s).map (Place.extend t) ++ (pluses t).map (Place.behind s) := by
  rw [pluses, h.places_append, List.filter_append, List.filter_map, List.filter_map]
  congr 2
  refine List.filter_congr fun p hp => ?_
  rw [Function.comp_apply, head?_after_extend hp]

-- The last piece of a text and the first of the next one are one piece.
theorem Balanced.pieces_append (h : Balanced inside s) (hs : pieces s = init ++ [last])
    (ht : pieces t = first :: rest) : pieces (s ++ t) = init ++ (last ++ first) :: rest := by
  have hlength : ∀ p ∈ pluses s, p.before.length < s.length :=
    fun p hp => length_before_lt (List.mem_filter.mp hp).left
  obtain ⟨init', stop, hstop, hcut, hext⟩ := cutAt_extend s (pluses s) 0 (Nat.zero_le _) hlength
  obtain ⟨first', rest', hcut', hacross⟩ := cutAt_across s t (pluses t) stop hstop
  obtain ⟨rfl, hlast⟩ := List.append_inj' (hs.symm.trans hcut) rfl
  obtain ⟨rfl, rfl⟩ := List.cons.inj (ht.symm.trans hcut')
  obtain rfl := (List.cons.inj hlast).left
  rw [pieces, h.pluses_append, hext, hacross]

theorem Balanced.pieces_append_single (h : Balanced inside s) (hs : pieces s = [s])
    (ht : pieces t = first :: rest) : pieces (s ++ t) = (s ++ first) :: rest :=
  h.pieces_append (List.nil_append [s] ▸ hs) ht

theorem pieces_ne_nil (t : Text) : pieces t ≠ [] := by
  unfold pieces
  cases pluses t <;> simp [cutAt]

theorem pieces_of_pluses (h : pluses t = []) : pieces t = [t] := by
  simp [pieces, h, cutAt]

theorem pluses_of_lacks (h : ∀ p ∈ places t, p.after.head? ≠ some '+') : pluses t = [] := by
  simpa [pluses, List.filter_eq_nil_iff] using h

theorem Part.pluses_eq_nil (h : Part inside ('+' :: absent) t) : pluses t = [] :=
  pluses_of_lacks fun p hp => h.lacks p hp '+' List.mem_cons_self

theorem cutAt_concat (t : Text) (ps : List Place) (p : Place) (start : Nat) :
    ∃ texts, cutAt t start (ps ++ [p]) = texts ++ [t.drop (p.before.length + 1)] := by
  induction ps generalizing start
  case nil => exact ⟨[(p.before.take (p.before.length - start)).reverse], rfl⟩
  case cons q ps ih =>
    obtain ⟨texts, ht⟩ := ih (q.before.length + 1)
    exact ⟨(q.before.take (q.before.length - start)).reverse :: texts, by simp [cutAt, ht]⟩

theorem exists_last_plus (hn : pluses t ≠ []) (h : pieces t = init ++ [last]) :
    ∃ p ∈ places t, p.after = '+' :: last := by
  obtain ⟨ps, p, hp⟩ : ∃ ps p, pluses t = ps ++ [p] :=
    ⟨_, _, (List.dropLast_append_getLast hn).symm⟩
  obtain ⟨hmem, hplus⟩ : p ∈ places t ∧ p.after.head? = some '+' := by
    have hm : p ∈ pluses t := by simp [hp]
    simpa using List.mem_filter.mp hm
  obtain ⟨rest, hrest⟩ := List.head?_eq_some_iff.mp hplus
  obtain ⟨texts, ht⟩ := cutAt_concat t ps p 0
  rw [← hp] at ht
  have he := (List.append_inj' (h.symm.trans ht) rfl).right
  have hdrop : t.drop (p.before.length + 1) = rest := by
    rw [← before_append_after hmem, hrest, ← List.length_reverse, ← List.drop_drop, List.drop_left]
    rfl
  exact ⟨p, hmem, by rw [hrest, (List.cons.inj he).left, hdrop]⟩

theorem pieces_eq_cons {p : Place} {ps : List Place} (h : pluses t = p :: ps) :
    p ∈ places t ∧ ∃ more, pieces t = p.before.reverse :: more := by
  have hmem : p ∈ pluses t := by simp [h]
  refine ⟨(List.mem_filter.mp hmem).left, cutAt t (p.before.length + 1) ps, ?_⟩
  rw [pieces, h, cutAt, Nat.sub_zero, List.take_length]

theorem pieces_plus (t : Text) : pieces ('+' :: t) = [] :: pieces t := by
  obtain ⟨first, rest, ht⟩ := List.exists_cons_of_ne_nil (pieces_ne_nil t)
  have hplus : Balanced (fun _ => True) ['+'] := .bare rfl .nil
  have hs : pieces ['+'] = [[]] ++ [[]] := rfl
  rw [← List.singleton_append, hplus.pieces_append hs ht, ht]
  rfl

end Pieces

section Values

variable {inside : Text → Prop} {absent : List Char} {scope : Scope} {s t u : Text}

theorem eval_of_statement_nil (h : statement t = []) : eval scope t = some [] := by
  rw [eval]
  split
  case h_1 => rfl
  case h_2 heq _ => simp [h] at heq

theorem eval_congr (h : statement s = statement t) : eval scope s = eval scope t := by
  cases ht : statement t
  case nil => rw [eval_of_statement_nil ht, eval_of_statement_nil (h.trans ht)]
  case cons c rest =>
    cases hp : parenthesized? (c :: rest)
    case none => rw [eval_eq ht hp, eval_eq (h.trans ht) hp]
    case some inner => rw [eval_parenthesized ht hp, eval_parenthesized (h.trans ht) hp]

theorem eval_append_left (h : ∀ c ∈ s, isBlank c) : eval scope (s ++ t) = eval scope t := by
  apply eval_congr
  have htrim : Text.trimStart (s ++ t) = t.trimStart := List.dropWhile_append_of_pos h
  rw [statement, statement, htrim]

theorem eval_append_right (h : ∀ c ∈ u, isBlank c) : eval scope (t ++ u) = eval scope t := by
  apply eval_congr
  have hu : ∀ c ∈ u.reverse, (isBlank c || decide (c = ';')) = true := fun c hc => by
    simp [h c (List.mem_reverse.mp hc)]
  simp only [statement, Text.trimStart, List.dropWhile_append, List.dropWhile_eq_nil_iff.mpr h]
  split
  case isTrue hn => rw [List.isEmpty_iff.mp hn]
  case isFalse => rw [List.reverse_append, List.dropWhile_append_of_pos hu]

theorem eval_trimStart_append (t u : Text) :
    eval scope (t.trimStart ++ u) = eval scope (t ++ u) := by
  obtain ⟨s, hs, hb⟩ := Text.exists_dropWhile isBlank t
  conv_rhs => rw [hs, List.append_assoc]
  exact (eval_append_left hb).symm

theorem eval_trimStart (t : Text) : eval scope t.trimStart = eval scope t := by
  simpa using @eval_trimStart_append scope t []

theorem eval_trimEnd (t : Text) : eval scope t.trimEnd = eval scope t := by
  obtain ⟨s, hs, hb⟩ := Text.exists_trimEnd t
  conv_rhs => rw [hs]
  exact (eval_append_right hb).symm

theorem allKnown_eq_none_iff {values : List (Option Text)} :
    allKnown values = none ↔ none ∈ values := by
  induction values
  case nil => simp [allKnown]
  case cons value values ih =>
    cases value
    case none => simp [allKnown]
    case some => simpa [allKnown] using ih

theorem total?_eq_none_iff : total? scope (summands? t) = none ↔
    pluses t = [] ∨ none ∈ (pieces t).map (eval scope) := by
  rw [summands?_eq]
  split
  case isTrue hn => simp [total?, hn]
  case isFalse hn =>
    simp only [total?, Option.map_eq_none_iff, allKnown_eq_none_iff, hn, false_or]

theorem pluses_of_isBlank (h : ∀ c ∈ t, isBlank c) : pluses t = [] := by
  refine pluses_of_lacks fun p hp hh => ?_
  have hm : '+' ∈ t := before_append_after hp ▸ List.mem_append_right _ (List.mem_of_head? hh)
  exact absurd (h _ hm) (by decide)

theorem pieces_of_isBlank (h : ∀ c ∈ t, isBlank c) : pieces t = [t] :=
  pieces_of_pluses (pluses_of_isBlank h)

theorem map_eval_pieces_left (hs : ∀ c ∈ s, isBlank c) :
    (pieces (s ++ t)).map (eval scope) = (pieces t).map (eval scope) := by
  have hbare : Balanced (fun _ => True) s := .of_bare fun c hc => isBare_of_isBlank (hs c hc)
  obtain ⟨first, rest, ht⟩ := List.exists_cons_of_ne_nil (pieces_ne_nil t)
  rw [hbare.pieces_append_single (pieces_of_isBlank hs) ht, ht]
  simp [eval_append_left hs]

theorem Balanced.map_eval_pieces_right (h : Balanced inside t) (hu : ∀ c ∈ u, isBlank c) :
    (pieces (t ++ u)).map (eval scope) = (pieces t).map (eval scope) := by
  have ht := (List.dropLast_append_getLast (pieces_ne_nil t)).symm
  rw [h.pieces_append ht (pieces_of_isBlank hu), List.map_append, List.map_singleton,
    eval_append_right hu, ← List.map_singleton, ← List.map_append, ← ht]

theorem Balanced.map_eval_pieces_trim (h : Balanced inside t) :
    (pieces t.trim).map (eval scope) = (pieces t).map (eval scope) := by
  obtain ⟨s, u, ht, hs, hu⟩ := t.exists_trim
  rw [List.append_assoc] at ht
  have hright := (ht ▸ h).of_append_right fun c hc => isBare_of_isBlank (hs c hc)
  have htrim := hright.of_append_left fun c hc => isBare_of_isBlank (hu c hc)
  conv_rhs => rw [ht]
  rw [map_eval_pieces_left hs, htrim.map_eval_pieces_right hu]

theorem not_mem_keywords {c : Char} (hm : c ∈ t) (hc : c.isAlphanum = false) : t ∉ keywords := by
  intro hk
  have hall : keywords.all (·.all Char.isAlphanum) := by decide
  have hletters := List.all_eq_true.mp hall t hk
  simpa [hc] using List.all_eq_true.mp hletters c hm

-- A text with a character that is in no number, word or name can only be a string.
theorem leaf_eq_string? {c : Char} (hm : c ∈ t) (hc : c.isAlphanum = false)
    (hn : c ∉ ['+', '-', '.'])
    (hw : isWord c = false) : leaf scope t = string? t := by
  have hnumber := Decimal.read?_eq_none hm hc hn
  have hkeyword := not_mem_keywords hm hc
  have hname : isName t = false := by
    rw [Bool.eq_false_iff]
    intro hname
    simpa [hw] using (isWord_of_isName hname).right c hm
  rw [leaf, hnumber]
  cases hs : string? t
  case some => rfl
  case none => simp [hkeyword, hname]

end Values

def sumSigns : List Char :=
  ['?', ':', '|', '&', '=', '!', '>', '<', ';']

-- An operand of a sum: a literal, a name, something in parentheses or a sequence of them.
structure IsOperand (inside : Text → Prop) (t : Text) : Prop where
  part : Part inside ('+' :: sumSigns) t
  not_blank : t.all isBlank = false

def joined (operands : List Text) : Text :=
  [' ', '+', ' '].intercalate operands

section Joined

variable {inside : Text → Prop} {scope : Scope} {o : Text} {os : List Text}

theorem joined_cons (ho : os ≠ []) : joined (o :: os) = o ++ ' ' :: '+' :: ' ' :: joined os := by
  obtain ⟨p, os, rfl⟩ := List.exists_cons_of_ne_nil ho
  simp [joined, List.intercalate]

theorem part_joined (h : ∀ o ∈ os, IsOperand inside o) : Part inside sumSigns (joined os) := by
  induction os
  case nil => exact ⟨.nil, by simp [joined, List.intercalate, places, places.go]⟩
  case cons o os ih =>
    obtain ⟨ho, hos⟩ := List.forall_mem_cons.mp h
    have hpart := ho.part.mono fun c hc => List.mem_cons_of_mem '+' hc
    by_cases hn : os = []
    case pos => simpa [hn, joined, List.intercalate] using hpart
    case neg =>
      have hbare : [' ', '+', ' '].all isBare := rfl
      have hplus : Part inside sumSigns [' ', '+', ' '] :=
        .of_bare (List.all_eq_true.mp hbare) (by simp [sumSigns])
      rw [joined_cons hn]
      exact hpart.append (hplus.append (ih hos))

theorem map_eval_pieces_joined (hn : os ≠ []) (h : ∀ o ∈ os, IsOperand inside o) :
    (pieces (joined os)).map (eval scope) = os.map (eval scope) := by
  have hblank : ∀ c ∈ [' '], isBlank c := List.forall_mem_singleton.mpr rfl
  induction os
  case nil => exact absurd rfl hn
  case cons o os ih =>
    obtain ⟨ho, hos⟩ := List.forall_mem_cons.mp h
    have hpiece : pieces o = [o] :=
      pieces_of_pluses ho.part.pluses_eq_nil
    by_cases hne : os = []
    case pos => simp [hne, joined, List.intercalate, hpiece]
    case neg =>
      have hspace : pieces (' ' :: '+' :: ' ' :: joined os) =
          [' '] :: pieces (' ' :: joined os) := by
        have hbare : Balanced (fun _ => True) [' '] := .bare rfl .nil
        exact hbare.pieces_append_single (pieces_of_isBlank hblank) (pieces_plus _)
      have hmore : (pieces (' ' :: joined os)).map (eval scope) = os.map (eval scope) :=
        (map_eval_pieces_left hblank).trans (ih hne hos)
      rw [joined_cons hne, ho.part.balanced.pieces_append_single hpiece hspace, List.map_cons,
        eval_append_right hblank, hmore, List.map_cons]

-- What is read of a sum that has an operand without a value.
theorem eval_joined_of_unknown (ho : os ≠ []) (h : ∀ p ∈ o :: os, IsOperand inside p)
    (hn : ∃ p ∈ o :: os, eval scope p = none) : eval scope (joined (o :: os)) =
      (parenthesized? (joined (o :: os)).trim).elim (string? (joined (o :: os))) (eval scope) := by
  have hpart := part_joined h
  have hfirst := (List.forall_mem_cons.mp h).left
  have hst := hpart.statement_eq (by decide)
  have hplus : isBlank '+' = false := rfl
  have htrim : (joined (o :: os)).trim =
      (o ++ [' ']).trimStart ++ '+' :: Text.trimEnd (' ' :: joined os) := by
    rw [joined_cons ho, ← Text.trim_append_cons _ _ hplus]
    simp
  have hspace : ' ' ∈ (o ++ [' ']).trimStart := by
    obtain ⟨c, hc, hb⟩ := List.all_eq_false.mp hfirst.not_blank
    have hne : o.dropWhile isBlank ≠ [] := fun hd => hb (List.dropWhile_eq_nil_iff.mp hd c hc)
    simp [Text.trimStart, List.dropWhile_append, hne]
  cases ht : (joined (o :: os)).trim
  case nil => simp [ht] at htrim
  case cons c rest =>
    rw [ht] at hst
    have hparts := hpart.trimStart.trimEnd
    change Part _ _ (joined (o :: os)).trim at hparts
    cases hp : parenthesized? (c :: rest)
    case some inner => rw [eval_parenthesized hst hp, Option.elim_some]
    case none =>
      have hnot : c ≠ '!' := by
        rintro rfl
        have hmem : '!' ∈ sumSigns := by decide
        exact hparts.head?_ne hmem rfl (by rw [ht]; rfl)
      have htotal : total? scope (summands? (c :: rest)) = none := by
        rw [total?_eq_none_iff, ← ht, hpart.balanced.map_eval_pieces_trim,
          map_eval_pieces_joined (List.cons_ne_nil o os) h]
        exact .inr (List.mem_map.mpr hn)
      have hleaf : leaf scope (c :: rest) = string? (joined (o :: os)) := by
        rw [← ht, leaf_eq_string? (c := ' ') (by simp [htrim, hspace]) (by decide) (by decide)
          (by decide +kernel)]
        rw [string?, string?, Text.trim_trim]
      rw [ht] at hparts
      rw [eval_eq hst hp, hparts.ternary?_eq_none (.inl (by decide)),
        hparts.loosest?_eq_none (by simp [operatorSigns, sumSigns]), htotal, hleaf, if_neg hnot]
      rfl

end Joined

section Quotations

variable {s t : Text}

theorem hasSubstitution_eq_false (h : '$' ∉ t) : hasSubstitution t = false := by
  induction t
  case nil => rfl
  case cons c t ih =>
    obtain ⟨hc, ht⟩ : c ≠ '$' ∧ '$' ∉ t := by simpa [eq_comm] using h
    simp [hasSubstitution, hc, ih ht]

theorem hasSubstitution_append_left (h : '$' ∉ s) :
    hasSubstitution (s ++ t) = hasSubstitution t := by
  induction s
  case nil => rfl
  case cons c s ih =>
    obtain ⟨hc, hs⟩ : c ≠ '$' ∧ '$' ∉ s := by simpa [eq_comm] using h
    simp [hasSubstitution, hc, ih hs]

theorem hasSubstitution_append_right (h : '$' ∉ t) (hb : t.head? ≠ some '{') :
    hasSubstitution (s ++ t) = hasSubstitution s := by
  induction s
  case nil => simpa [hasSubstitution] using hasSubstitution_eq_false h
  case cons c s ih =>
    rw [List.cons_append, hasSubstitution, hasSubstitution, ih]
    cases s
    case nil => simp [hb]
    case cons => rfl

theorem hasSubstitution_of_append (h : hasSubstitution (s ++ t) = false) :
    hasSubstitution s = false := by
  induction s
  case nil => rfl
  case cons c s ih =>
    rw [List.cons_append, hasSubstitution, Bool.or_eq_false_iff] at h
    rw [hasSubstitution, ih h.right, Bool.or_false]
    cases s
    case nil => simp
    case cons => exact h.left

theorem hasSubstitution_trim (t : Text) : hasSubstitution t.trim = hasSubstitution t := by
  obtain ⟨s, u, ht, hs, hu⟩ := t.exists_trim
  have hdollar {v : Text} (hv : ∀ c ∈ v, isBlank c) : '$' ∉ v :=
    fun hm => absurd (hv _ hm) (by decide)
  have hbrace : u.head? ≠ some '{' := fun hh => absurd (hu _ (List.mem_of_head? hh)) (by decide)
  conv_rhs => rw [ht]
  rw [hasSubstitution_append_right (hdollar hu) hbrace, hasSubstitution_append_left (hdollar hs)]

theorem string?_ne_none_iff : string? t ≠ none ↔
    ∃ q content, t.trim = q :: (content ++ [q]) ∧ isQuote q ∧
    (q = '\x60' → hasSubstitution t = false) := by
  rw [← hasSubstitution_trim, string?]
  cases t.trim
  case nil => simp
  case cons c rest =>
    have hinner {content : Text} (hc : c = '\x60') :
        hasSubstitution (c :: (content ++ [c])) = hasSubstitution content := by
      rw [hc, ← List.singleton_append, hasSubstitution_append_left (by decide),
        hasSubstitution_append_right (by decide) (by decide)]
    dsimp only
    constructor
    · intro h
      split at h
      case isFalse => exact absurd rfl h
      case isTrue hs =>
        simp only [Bool.and_eq_true, decide_eq_true_eq, Bool.not_eq_true', Bool.and_eq_false_iff,
          decide_eq_false_iff_not] at hs
        obtain ⟨⟨hq, hlast⟩, hsub⟩ := hs
        obtain ⟨content, rfl⟩ := List.getLast?_eq_some_iff.mp hlast
        refine ⟨c, content, rfl, hq, fun hc => ?_⟩
        rw [hinner hc]
        simpa [hc] using hsub
    · rintro ⟨q, content, ht, hq, hsub⟩
      obtain ⟨rfl, rfl⟩ := List.cons.inj ht
      have hno : (decide (c = '\x60') && hasSubstitution content) = false := by
        by_cases hc : c = '\x60'
        case pos =>
          rw [← hinner hc, hsub hc, Bool.and_false]
        case neg => simp [hc]
      simp [hq, hno]

end Quotations

section Unresolved

variable {inside : Text → Prop} {scope : Scope} {first last : Text} {middle : List Text}

theorem joined_ends (first last : Text) (middle : List Text) :
    ∃ t, joined (first :: (middle ++ [last])) = first ++ ' ' :: '+' :: ' ' :: (t ++ last) := by
  induction middle generalizing first
  case nil => exact ⟨[], by simp [joined, List.intercalate]⟩
  case cons o middle ih =>
    obtain ⟨t, ht⟩ := ih o
    exact ⟨o ++ ' ' :: '+' :: ' ' :: t, by rw [List.cons_append, joined_cons (by simp), ht]; simp⟩

-- A sum is in one pair of quotes if its first operand starts with a quote and its last ends with
-- it.
theorem string?_joined_ne_none_iff (hf : first.all isBlank = false)
    (hl : last.all isBlank = false) :
    string? (joined (first :: (middle ++ [last]))) ≠ none ↔
      ∃ q, isQuote q ∧ first.trim.head? = some q ∧ last.trim.getLast? = some q ∧
        (q = '\x60' → hasSubstitution (joined (first :: (middle ++ [last]))) = false) := by
  obtain ⟨t, ht⟩ := joined_ends first last middle
  have hhead := Text.head?_trim_append hf (' ' :: '+' :: ' ' :: (t ++ last))
  have hlast := Text.getLast?_trim_append hl (first ++ ' ' :: '+' :: ' ' :: t)
  have hplus : '+' ∈ (joined (first :: (middle ++ [last]))).trim := by
    have hblank : isBlank '+' = false := rfl
    have htrim := Text.trim_append_cons (first ++ [' ']) (' ' :: (t ++ last)) hblank
    rw [List.append_assoc, List.singleton_append, ← ht] at htrim
    simp [htrim]
  simp only [List.append_assoc, List.cons_append] at hlast
  rw [← ht] at hhead hlast
  rw [string?_ne_none_iff, ← hhead, ← hlast]
  constructor
  · rintro ⟨q, content, he, hq, hsub⟩
    exact ⟨q, hq, by simp [he], by simp [he, List.getLast?_cons], hsub⟩
  · rintro ⟨q, hq, hfirst, hend, hsub⟩
    obtain ⟨rest, he⟩ := List.head?_eq_some_iff.mp hfirst
    rw [he] at hend hplus
    cases rest
    case nil =>
      obtain rfl := List.mem_singleton.mp hplus
      cases hq
    case cons c rest =>
      rw [List.getLast?_cons_cons] at hend
      obtain ⟨content, hcontent⟩ := List.getLast?_eq_some_iff.mp hend
      exact ⟨q, content, by rw [he, hcontent], hq, hsub⟩

-- A sum of operands one of which has no value has none, unless its text is taken for one literal or
-- for what its first and last parenthesis enclose. The latter needs a string with an odd
-- parenthesis.
theorem eval_joined_eq_none_iff (h : ∀ o ∈ first :: (middle ++ [last]), IsOperand (fun _ => True) o)
    (hn : ∃ o ∈ first :: (middle ++ [last]), eval scope o = none) :
    (eval scope (joined (first :: (middle ++ [last]))) = none ↔
      (¬∃ q, isQuote q ∧ first.trim.head? = some q ∧ last.trim.getLast? = some q ∧
        (q = '\x60' → hasSubstitution (joined (first :: (middle ++ [last]))) = false)) ∧
      ∀ inner, parenthesized? (joined (first :: (middle ++ [last]))).trim = some inner →
        eval scope inner = none) ∧
    (Balanced IsEven first →
      parenthesized? (joined (first :: (middle ++ [last]))).trim = none) := by
  have hf := (h first (by simp)).not_blank
  have hl := (h last (by simp)).not_blank
  rw [← string?_joined_ne_none_iff hf hl, eval_joined_of_unknown (by simp) h hn, not_not]
  constructor
  · cases hp : parenthesized? (joined (first :: (middle ++ [last]))).trim
    case none => simp
    case some inner =>
      have hs : string? (joined (first :: (middle ++ [last]))) = none := by
        unfold parenthesized? at hp
        split at hp
        case h_1 he => simp [string?, he, isQuote]
        case h_2 => cases hp
      simp [hs]
  · intro heven
    have hblank : isBlank '+' = false := rfl
    have hpart : Part IsEven [] (first ++ [' ']) := ⟨heven.append (.bare rfl .nil), by simp⟩
    rw [joined_cons (by simp), ← List.singleton_append, ← List.append_assoc,
      Text.trim_append_cons _ _ hblank]
    exact hpart.trimStart.balanced.parenthesized?_append (by simp) (by simp)

end Unresolved

theorem isBlank_of_isQuote {q : Char} (h : isQuote q) : isBlank q = false := by
  simp only [isQuote, Bool.or_eq_true, decide_eq_true_eq] at h
  rcases h with (rfl | rfl) | rfl <;> rfl

namespace IsOperand

variable {inside : Text → Prop}

theorem literal {q : Char} {content : Text} (hq : isQuote q) (hc : IsContent q content)
    (hi : inside content) : IsOperand inside (q :: (content ++ [q])) := by
  refine ⟨⟨.string hq hc hi .nil, ?_⟩, ?_⟩
  · rw [Balanced.places_string hc hq]
    simp [places, places.go]
  · simp [isBlank_of_isQuote hq]

theorem parenthesized {t : Text} (h : Balanced inside t) :
    IsOperand inside ('(' :: (t ++ [')'])) := by
  refine ⟨⟨.group .round h .nil, ?_⟩, by simp [isBlank]⟩
  rw [h.places_group .round]
  simp [places, places.go]

theorem name {t : Text} (h : isName t) : IsOperand inside t := by
  obtain ⟨hn, hw⟩ := isWord_of_isName h
  refine ⟨.of_bare (fun c hc => isBare_of_isWord (hw c hc)) fun c hc hm => ?_, ?_⟩
  · have hsign : c ∈ signs := by
      have hall : ('+' :: sumSigns).all signs.contains := by decide
      exact List.contains_iff_mem.mp (List.all_eq_true.mp hall c hc)
    exact ne_of_isWord (hw c hm) c hsign rfl
  · obtain ⟨c, u, rfl⟩ := List.exists_cons_of_ne_nil hn
    simp [isBlank_eq_false_of_isWord (hw c List.mem_cons_self)]

end IsOperand

theorem eval_joined_eq_none_group :
    eval [] (joined [['\'', 'a', '\''], ['x'], ['(', 'b', ')']]) = none := by
  have hliteral : IsOperand (fun _ => True) ['\'', 'a', '\''] :=
    .literal rfl (.plain (by decide) (by decide) .nil) trivial
  have hname : IsOperand (fun _ => True) ['x'] := .name (by decide +kernel)
  have hgroup : IsOperand (fun _ => True) ['(', 'b', ')'] := .parenthesized (.bare rfl .nil)
  have h : ∀ o ∈ ['\'', 'a', '\''] :: ([['x']] ++ [['(', 'b', ')']]),
      IsOperand (fun _ => True) o := by
    simp [hliteral, hname, hgroup]
  have hn : ∃ o ∈ ['\'', 'a', '\''] :: ([['x']] ++ [['(', 'b', ')']]), eval [] o = none :=
    ⟨['x'], by simp, by decide +kernel⟩
  have hiff := eval_joined_eq_none_iff h hn
  have heven : Balanced IsEven ['\'', 'a', '\''] :=
    .string rfl (.plain (by decide) (by decide) .nil) (.of_not_mem (by decide) (by decide)) .nil
  refine hiff.left.mpr ⟨?_, fun inner hi => ?_⟩
  · rintro ⟨q, hq, _, hlast, _⟩
    have hend : (Text.trim ['(', 'b', ')']).getLast? = some ')' := by decide
    obtain rfl := Option.some.inj (hend.symm.trans hlast)
    cases hq
  · rw [hiff.right heven] at hi
    cases hi

-- The first and the last literal make the sum one literal.
theorem eval_joined_quoted :
    (∀ o ∈ [['\'', 'a', '\''], ['x'], ['\'', 'b', '\'']], IsOperand (fun _ => True) o) ∧
    eval [] ['x'] = none ∧
      eval [] (joined [['\'', 'a', '\''], ['x'], ['\'', 'b', '\'']]) =
        some ['a', '\'', ' ', '+', ' ', 'x', ' ', '+', ' ', '\'', 'b'] := by
  have hliteral {c : Char} (hq : c ≠ '\'') (hb : c ≠ '\\') :
      IsOperand (fun _ => True) ['\'', c, '\''] :=
    .literal rfl (.plain hq hb .nil) trivial
  have hname : IsOperand (fun _ => True) ['x'] := .name (by decide +kernel)
  refine ⟨?_, by decide +kernel, by decide +kernel⟩
  simp [hliteral (c := 'a') (by decide) (by decide),
    hliteral (c := 'b') (by decide) (by decide), hname]

end Componentry.Static
