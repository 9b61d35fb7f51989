import Componentry.Proofs.Static.Balanced

/-!
The loosest operator of a text that is written in parts. It is the loosest of one of the parts, and
what stands before or after a part is added to its operands.
-/
namespace Componentry.Static

def operatorSigns : List Char :=
  ['|', '&', '=', '!', '>', '<']

theorem symbol_spec : ∀ row ∈ Operator.rows, ∀ operator ∈ row,
    operator.symbol ≠ [] ∧ ∀ c ∈ operator.symbol, c ∈ operatorSigns := by
  have hall : Operator.rows.all fun row => row.all fun operator =>
      !operator.symbol.isEmpty && operator.symbol.all operatorSigns.contains := by decide
  simpa using hall

theorem isBare_of_mem_symbol {row : List Operator} {operator : Operator} {c : Char}
    (hr : row ∈ Operator.rows) (ho : operator ∈ row) (hc : c ∈ operator.symbol) : isBare c := by
  have hall : operatorSigns.all isBare := by decide
  exact List.all_eq_true.mp hall c ((symbol_spec row hr operator ho).right c hc)

theorem operandsAt?_eq_none_of_head? {p : Place} {row : List Operator} {operator : Operator}
    (hp : ∀ c ∈ operatorSigns, p.after.head? ≠ some c) (hr : row ∈ Operator.rows)
    (ho : operator ∈ row) : operandsAt? p operator = none := by
  obtain ⟨hne, hsigns⟩ := symbol_spec row hr operator ho
  obtain ⟨c, u, hu⟩ := List.exists_cons_of_ne_nil hne
  have hn : p.after.stripStart? operator.symbol = none := by
    rw [Option.eq_none_iff_forall_ne_some]
    intro rest hrest
    rw [Text.stripStart?_eq_some_iff.mp hrest, hu] at hp
    exact hp c (hsigns c (by simp [hu])) rfl
  simp [operandsAt?, hn]

def found? (row : List Operator) (p : Place) : Option (Operator × Text × Text) :=
  row.findSome? fun operator => (operandsAt? p operator).map fun operands => (operator, operands)

def loosestAt? (ps : List Place) : Option (Operator × Text × Text) :=
  Operator.rows.findSome? fun row => ps.reverse.findSome? (found? row)

theorem loosest?_eq (t : Text) : loosest? t = loosestAt? (places t) :=
  rfl

section Lists

variable {α β γ : Type} {f g : α → Option β} {b : β}

theorem findSome?_or_eq_some {l : List α} (h : l.findSome? (fun a => (f a).or (g a)) = some b) :
    l.findSome? f = some b ∨ l.findSome? g = some b := by
  induction l
  case nil => cases h
  case cons a l ih =>
    rw [List.findSome?_cons] at h
    cases hf : f a <;> cases hg : g a <;> simp_all

theorem findSome?_eq_map {k : α → Option γ} {m : β → γ} {l : List α}
    (h : ∀ a ∈ l, k a = (f a).map m) :
    l.findSome? k = (l.findSome? f).map m := by
  induction l
  case nil => rfl
  case cons a l ih =>
    obtain ⟨ha, hl⟩ := List.forall_mem_cons.mp h
    rw [List.findSome?_cons, List.findSome?_cons, ha, ih hl]
    cases f a <;> rfl

-- A search that finds no more than another finds the same, if it does not miss what the other
-- finds.
theorem findSome?_weaken {k : α → Option γ} {l : List α} {c : γ} (h : l.findSome? f = some b)
    (hn : ∀ a ∈ l, f a = none → k a = none) (hs : ∀ a ∈ l, f a = some b → k a = some c) :
    l.findSome? k = some c := by
  induction l
  case nil => cases h
  case cons a l ih =>
    obtain ⟨hna, hn⟩ := List.forall_mem_cons.mp hn
    obtain ⟨hsa, hs⟩ := List.forall_mem_cons.mp hs
    rw [List.findSome?_cons] at h ⊢
    cases hf : f a
    case none =>
      rw [hf] at h
      rw [hna hf]
      exact ih h hn hs
    case some x =>
      rw [hf] at h
      rw [hsa (hf.trans h)]

end Lists

section Places

variable {ps qs : List Place} {p : Place} {operator : Operator} {l r : Text}

theorem loosestAt?_append_eq_some {found : Operator × Text × Text}
    (h : loosestAt? (ps ++ qs) = some found) : loosestAt? ps = some found ∨
    loosestAt? qs = some found := by
  simp only [loosestAt?, List.reverse_append, List.findSome?_append] at h
  exact (findSome?_or_eq_some h).symm

theorem loosestAt?_eq_none_iff : loosestAt? ps = none ↔
    ∀ p ∈ ps, ∀ row ∈ Operator.rows, ∀ operator ∈ row, operandsAt? p operator = none := by
  simp only [loosestAt?, found?, List.findSome?_eq_none_iff, List.mem_reverse,
    Option.map_eq_none_iff]
  exact ⟨fun h p hp row hr => h row hr p hp, fun h row hr p hp => h p hp row hr⟩

theorem loosestAt?_append_of_none (h : loosestAt? qs = none) :
    loosestAt? (ps ++ qs) = loosestAt? ps := by
  have hn : ∀ row ∈ Operator.rows, qs.reverse.findSome? (found? row) = none :=
    List.findSome?_eq_none_iff.mp h
  simp only [loosestAt?, List.reverse_append, List.findSome?_append]
  refine (findSome?_eq_map (m := id) fun row hr => ?_).trans Option.map_id'
  rw [hn row hr, Option.none_or, Option.map_id, id]

theorem loosestAt?_eq_none_of_lacks (h : ∀ p ∈ ps, ∀ c ∈ operatorSigns, p.after.head? ≠ some c) :
    loosestAt? ps = none :=
  loosestAt?_eq_none_iff.mpr fun p hp _ hr _ ho => operandsAt?_eq_none_of_head? (h p hp) hr ho

theorem exists_of_loosestAt? (h : loosestAt? ps = some (operator, l, r)) :
    ∃ p ∈ ps, ∃ row ∈ Operator.rows, operator ∈ row ∧ operandsAt? p operator = some (l, r) := by
  obtain ⟨row, hr, h⟩ := List.exists_of_findSome?_eq_some h
  obtain ⟨p, hp, h⟩ := List.exists_of_findSome?_eq_some h
  obtain ⟨o, ho, h⟩ := List.exists_of_findSome?_eq_some h
  obtain ⟨operands, hs, he⟩ := Option.map_eq_some_iff.mp h
  obtain ⟨rfl, rfl⟩ := Prod.mk.inj he
  exact ⟨p, List.mem_reverse.mp hp, row, hr, ho, hs⟩

theorem loosestAt?_map {f : Place → Place} {g : Text × Text → Text × Text}
    (h : ∀ p ∈ ps, ∀ row ∈ Operator.rows, ∀ operator ∈ row,
      operandsAt? (f p) operator = (operandsAt? p operator).map g) :
    loosestAt? (ps.map f) = (loosestAt? ps).map fun found => (found.1, g found.2) := by
  refine findSome?_eq_map fun row hr => ?_
  rw [← List.map_reverse, List.findSome?_map]
  refine findSome?_eq_map fun p hp => ?_
  refine findSome?_eq_map fun operator ho => ?_
  rw [h p (List.mem_reverse.mp hp) row hr operator ho, Option.map_map, Option.map_map]
  rfl

theorem loosestAt?_weaken {f : Place → Place} {s : Text}
    (h : loosestAt? (ps.map f) = some (operator, l, r))
    (hn : ∀ p ∈ ps, ∀ row ∈ Operator.rows, ∀ operator ∈ row,
      operandsAt? (f p) operator = none → operandsAt? p operator = none)
    (hs : ∀ p ∈ ps, ∀ row ∈ Operator.rows, ∀ operator ∈ row,
      operandsAt? (f p) operator = some (l, r) → operandsAt? p operator = some (l, s)) :
    loosestAt? ps = some (operator, l, s) := by
  have hfound {row : List Operator} (hr : row ∈ Operator.rows) {p : Place} (hp : p ∈ ps)
      (hf : found? row (f p) = none) : found? row p = none := by
    simp only [found?, List.findSome?_eq_none_iff, Option.map_eq_none_iff] at hf ⊢
    exact fun o ho => hn p hp row hr o ho (hf o ho)
  refine findSome?_weaken h (fun row hr hf => ?_) fun row hr hf => ?_
  · rw [← List.map_reverse, List.findSome?_map, List.findSome?_eq_none_iff] at hf
    rw [List.findSome?_eq_none_iff]
    exact fun p hp => hfound hr (List.mem_reverse.mp hp) (hf p hp)
  · rw [← List.map_reverse, List.findSome?_map] at hf
    refine findSome?_weaken hf (fun p hp => hfound hr (List.mem_reverse.mp hp)) fun p hp hf => ?_
    have hp := List.mem_reverse.mp hp
    refine findSome?_weaken hf (fun o ho hf => ?_) fun o ho hf => ?_
    · rw [Option.map_eq_none_iff] at hf ⊢
      exact hn p hp row hr o ho hf
    · obtain ⟨operands, hf, he⟩ := Option.map_eq_some_iff.mp hf
      obtain ⟨rfl, rfl⟩ := Prod.mk.inj he
      rw [hs p hp row hr o ho hf, Option.map_some]

end Places

section Operands

variable {inside : Text → Prop} {p : Place} {row : List Operator} {operator : Operator}
variable {l r s t : Text}

def Operator.endsBefore (operator : Operator) (next : Option Char) : Bool :=
  next ≠ some '=' &&
    !((operator.symbol = ['>'] || operator.symbol = ['<']) && next = some '>')

theorem operandsAt?_eq_some_iff : operandsAt? p operator = some (l, r) ↔
    p.after = operator.symbol ++ r ∧ p.before.reverse = l ∧
      (p.before.head?.any fun c => c = '=' || c = '!' || c = '<' || c = '>') = false ∧
      operator.endsBefore r.head? ∧ p.before.all isBlank = false ∧ r.all isBlank = false := by
  rw [← Text.stripStart?_eq_some_iff]
  cases hs : p.after.stripStart? operator.symbol
  case none => simp [operandsAt?, hs]
  case some rest =>
    simp only [operandsAt?, hs, Option.bind_eq_bind, Option.bind_some, Option.some.injEq,
      Operator.endsBefore]
    constructor
    · intro h
      split at h
      case isTrue => cases h
      case isFalse hn =>
        obtain ⟨rfl, rfl⟩ := Prod.mk.inj (Option.some.inj h)
        simp only [Bool.or_eq_true, not_or, Bool.not_eq_true] at hn
        obtain ⟨⟨⟨⟨⟨_, hj⟩, he⟩, hg⟩, hb⟩, hr⟩ := hn
        refine ⟨rfl, rfl, hj, ?_, hb, hr⟩
        rw [Bool.and_eq_true, decide_eq_true_eq, Bool.not_eq_true']
        exact ⟨of_decide_eq_false he, hg⟩
    · rintro ⟨rfl, rfl, hj, he, hb, hr⟩
      have hne : p.before ≠ [] := by
        intro hp
        simp [hp] at hb
      rw [Bool.and_eq_true, decide_eq_true_eq, Bool.not_eq_true'] at he
      rw [if_neg]
      simp [hne, hj, he.left, he.right, hb, hr]

theorem operandsAt?_extend (h : operandsAt? p operator = some (l, r)) (t : Text) :
    operandsAt? (p.extend t) operator = some (l, r ++ t) := by
  rw [operandsAt?_eq_some_iff] at h ⊢
  obtain ⟨ha, hl, hj, he, hb, hr⟩ := h
  have hhead : (r ++ t).head? = r.head? := by
    cases r
    case nil => cases hr
    case cons => rfl
  refine ⟨?_, hl, hj, by rwa [hhead], hb, ?_⟩
  · rw [Place.extend, ha, List.append_assoc]
  · rw [List.all_append, hr, Bool.false_and]

theorem operandsAt?_behind (h : operandsAt? p operator = some (l, r)) (s : Text) :
    operandsAt? (p.behind s) operator = some (s ++ l, r) := by
  rw [operandsAt?_eq_some_iff] at h ⊢
  obtain ⟨ha, hl, hj, he, hb, hr⟩ := h
  have hhead : (p.behind s).before.head? = p.before.head? := by
    rw [Place.behind]
    cases hp : p.before
    case nil => simp [hp] at hb
    case cons => rfl
  refine ⟨ha, by rw [Place.reverse_before_behind, hl], by rwa [hhead], he, ?_, hr⟩
  rw [Place.behind, List.all_append, hb, Bool.false_and]

theorem operandsAt?_eq_none_of_extend (h : operandsAt? (p.extend t) operator = none) :
    operandsAt? p operator = none := by
  rw [Option.eq_none_iff_forall_ne_some]
  rintro ⟨l, r⟩ hs
  rw [operandsAt?_extend hs] at h
  cases h

theorem operandsAt?_eq_none_of_behind (h : operandsAt? (p.behind s) operator = none) :
    operandsAt? p operator = none := by
  rw [Option.eq_none_iff_forall_ne_some]
  rintro ⟨l, r⟩ hs
  rw [operandsAt?_behind hs] at h
  cases h

-- An operator that starts in a text with a question mark at its end is in it as a whole.
theorem operandsAt?_extend_question (hq : '?' ∈ p.after) (hr : row ∈ Operator.rows)
    (ho : operator ∈ row) (t : Text) : operandsAt? (p.extend t) operator =
      (operandsAt? p operator).map fun operands => (operands.1, operands.2 ++ t) := by
  cases hp : operandsAt? p operator
  case some operands => rw [operandsAt?_extend hp, Option.map_some]
  case none =>
    rw [Option.map_none, Option.eq_none_iff_forall_ne_some]
    rintro ⟨l, r⟩ h
    obtain ⟨ha, hl, hj, he, hb, _⟩ := operandsAt?_eq_some_iff.mp h
    have hsymbol : '?' ∉ operator.symbol := fun hm =>
      absurd ((symbol_spec row hr operator ho).right '?' hm) (by decide)
    obtain ⟨rest, hrest, rfl⟩ : ∃ rest, p.after = operator.symbol ++ rest ∧ r = rest ++ t := by
      rcases List.append_eq_append_iff.mp ha with ⟨x, hx, _⟩ | ⟨x, hx, hr⟩
      case inl => exact absurd (by simp [hx, hq]) hsymbol
      case inr => exact ⟨x, hx, hr⟩
    have hmem : '?' ∈ rest := by
      rw [hrest] at hq
      exact (List.mem_append.mp hq).resolve_left hsymbol
    have hhead : (rest ++ t).head? = rest.head? := by
      cases rest
      case nil => cases hmem
      case cons => rfl
    have hblank : rest.all isBlank = false := List.all_eq_false.mpr ⟨'?', hmem, by decide⟩
    have hsome : operandsAt? p operator = some (l, rest) :=
      operandsAt?_eq_some_iff.mpr ⟨hrest, hl, hj, hhead ▸ he, hb, hblank⟩
    rw [hp] at hsome
    cases hsome

-- No operator of a text starts it, so that something in front of the text cannot be an operand.
def StartsOperand (t : Text) : Prop :=
  ∀ row ∈ Operator.rows, ∀ operator ∈ row, t.trimStart.stripStart? operator.symbol = none

theorem StartsOperand.of_append (h : StartsOperand (s ++ t)) : StartsOperand s := by
  intro row hr operator ho
  rw [Option.eq_none_iff_forall_ne_some]
  intro rest hrest
  have hs := Text.stripStart?_eq_some_iff.mp hrest
  have hne : s.dropWhile isBlank ≠ [] := by
    rw [← Text.trimStart, hs]
    simp [(symbol_spec row hr operator ho).left]
  have htrim : (s ++ t).trimStart = operator.symbol ++ (rest ++ t) := by
    rw [Text.trimStart, List.dropWhile_append, if_neg (by simpa using hne), ← Text.trimStart, hs,
      List.append_assoc]
  have hn := h row hr operator ho
  rw [htrim, Text.stripStart?_append] at hn
  cases hn

theorem StartsOperand.trimStart (h : StartsOperand t) : StartsOperand t.trimStart := by
  rw [StartsOperand, Text.trimStart_trimStart]
  exact h

theorem operandsAt?_behind_of_starts (h : StartsOperand t) (ht : t.head?.any isBlank = false)
    (hp : p ∈ places t) (hr : row ∈ Operator.rows) (ho : operator ∈ row) (s : Text) :
    operandsAt? (p.behind s) operator =
      (operandsAt? p operator).map fun operands => (s ++ operands.1, operands.2) := by
  have hsplit := before_append_after hp
  cases hb : p.before
  case nil =>
    have htrim : t.trimStart = t := Text.trimStart_append (s := []) (by simp) ht
    have hn : p.after.stripStart? operator.symbol = none := by
      rw [hb, List.reverse_nil, List.nil_append] at hsplit
      rw [hsplit, ← htrim]
      exact h row hr operator ho
    simp [operandsAt?, hn]
  case cons c before =>
    cases hn : operandsAt? p operator
    case some => rw [operandsAt?_behind hn, Option.map_some]
    case none =>
      rw [Option.map_none, Option.eq_none_iff_forall_ne_some]
      rintro ⟨l, r⟩ hs
      obtain ⟨ha, _, hj, he, _, hr⟩ := operandsAt?_eq_some_iff.mp hs
      have hblank : p.before.all isBlank = false := by
        rw [← List.all_reverse]
        cases hreverse : p.before.reverse
        case nil => simp [hb] at hreverse
        case cons d u =>
          rw [← hsplit, hreverse] at ht
          exact List.all_eq_false.mpr ⟨d, List.mem_cons_self, by simpa using ht⟩
      have hsome : operandsAt? p operator = some (p.before.reverse, r) := by
        refine operandsAt?_eq_some_iff.mpr ⟨ha, rfl, ?_, he, hblank, hr⟩
        rw [Place.behind, hb] at hj
        rw [hb]
        exact hj
      rw [hn] at hsome
      cases hsome

end Operands

section Texts

variable {inside : Text → Prop} {absent : List Char} {s t u w left right : Text}
  {operator : Operator}
variable {found : Operator × Text × Text}

theorem Balanced.loosest?_append (h : Balanced inside s) (hs : loosest? (s ++ t) = some found) :
    loosestAt? ((places s).map (Place.extend t)) = some found ∨
      loosestAt? ((places t).map (Place.behind s)) = some found := by
  rw [loosest?_eq, h.places_append] at hs
  exact loosestAt?_append_eq_some hs

theorem Balanced.loosest?_append_eq_none (h : Balanced inside s) (hs : loosest? (s ++ t) = none) :
    loosestAt? ((places s).map (Place.extend t)) = none ∧
      loosestAt? ((places t).map (Place.behind s)) = none := by
  rw [loosest?_eq, h.places_append] at hs
  simp only [loosestAt?_eq_none_iff, List.forall_mem_append] at hs ⊢
  exact hs

theorem Balanced.loosest?_left (h : Balanced inside s) (hn : loosest? (s ++ t) = none) :
    loosest? s = none := by
  obtain ⟨hn, _⟩ := h.loosest?_append_eq_none hn
  rw [loosestAt?_eq_none_iff, List.forall_mem_map] at hn
  exact loosestAt?_eq_none_iff.mpr fun p hp row hr o ho =>
    operandsAt?_eq_none_of_extend (hn p hp row hr o ho)

theorem Balanced.loosest?_right (h : Balanced inside s) (hn : loosest? (s ++ t) = none) :
    loosest? t = none := by
  obtain ⟨_, hn⟩ := h.loosest?_append_eq_none hn
  rw [loosestAt?_eq_none_iff, List.forall_mem_map] at hn
  exact loosestAt?_eq_none_iff.mpr fun p hp row hr o ho =>
    operandsAt?_eq_none_of_behind (hn p hp row hr o ho)

theorem Part.loosest?_eq_none (h : Part inside absent t) (ha : ∀ c ∈ operatorSigns, c ∈ absent) :
    loosest? t = none :=
  loosestAt?_eq_none_of_lacks fun p hp c hc => h.lacks p hp c (ha c hc)

theorem Part.loosestAt?_behind (h : Part inside absent t) (ha : ∀ c ∈ operatorSigns, c ∈ absent)
    (s : Text) : loosestAt? ((places t).map (Place.behind s)) = none :=
  loosestAt?_eq_none_of_lacks (List.forall_mem_map.mpr fun p hp c hc => h.lacks p hp c (ha c hc))

theorem mem_after_of_getLast? {c : Char} {p : Place} (h : t.getLast? = some c) (hp : p ∈ places t) :
    c ∈ p.after := by
  rw [← before_append_after hp, List.getLast?_append_of_ne_nil _ (after_ne_nil hp)] at h
  exact List.mem_of_getLast? h

theorem loosestAt?_extend_question (h : u.getLast? = some '?') (w : Text) :
    loosestAt? ((places u).map (Place.extend w)) =
      (loosest? u).map fun found => (found.1, found.2.1, found.2.2 ++ w) :=
  loosestAt?_map fun _ hp _ hr _ ho => operandsAt?_extend_question (mem_after_of_getLast? h hp)
    hr ho w

theorem loosestAt?_behind_of_starts (h : StartsOperand t) (ht : t.head?.any isBlank = false)
    (s : Text) :
    loosestAt? ((places t).map (Place.behind s)) =
      (loosest? t).map fun found => (found.1, s ++ found.2.1, found.2.2) :=
  loosestAt?_map fun _ hp _ hr _ ho => operandsAt?_behind_of_starts h ht hp hr ho s

theorem exists_place_of_loosestAt? {ps : List Place}
    (h : loosestAt? ps = some (operator, left, right)) :
    ∃ p ∈ ps, p.before.reverse = left ∧ p.after = operator.symbol ++ right ∧
      operator.symbol ≠ [] ∧ (∀ c ∈ operator.symbol, isBare c) ∧ right.all isBlank = false := by
  obtain ⟨p, hp, row, hr, ho, hs⟩ := exists_of_loosestAt? h
  obtain ⟨ha, hl, _, _, _, hn⟩ := operandsAt?_eq_some_iff.mp hs
  exact ⟨p, hp, hl, ha, (symbol_spec row hr operator ho).left,
    fun c hc => isBare_of_mem_symbol hr ho hc, hn⟩

end Texts
end Componentry.Static
