import Componentry.Editor.Declarations
import Componentry.Proofs.Component.Splitting

/-!
Where a list of parameters is cut, and which names are read from it. The depth at a comma is the sum
of what the brackets before it open and close, so a text is cut as its pieces are, each from the
depth at which it starts.
-/
namespace Componentry.Editor

def weight (c : Char) : Int :=
  if c = '(' || c = '[' || c = '{' || c = '<' then 1
  else if c = ')' || c = ']' || c = '}' || c = '>' then -1
  else 0

def level (t : Text) : Int :=
  (t.map weight).sum

@[simp]
theorem level_nil : level [] = 0 :=
  rfl

@[simp]
theorem level_cons (c : Char) (t : Text) : level (c :: t) = weight c + level t := by
  simp [level]

@[simp]
theorem level_append (t u : Text) : level (t ++ u) = level t + level u := by
  simp [level]

theorem level_joinWith {separator : Text} (hs : level separator = 0) (ts : List Text) :
    level (Text.joinWith separator ts) = (ts.map level).sum := by
  fun_induction Text.joinWith separator ts
  case case1 => rfl
  case case2 t => simp
  case case3 t u more ih => simp [hs, ih]

theorem level_separator : level [',', ' '] = 0 :=
  rfl

section Cuts

variable {depth : Int} {t u last first : Text} {ts more : List Text}

theorem splitParameters_comma : splitParameters 0 (',' :: t) = [] :: splitParameters 0 t :=
  rfl

theorem splitParameters_cons {c : Char} (hc : c = ',' → depth ≠ 0)
    (h : splitParameters (depth + weight c) t = first :: more) :
    splitParameters depth (c :: t) = (c :: first) :: more := by
  have hcut : ¬(c = ',' && depth = 0) := by simpa using hc
  have hdepth : (if c = '(' || c = '[' || c = '{' || c = '<' then depth + 1
      else if c = ')' || c = ']' || c = '}' || c = '>' then depth - 1 else depth) =
        depth + weight c := by
    unfold weight
    split_ifs <;> omega
  simp only [splitParameters, if_neg hcut, hdepth, h]

theorem splitParameters_ne_nil : splitParameters depth t ≠ [] := by
  fun_induction splitParameters depth t <;> simp

theorem exists_splitParameters (depth : Int) (t : Text) :
    ∃ first more, splitParameters depth t = first :: more :=
  List.exists_cons_of_ne_nil splitParameters_ne_nil

theorem exists_splitParameters_concat (depth : Int) (t : Text) :
    ∃ parts last, splitParameters depth t = parts ++ [last] :=
  ⟨_, _, (List.dropLast_concat_getLast splitParameters_ne_nil).symm⟩

-- The last part of a text and the first part of what follows are one part of both.
theorem splitParameters_append (ht : splitParameters depth t = ts ++ [last])
    (hu : splitParameters (depth + level t) u = first :: more) :
    splitParameters depth (t ++ u) = ts ++ (last ++ first) :: more := by
  induction t generalizing depth ts last
  case nil =>
    obtain ⟨rfl, rfl⟩ : ts = [] ∧ last = [] := by
      cases ts <;> simp_all [splitParameters]
    simpa using hu
  case cons c t ih =>
    rw [level_cons, ← add_assoc] at hu
    by_cases hcut : c = ',' ∧ depth = 0
    case pos =>
      obtain ⟨rfl, rfl⟩ := hcut
      rw [splitParameters_comma] at ht
      cases ts
      case nil => simp [splitParameters_ne_nil] at ht
      case cons part ts =>
        obtain ⟨rfl, hts⟩ := List.cons.inj ht
        have happend : splitParameters 0 (t ++ u) = ts ++ (last ++ first) :: more := ih hts hu
        simp [splitParameters_comma, happend]
    case neg =>
      have hc : c = ',' → depth ≠ 0 := fun he hd => hcut ⟨he, hd⟩
      have ⟨start, rest, hstart⟩ := exists_splitParameters (depth + weight c) t
      rw [splitParameters_cons hc hstart] at ht
      cases ts
      case nil =>
        obtain ⟨rfl, rfl⟩ : c :: start = last ∧ rest = [] := by simpa using ht
        have happend : splitParameters (depth + weight c)
            (t ++ u) = [] ++ (start ++ first) :: more :=
          ih hstart hu
        exact splitParameters_cons hc happend
      case cons part ts =>
        obtain ⟨rfl, rfl⟩ := List.cons.inj ht
        have happend : splitParameters (depth + weight c) (t ++ u) =
            (start :: ts) ++ (last ++ first) :: more :=
          ih hstart hu
        exact splitParameters_cons hc happend

-- No comma of the text is at depth zero.
def Uncut (depth : Int) (t : Text) : Prop :=
  splitParameters depth t = [t]

namespace Uncut

theorem append (ht : Uncut depth t) (hu : Uncut (depth + level t) u) : Uncut depth (t ++ u) := by
  have happend : splitParameters depth (t ++ u) = [] ++ (t ++ u) :: [] :=
    splitParameters_append ht hu
  exact happend

theorem of_not_mem (h : ',' ∉ t) : Uncut depth t := by
  induction t generalizing depth
  case nil => rfl
  case cons c t ih =>
    have ⟨hc, ht⟩ := not_or.mp (List.mem_cons.not.mp h)
    exact splitParameters_cons (fun he => absurd he.symm hc) (ih ht)

theorem enclosed {o c : Char} (ho : weight o = 1) (hc : c ≠ ',') (h : Uncut (depth + 1) t) :
    Uncut depth (o :: t ++ [c]) := by
  have hcomma : o ≠ ',' := by
    rintro rfl
    exact absurd ho (by decide)
  have hopen : Uncut depth (o :: t) := splitParameters_cons (fun he => absurd he hcomma) (ho ▸ h)
  exact hopen.append (.of_not_mem (by simpa using hc.symm))

theorem separator (hd : depth ≠ 0) : Uncut depth [',', ' '] :=
  splitParameters_cons (fun _ => hd) (of_not_mem (by decide))

theorem joinWith (hd : depth ≠ 0) (h : ∀ t ∈ ts, Uncut depth t ∧ level t = 0) :
    Uncut depth (Text.joinWith [',', ' '] ts) := by
  fun_induction Text.joinWith [',', ' '] ts
  case case1 => rfl
  case case2 t => exact (h t (by simp)).left
  case case3 t u more ih =>
    obtain ⟨⟨ht, hl⟩, hmore⟩ := List.forall_mem_cons.mp h
    have hs : Uncut (depth + level t) [',', ' '] := by simpa [hl] using separator hd
    have hlevel : depth + level (t ++ [',', ' ']) = depth := by simp [hl, weight]
    apply (ht.append hs).append
    rw [hlevel]
    exact ih hmore

end Uncut

end Cuts

section Names

theorem dropEllipses_append_cons {c : Char} (hc : c ≠ '.') (s t : Text) :
    dropEllipses (s ++ c :: t) = dropEllipses s ++ c :: t := by
  fun_induction dropEllipses s
  case case1 s ih => simpa [dropEllipses] using ih
  case case2 s h =>
    unfold dropEllipses
    split
    case h_2 => rfl
    case h_1 u he =>
      rcases s with _ | ⟨x, _ | ⟨y, _ | ⟨z, s⟩⟩⟩ <;> simp_all

theorem parameterName?_append_cons {c : Char} (hb : isBlank c = false) (hd : c ≠ '.')
    (hp : Identifier.isPart c = false) (s t : Text) :
    parameterName? (s ++ c :: t) = parameterName? s := by
  have hstop : Identifier.continues (c :: t) = false := hp
  rw [parameterName?, Text.trimStart_append_cons s t hb, dropEllipses_append_cons hd,
    Identifier.split_append_stop hstop]
  rfl

theorem parameterName?_cons_space (t : Text) : parameterName? (' ' :: t) = parameterName? t :=
  rfl

theorem parameterName?_of_isName {name : Text} (h : Identifier.IsName name) :
    parameterName? name = some name := by
  have ⟨c, t, he, hc, _⟩ := h.exists_cons
  have hblank : isBlank c = false := isBlank_eq_false_of_isPart (Identifier.isPart_of_isStart hc)
  have hdot : c ≠ '.' := by
    rintro rfl
    exact absurd hc (by decide)
  have htrim : Text.trimStart name = name := by simp [he, Text.trimStart, hblank]
  have hdrop : dropEllipses name = name := by
    rw [he]
    unfold dropEllipses
    split <;> simp_all
  rw [parameterName?, htrim, hdrop, h.right, he]

end Names

abbrev Name := { t : Text // Identifier.IsName t }

section Name

theorem weight_of_isPart {c : Char} (h : Identifier.isPart c) : weight c = 0 := by
  have hne : ∀ d ∈ ['(', '[', '{', '<', ')', ']', '}', '>'], c ≠ d := by
    rintro d hd rfl
    have hall : ['(', '[', '{', '<', ')', ']', '}', '>'].all (!Identifier.isPart ·) := by decide
    simpa [h] using List.all_eq_true.mp hall c hd
  simp only [List.forall_mem_cons] at hne
  simp [weight, hne]

variable (name : Name)

@[simp]
theorem level_name : level name.val = 0 := by
  apply List.sum_eq_zero
  simp only [List.mem_map]
  rintro _ ⟨c, hc, rfl⟩
  exact weight_of_isPart (name.property.isPart_of_mem hc)

theorem comma_not_mem_name : ',' ∉ name.val :=
  fun h => absurd (name.property.isPart_of_mem h) (by decide)

end Name

def found (depth : Int) (t : Text) : List Text :=
  (splitParameters depth t).filterMap parameterName?

def typed (name : Name) (type : Text) : Text :=
  name.val ++ ':' :: ' ' :: type

section Found

variable {s t : Text}

theorem Uncut.splitParameters_append {depth : Int} {first : Text} {more : List Text}
    (hs : Uncut depth s) (hl : level s = 0) (ht : splitParameters depth t = first :: more) :
    splitParameters depth (s ++ t) = (s ++ first) :: more := by
  have happend : splitParameters depth (s ++ t) = [] ++ (s ++ first) :: more :=
    Editor.splitParameters_append hs (by rwa [hl, add_zero])
  exact happend

theorem splitParameters_typed (name : Name) {depth : Int} {first : Text} {more : List Text}
    (ht : splitParameters depth t = first :: more) :
    splitParameters depth (typed name t) = typed name first :: more := by
  have hname : Uncut depth (name.val ++ [':', ' ']) := .of_not_mem (by simp [comma_not_mem_name])
  have hlevel : level (name.val ++ [':', ' ']) = 0 := by simp [weight]
  simpa [typed] using hname.splitParameters_append hlevel ht

theorem parameterName?_typed (name : Name) (t : Text) :
    parameterName? (typed name t) = some name.val := by
  rw [typed, parameterName?_append_cons rfl (by decide) rfl, parameterName?_of_isName name.property]

theorem found_cons_space (t : Text) : found 0 (' ' :: t) = found 0 t := by
  have ⟨first, more, ht⟩ := exists_splitParameters 0 t
  have hspace : splitParameters 0 (' ' :: t) = (' ' :: first) :: more :=
    splitParameters_cons (by decide) ht
  simp only [found, hspace, ht, List.filterMap_cons, parameterName?_cons_space]

theorem found_append_comma (hs : Uncut 0 s) (hl : level s = 0) {name : Text}
    (hn : parameterName? s = some name) (t : Text) :
    found 0 (s ++ ',' :: ' ' :: t) = name :: found 0 t := by
  have hsplit : splitParameters 0 (s ++ ',' :: ' ' :: t) = s :: splitParameters 0 (' ' :: t) := by
    rw [hs.splitParameters_append hl splitParameters_comma, List.append_nil]
  rw [← found_cons_space t]
  simp only [found, hsplit, List.filterMap_cons, hn]

-- A comma at any other depth, before a parameter: the part goes on, and its name is before the
-- comma.
theorem found_append_deep (hl : level s ≠ 0) (name : Name) (t : Text) :
    found 0 (s ++ ',' :: ' ' :: typed name t) =
      found 0 s ++ (splitParameters (level s) t).tail.filterMap parameterName? := by
  have ⟨parts, last, hs⟩ := exists_splitParameters_concat 0 s
  have ⟨first, more, ht⟩ := exists_splitParameters (level s) t
  have hcomma : splitParameters (level s) (',' :: ' ' :: typed name t) =
      (',' :: ' ' :: typed name first) :: more :=
    (Uncut.separator hl).splitParameters_append level_separator (splitParameters_typed name ht)
  have hsplit : splitParameters 0 (s ++ ',' :: ' ' :: typed name t) =
      parts ++ (last ++ ',' :: ' ' :: typed name first) :: more :=
    splitParameters_append hs (by rwa [zero_add])
  have hname : parameterName? (last ++ ',' :: ' ' :: typed name first) = parameterName? last :=
    parameterName?_append_cons rfl (by decide) rfl last _
  simp only [found, hsplit, hs, ht, List.filterMap_append, List.filterMap_cons,
    hname, List.tail_cons]
  cases parameterName? last <;> simp

end Found

end Componentry.Editor
