import Componentry.Proofs.Code.Neutral
import Componentry.Proofs.Editor.Commas

/-!
The names in scope of a component whose parameters have types. The arrow of a function type has a
closer and no opener, so no comma after it is at depth zero, and what follows the comma is not read
as a parameter. Main statement: all parameters are in scope whatever their names are, if and only if
no type but the last has an arrow.
-/
namespace Componentry

namespace Editor

inductive Ty
  | named (name : Name)
  | array (element : Ty)
  | record (key : Name) (value : Ty)
  | generic (name : Name) (arguments : List Ty)
  | function (parameters : List (Name × Ty)) (result : Ty)

abbrev Parameter := Name × Ty

namespace Ty

mutual

def print : Ty → Text
  | named name => name
  | array element => element.print ++ ['[', ']']
  | record key value => '{' :: (' ' :: typed key value.print ++ [' ']) ++ ['}']
  | generic name arguments =>
    name ++ ('<' :: Text.joinWith [',', ' '] (printAll arguments) ++ ['>'])
  | function parameters result =>
    '(' :: Text.joinWith [',', ' '] (printTyped parameters) ++ [')'] ++ " => ".toList ++
      result.print

def printAll : List Ty → List Text
  | [] => []
  | a :: more => a.print :: printAll more

def printTyped : List Parameter → List Text
  | [] => []
  | (name, a) :: more => typed name a.print :: printTyped more

end

mutual

def arrows : Ty → Nat
  | named _ => 0
  | array element => element.arrows
  | record _ value => value.arrows
  | generic _ arguments => arrowsAll arguments
  | function parameters result => arrowsTyped parameters + 1 + result.arrows

def arrowsAll : List Ty → Nat
  | [] => 0
  | a :: more => a.arrows + arrowsAll more

def arrowsTyped : List Parameter → Nat
  | [] => 0
  | (_, a) :: more => a.arrows + arrowsTyped more

end

end Ty

section Print

open Ty

variable (name : Name)

@[simp]
theorem level_typed (t : Text) : level (typed name t) = level t := by
  simp [typed, weight]

theorem neutral_name : Code.Neutral name.val :=
  .of_isOrdinary fun _ hc => Code.isOrdinary_of_isPart (name.property.isPart_of_mem hc)

theorem neutral_typed {t : Text} (h : Code.Neutral t) : Code.Neutral (typed name t) := by
  have hcolon : Code.Neutral [':', ' '] := .of_all (by decide)
  exact (neutral_name name).append (hcolon.append h)

mutual

theorem level_print : ∀ a : Ty, level a.print = -a.arrows
  | .named name => by simp [print, arrows]
  | .array element => by simp [print, arrows, weight, level_print element]
  | .record key value => by simp [print, arrows, weight, level_print value]
  | .generic name arguments => by
    simp [print, arrows, weight, level_joinWith level_separator, level_printAll arguments]
  | .function parameters result => by
    simp [print, arrows, weight, level_joinWith level_separator, level_printTyped parameters,
      level_print result]
    omega

theorem level_printAll : ∀ as, ((printAll as).map level).sum = -arrowsAll as
  | [] => rfl
  | a :: more => by
    simp [printAll, arrowsAll, level_print a, level_printAll more]
    omega

theorem level_printTyped : ∀ ps, ((printTyped ps).map level).sum = -arrowsTyped ps
  | [] => rfl
  | (name, a) :: more => by
    simp [printTyped, arrowsTyped, level_print a, level_printTyped more]
    omega

end

theorem neutral_separator : Code.Neutral [',', ' '] :=
  .of_all (by decide)

mutual

theorem neutral_print : ∀ a : Ty, Code.Neutral a.print
  | .named name => by
    rw [print]
    exact neutral_name name
  | .array element => by
    rw [print]
    have hbrackets : Code.Neutral ('[' :: [] ++ [']']) := .group rfl rfl .nil
    exact (neutral_print element).append hbrackets
  | .record key value => by
    rw [print]
    have hspace : Code.Neutral [' '] := .of_all (by decide)
    have hvalue := neutral_typed key (neutral_print value)
    exact .group rfl rfl ((hspace.append hvalue).append hspace)
  | .generic name arguments => by
    rw [print]
    have hopen : Code.Neutral ['<'] := .of_all (by decide)
    have hclose : Code.Neutral ['>'] := .of_all (by decide)
    have harguments := neutral_separator.joinWith (neutral_printAll arguments)
    exact (neutral_name name).append ((hopen.append harguments).append hclose)
  | .function parameters result => by
    rw [print]
    have harrow : Code.Neutral " => ".toList := .of_all (by decide)
    have hparameters := neutral_separator.joinWith (neutral_printTyped parameters)
    exact ((Code.Neutral.group rfl rfl hparameters).append harrow).append (neutral_print result)

theorem neutral_printAll : ∀ as, ∀ t ∈ printAll as, Code.Neutral t
  | [] => by simp [printAll]
  | a :: more => by
    simpa [printAll] using ⟨neutral_print a, neutral_printAll more⟩

theorem neutral_printTyped : ∀ ps, ∀ t ∈ printTyped ps, Code.Neutral t
  | [] => by simp [printTyped]
  | (name, a) :: more => by
    simpa [printTyped] using ⟨neutral_typed name (neutral_print a), neutral_printTyped more⟩

end

mutual

-- Without an arrow, all commas are in brackets.
theorem uncut_print : ∀ (a : Ty) {depth : Int}, a.arrows = 0 → 0 ≤ depth → Uncut depth a.print
  | .named name, depth, _, _ => by
    rw [print]
    exact .of_not_mem (comma_not_mem_name name)
  | .array element, depth, ha, hd => by
    rw [print]
    exact (uncut_print element ha hd).append (.of_not_mem (by decide))
  | .record key value, depth, ha, hd => by
    have hvalue : Uncut (depth + 1) value.print := uncut_print value ha (by omega)
    have hspace {depth : Int} : Uncut depth [' '] := .of_not_mem (by decide)
    have hfield : Uncut (depth + 1) ([' '] ++ typed key value.print) :=
      hspace.splitParameters_append rfl (splitParameters_typed key hvalue)
    rw [print]
    exact .enclosed rfl (by decide) (hfield.append hspace)
  | .generic name arguments, depth, ha, hd => by
    have hname : Uncut depth name.val := .of_not_mem (comma_not_mem_name name)
    have harguments : Uncut (depth + 1) (Text.joinWith [',', ' '] (printAll arguments)) :=
      .joinWith (by omega) (uncut_printAll arguments ha (by omega))
    rw [print]
    exact hname.splitParameters_append (level_name name) (Uncut.enclosed rfl (by decide) harguments)
  | .function parameters result, depth, ha, _ => by simp [arrows] at ha

theorem uncut_printAll : ∀ (as : List Ty) {depth : Int}, arrowsAll as = 0 → 0 ≤ depth →
    ∀ t ∈ printAll as, Uncut depth t ∧ level t = 0
  | [], _, _, _ => by simp [printAll]
  | a :: more, depth, ha, hd => by
    have ⟨ha, hmore⟩ : a.arrows = 0 ∧ arrowsAll more = 0 := by simpa [arrowsAll] using ha
    have hlevel : level a.print = 0 := by simp [level_print, ha]
    simpa [printAll] using ⟨⟨uncut_print a ha hd, hlevel⟩, uncut_printAll more hmore hd⟩

end

end Print

def signature (parameters : List Parameter) : Text :=
  Text.joinWith [',', ' '] (Ty.printTyped parameters)

def source (parameters : List Parameter) : Text :=
  "export ephemeral A(".toList ++ signature parameters ++ ") \x7b render(x) \x7d".toList

def labels (parameters : List Parameter) : List Text :=
  parameters.map (·.1.val)

def IsSignature (parameters : List Parameter) : Prop :=
  (labels parameters).Nodup ∧ "params".toList ∉ labels parameters

-- Each name once and in order, after `params`.
def InScope (parameters : List Parameter) : Prop :=
  ("params".toList :: labels parameters).Sublist (names (source parameters)) ∧
    (names (source parameters)).Nodup

section Signature

open Ty

variable {parameters before : List Parameter} {a : Ty}

theorem level_signature : level (signature parameters) = -arrowsTyped parameters := by
  rw [signature, level_joinWith level_separator, level_printTyped]

theorem neutral_signature (parameters : List Parameter) : Code.Neutral (signature parameters) :=
  neutral_separator.joinWith (neutral_printTyped parameters)

theorem arrowsTyped_eq_zero_iff :
    arrowsTyped parameters = 0 ↔ ∀ a ∈ parameters.map Prod.snd, a.arrows = 0 := by
  induction parameters
  case nil => simp [arrowsTyped]
  case cons p more ih => simp [arrowsTyped, ih]

theorem printTyped_append (parameters more : List Parameter) :
    printTyped (parameters ++ more) = printTyped parameters ++ printTyped more := by
  induction parameters
  case nil => simp [printTyped]
  case cons p parameters ih => simp [printTyped, ih]

-- Up to the last parameter, all commas between parameters are at depth zero.
theorem exists_found_signature (h : ∀ p ∈ parameters.dropLast, p.2.arrows = 0) :
    ∃ more, found 0 (signature parameters) = labels parameters ++ more := by
  induction parameters
  case nil => exact ⟨[], rfl⟩
  case cons p parameters ih =>
    obtain ⟨name, a⟩ := p
    cases parameters
    case nil =>
      obtain ⟨first, more, ha⟩ := exists_splitParameters 0 a.print
      refine ⟨more.filterMap parameterName?, ?_⟩
      simp [signature, printTyped, Text.joinWith, found, splitParameters_typed name ha, labels,
        parameterName?_typed]
    case cons q parameters =>
      obtain ⟨ha, hmore⟩ : a.arrows = 0 ∧ ∀ p ∈ (q :: parameters).dropLast, p.2.arrows = 0 := by
        simpa using h
      obtain ⟨more, hfound⟩ := ih hmore
      have huncut : Uncut 0 (typed name a.print) :=
        splitParameters_typed name (uncut_print a ha le_rfl)
      have hlevel : level (typed name a.print) = 0 := by simp [level_print, ha]
      have hcomma := found_append_comma huncut hlevel (parameterName?_typed name _)
        (signature (q :: parameters))
      rw [hfound] at hcomma
      refine ⟨more, ?_⟩
      simpa [signature, printTyped, Text.joinWith, labels] using hcomma

-- After an arrow, the name of the last parameter is not read.
theorem found_signature_concat (hb : arrowsTyped before ≠ 0) (name other : Name) :
    found 0 (signature (before ++ [(name, a)])) = found 0 (signature (before ++ [(other, a)])) := by
  have hne : printTyped before ≠ [] := by
    cases before
    case nil => simp [arrowsTyped] at hb
    case cons => simp [printTyped]
  have hlevel : level (signature before) ≠ 0 := by
    rw [level_signature]
    omega
  have happend (name : Name) : signature (before ++ [(name, a)]) =
      signature before ++ ',' :: ' ' :: typed name a.print := by
    simp [signature, printTyped_append, Text.joinWith_append hne, printTyped, Text.joinWith]
  rw [happend, happend, found_append_deep hlevel, found_append_deep hlevel]

def component (parameters : List Parameter) : Layout where
  kind := .ephemeral
  name := ['A']
  parameters := signature parameters
  prelude := [' ']
  markup := ['x']
  afterExport := [' ']
  afterKind := [' ']
  afterName := []
  afterParameters := [' ']
  afterRender := []
  beforeSemicolon := [' ']
  semicolon := false
  afterSemicolon := []
  following := []

theorem isWritten_component (parameters : List Parameter) : (component parameters).IsWritten where
  name := (by decide : Identifier.IsName ['A'])
  afterExport := by simp [component, isSpace]
  afterKind := by simp [component, isSpace]
  afterName := by simp [component]
  afterParameters := by simp [component, isSpace]
  afterRender := by simp [component]
  beforeSemicolon := by simp [component, isBlank]
  afterSemicolon := by simp [component]
  parameters := (neutral_signature parameters).delimited
  prelude := rfl
  markup := by cbv

theorem source_component (parameters : List Parameter) :
    (component parameters).source = source parameters := by
  rw [Layout.source_eq]
  unfold source
  rw [List.append_assoc]
  rfl

theorem declaration_append (parameters : List Parameter) :
    source parameters = (component parameters).declaration ++ " render(x) \x7d".toList := by
  rw [← source_component, Layout.source]
  rfl

theorem names_source (parameters : List Parameter) :
    names (source parameters) = ("params".toList :: found 0 (signature parameters)).eraseDups := by
  have hextract := Layout.extract_source (isWritten_component parameters)
  rw [source_component] at hextract
  have hbody : (source parameters).dropBytes (component parameters).declaration.size =
      " render(x) \x7d".toList := by
    rw [declaration_append, Text.dropBytes_append]
  have hbindings : Text.occurrences binding? " render(x) \x7d".toList = [] := by decide
  simp only [names, parametersAndBody, hextract, hbody, hbindings, List.append_nil, found]
  rfl

end Signature

section Names

open Ty

variable {parameters before : List Parameter}

def label (n : Nat) : Name :=
  ⟨List.replicate (n + 1) 'a', by
    have hstart : Identifier.isStart 'a' := by decide
    have hpart : Identifier.isPart 'a' := by decide
    simp [Identifier.IsName, Identifier.split, List.replicate_succ, hstart, hpart]⟩

theorem exists_label_notMem (l : List Text) : ∃ n, (label n).val ∉ l := by
  refine ⟨(l.map List.length).sum, fun h => ?_⟩
  have hle := List.single_le_sum (by simp) _ (List.mem_map_of_mem (f := List.length) h)
  simp [label] at hle

theorem IsSignature.concat (h : IsSignature before) {name : Name}
    (hn : name.val ∉ "params".toList :: labels before) (a : Ty) :
    IsSignature (before ++ [(name, a)]) := by
  have ⟨hparams, hlabels⟩ := not_or.mp (List.mem_cons.not.mp hn)
  have hconcat : labels (before ++ [(name, a)]) = labels before ++ [name.val] := by simp [labels]
  rw [IsSignature, hconcat]
  refine ⟨?_, by simpa using ⟨h.right, Ne.symm hparams⟩⟩
  rw [← List.concat_eq_append]
  exact h.left.concat hlabels

theorem exists_isSignature (types : List Ty) :
    ∃ parameters : List Parameter, parameters.map Prod.snd = types ∧ IsSignature parameters := by
  induction types using List.reverseRecOn
  case nil => exact ⟨[], rfl, by simp [IsSignature, labels]⟩
  case append_singleton types a ih =>
    have ⟨parameters, he, hs⟩ := ih
    have ⟨n, hn⟩ := exists_label_notMem ("params".toList :: labels parameters)
    exact ⟨parameters ++ [(label n, a)], by simp [he], hs.concat hn a⟩

theorem inScope_of_arrows (hs : IsSignature parameters)
    (h : ∀ p ∈ parameters.dropLast, p.2.arrows = 0) : InScope parameters := by
  have ⟨more, hfound⟩ := exists_found_signature h
  have hnodup : ("params".toList :: labels parameters).Nodup := List.nodup_cons.mpr hs.symm
  rw [InScope, names_source, hfound]
  refine ⟨?_, nodup_eraseDups _⟩
  rw [← List.cons_append, List.eraseDups_append, eraseDups_of_nodup hnodup]
  exact List.sublist_append_left _ _

theorem exists_not_inScope (hs : IsSignature before) (hb : arrowsTyped before ≠ 0) (a : Ty) :
    ∃ name, IsSignature (before ++ [(name, a)]) ∧ ¬InScope (before ++ [(name, a)]) := by
  have ⟨n, hn⟩ := exists_label_notMem
    (("params".toList :: labels before) ++ found 0 (signature (before ++ [(label 0, a)])))
  have ⟨hbefore, hfound⟩ := not_or.mp (List.mem_append.not.mp hn)
  refine ⟨label n, hs.concat hbefore a, fun hin => ?_⟩
  have hmem : (label n).val ∈ names (source (before ++ [(label n, a)])) :=
    hin.left.mem (by simp [labels])
  rw [names_source, List.mem_eraseDups, found_signature_concat hb _ (label 0)] at hmem
  rcases List.mem_cons.mp hmem with hparams | hread
  case inl => exact hbefore (by simp [hparams])
  case inr => exact hfound hread

end Names

-- For which types all parameters are in scope whatever their names are.
theorem forall_inScope_iff (types : List Ty) :
    (∀ parameters : List Parameter, parameters.map Prod.snd = types →
      IsSignature parameters → InScope parameters) ↔
        ∀ a ∈ types.dropLast, a.arrows = 0 := by
  constructor <;> intro h
  case mpr =>
    rintro parameters rfl hs
    apply inScope_of_arrows hs
    intro p hp
    apply h
    rw [← List.map_dropLast]
    exact List.mem_map_of_mem hp
  case mp =>
    by_contra hn
    have hne : types ≠ [] := by
      rintro rfl
      simp at hn
    have ⟨before, he, hs⟩ := exists_isSignature types.dropLast
    have hb : Ty.arrowsTyped before ≠ 0 := by
      rwa [Ne, arrowsTyped_eq_zero_iff, he]
    have ⟨name, hname, hout⟩ := exists_not_inScope hs hb (types.getLast hne)
    refine hout (h _ ?_ hname)
    simp [he, List.dropLast_concat_getLast]

theorem inScope_callback_last : ∃ parameters, IsSignature parameters ∧
    signature parameters = "m: Map<\x7b k: T \x7d, T[]>, f: (x: T, k: T) => T".toList ∧
    InScope parameters := by
  let m : Name := ⟨['m'], by decide⟩
  let f : Name := ⟨['f'], by decide⟩
  let x : Name := ⟨['x'], by decide⟩
  let k : Name := ⟨['k'], by decide⟩
  let T : Ty := .named ⟨['T'], by decide⟩
  let map : Ty := .generic ⟨"Map".toList, by decide⟩ [.record k T, .array T]
  let parameters : List Parameter := [(m, map), (f, .function [(x, T), (k, T)] T)]
  have hs : IsSignature parameters := ⟨by decide, by decide⟩
  have harrows : map.arrows = 0 := by decide
  refine ⟨parameters, hs, by decide, ?_⟩
  exact (forall_inScope_iff (parameters.map Prod.snd)).mpr (by simpa [parameters] using harrows)
    parameters rfl hs

-- The comma after the arrow does not end the parameter `f`.
theorem not_inScope_callback : ∃ parameters, IsSignature parameters ∧
    source parameters = "export ephemeral A(f: (x: T) => T, b: T) \x7b render(x) \x7d".toList ∧
    names (source parameters) = ["params".toList, "f".toList] ∧ ¬InScope parameters := by
  let f : Name := ⟨['f'], by decide⟩
  let b : Name := ⟨['b'], by decide⟩
  let x : Name := ⟨['x'], by decide⟩
  let T : Ty := .named ⟨['T'], by decide⟩
  let parameters : List Parameter := [(f, .function [(x, T)] T), (b, T)]
  have hnames : names (source parameters) = ["params".toList, "f".toList] := by
    rw [names_source]
    decide
  refine ⟨parameters, ⟨by decide, by decide⟩, by decide, hnames, ?_⟩
  rw [InScope, hnames]
  decide

end Editor
end Componentry
