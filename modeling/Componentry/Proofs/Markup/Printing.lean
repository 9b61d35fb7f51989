import Componentry.Proofs.Markup.Reading

/-!
Reading markup undoes printing it. Printed parts stand side by side with nothing between them, so
what may be printed is what cannot be mistaken: texts without names, directives and stray braces,
and names that the text after them does not continue.
-/
namespace Componentry.Markup

open Code

def printConditional (condition body alternate : Text) : Text :=
  "@if (".toList ++ condition ++ ") \x7b".toList ++ body ++ "\x7d @else \x7b".toList ++ alternate ++
    ['}']

def print : Markup → Text
  | .empty => []
  | .text content rest => content ++ print rest
  | .name identifier rest => '@' :: (identifier ++ print rest)
  | .conditional condition body alternate rest =>
    printConditional condition (print body) (print alternate) ++ print rest

theorem printConditional_append (condition body alternate t : Text) :
    printConditional condition body alternate ++ t =
      '@' :: 'i' :: 'f' :: ' ' :: '(' :: (condition ++ ')' :: ' ' :: '{' :: (body ++
        '}' :: (" @else \x7b".toList ++ (alternate ++ '}' :: t)))) := by
  unfold printConditional
  simp

def leadingText : Markup → Text
  | .text content _ => content
  | _ => []

def Printable : Markup → Prop
  | .empty => True
  | .text content rest =>
    content ≠ [] ∧ isInert content ∧ rest.startsWithText = false ∧ rest.Printable
  | .name identifier rest =>
    Identifier.IsName identifier ∧ isReserved identifier = false ∧
      Identifier.continues rest.leadingText = false ∧ rest.Printable
  | .conditional condition body alternate rest =>
    (condition.trim = condition ∧ condition ≠ [] ∧
      closer? ('(' :: condition ++ [')']) 0 = some (condition.size + 1)) ∧
    (braces 0 body.ownText = some 0 ∧ body.Printable) ∧
    (braces 0 alternate.ownText = some 0 ∧ alternate.Printable) ∧ rest.Printable

instance decidablePrintable : (m : Markup) → Decidable m.Printable
  | .empty => inferInstanceAs (Decidable True)
  | .text _ rest =>
    have := decidablePrintable rest
    inferInstanceAs (Decidable (_ ∧ _ ∧ _ ∧ _))
  | .name _ rest =>
    have := decidablePrintable rest
    inferInstanceAs (Decidable (_ ∧ _ ∧ _ ∧ _))
  | .conditional _ body alternate rest =>
    have := decidablePrintable body
    have := decidablePrintable alternate
    have := decidablePrintable rest
    inferInstanceAs (Decidable ((_ ∧ _ ∧ _) ∧ (_ ∧ _) ∧ (_ ∧ _) ∧ _))

theorem stops_print {m : Markup} (hm : m.startsWithText = false) {t : Text} (ht : Stops t) :
    Stops (m.print ++ t) := by
  cases m
  case empty => exact ht
  case text => simp [startsWithText] at hm
  case name => simp [print, Stops]
  case conditional => simp [print, printConditional_append, Stops]

theorem continues_print {m : Markup} (hm : m.Printable)
    (hc : Identifier.continues m.leadingText = false) {t : Text} (ht : Stops t) :
    Identifier.continues (m.print ++ t) = false := by
  cases m
  case text content rest =>
    have ⟨c, s, he⟩ := List.exists_cons_of_ne_nil hm.left
    subst he
    exact hc
  all_goals exact (stops_print rfl ht).continues

-- Printed markup is read as events that make up the markup again, in front of whatever was to be
-- read after it. The braces of its own text are all that it does to the blocks around it.
def ReadsBack (m : Markup) : Prop :=
  ∀ blocks after t es, Stops t → afterText blocks m.ownText = some after → Run after t es →
    ∃ pieces, Run blocks (m.print ++ t) (pieces ++ es) ∧ ∀ alternate outer,
      pieces.foldr addEvent (⟨.empty, alternate⟩ :: outer) = ⟨m, alternate⟩ :: outer

namespace ReadsBack

variable {body alternate rest : Markup}

theorem empty : ReadsBack .empty :=
  fun blocks after t es _ => ReadsAs.empty t blocks after es

theorem text {content : Text} (hn : content ≠ []) (hi : isInert content)
    (hs : rest.startsWithText = false) (h : rest.ReadsBack) : ReadsBack (.text content rest) := by
  intro blocks after t es ht
  have hrest : ReadsAs rest rest.print t := fun blocks after es => h blocks after t es ht
  exact ReadsAs.text hn hi hs (stops_print hs ht) hrest blocks after es

theorem name {identifier : Text} (hn : Identifier.IsName identifier)
    (hres : isReserved identifier = false) (hc : Identifier.continues rest.leadingText = false)
    (hp : rest.Printable) (h : rest.ReadsBack) : ReadsBack (.name identifier rest) := by
  intro blocks after t es ht
  have hrest : ReadsAs rest rest.print t := fun blocks after es => h blocks after t es ht
  exact ReadsAs.name hn hres (continues_print hp hc ht) hrest blocks after es

theorem conditional {condition : Text} (htrim : condition.trim = condition) (hne : condition ≠ [])
    (hd : Delimited condition) (hbb : braces 0 body.ownText = some 0)
    (hba : braces 0 alternate.ownText = some 0) (hbody : body.ReadsBack)
    (halternate : alternate.ReadsBack) (hrest : rest.ReadsBack) :
    ReadsBack (.conditional condition body alternate rest) := by
  intro blocks after t es ht
  have hread {m : Markup} (hm : m.ReadsBack) (u : Text) : ReadsAs m m.print ('}' :: u) :=
    fun blocks after es => hm blocks after _ es (stops_brace u)
  have hopening : Opening condition
      ("@if".toList ++ ([' '] ++ '(' :: (condition ++ ')' :: ([' '] ++ ['{'])))) :=
    .intro (by simp [isSpace]) (hd.closer?_eq) htrim hne (by simp [isSpace])
  have helse : Alternation ([' '] ++ ("@else".toList ++ [' '])) :=
    .intro (by simp [isSpace]) (by simp [isSpace])
  have hend := EndsWith.block helse hba (hread halternate (rest.print ++ t))
  have hafter : ReadsAs rest rest.print t := fun blocks after es => hrest blocks after t es ht
  have h := ReadsAs.conditional hopening hbb (hread hbody _) hend hafter blocks after es
  have he : (.conditional condition body alternate rest : Markup).print =
      "@if".toList ++ ([' '] ++ '(' :: (condition ++ ')' :: ([' '] ++ ['{']))) ++ (body.print ++
        '}' :: ([' '] ++ ("@else".toList ++ [' ']) ++ '{' :: (alternate.print ++ ['}']))) ++
          rest.print := by
    rw [print, printConditional_append]
    simp
  rwa [he]

end ReadsBack

theorem Printable.readsBack {m : Markup} (h : m.Printable) : m.ReadsBack := by
  induction m
  case empty => exact .empty
  case text content rest ih =>
    have ⟨hn, hi, hs, hrest⟩ := h
    exact .text hn hi hs (ih hrest)
  case name identifier rest ih =>
    have ⟨hn, hres, hc, hrest⟩ := h
    exact .name hn hres hc hrest (ih hrest)
  case conditional condition body alternate rest ihb iha ihr =>
    have ⟨⟨htrim, hne, hd⟩, ⟨hbb, hbody⟩, ⟨hba, halternate⟩, hrest⟩ := h
    exact .conditional htrim hne hd hbb hba (ihb hbody) (iha halternate) (ihr hrest)

-- Reading gives back what was printed.
theorem parse_print {m : Markup} (h : m.Printable) : parse m.print = .ok m := by
  have hstop : Stops [] := by simp [Stops]
  have htop : afterText [] m.ownText = some [] := rfl
  obtain ⟨pieces, hrun, hfold⟩ := h.readsBack [] [] [] [] hstop htop .done
  rw [List.append_nil, List.append_nil] at hrun
  refine parse_eq_ok_iff.mpr ⟨pieces, hrun, ?_⟩
  rw [ofEvents, hfold]

theorem parse_print_nested : ∃ m : Markup, m.Printable ∧
    m.print = "\x7d Don't @if @@x@if (s == \")\") \x7b\x7b@case".toList ++
      "@if (c /) \x7b\x7d @else \x7b'\x7d\x7d\x7d @else \x7b\x7d @else".toList ∧
    parse m.print = .ok m := by
  have h : Printable (.text "\x7d Don't @if @".toList (.name "x".toList
      (.conditional "s == \")\"".toList
        (.text "\x7b@case".toList (.conditional "c /".toList .empty (.text ['\''] .empty)
          (.text ['}'] .empty)))
        .empty (.text " @else".toList .empty)))) := by
    decide
  exact ⟨_, h, by decide, parse_print h⟩

end Componentry.Markup
