import Mathlib
import Componentry.Component.Compile
import Componentry.Proofs.Code.Locality
import Componentry.Proofs.Text.Runs

/-!
What comes first: the brace that opens the body of a component, which is just before the offset in
its header, and the component that a module is made of.
-/
namespace Componentry

namespace Text

theorem trimStart_suffix (t : Text) : t.trimStart <:+ t :=
  List.dropWhile_suffix isBlank

theorem skipBlanks?_suffix {t rest : Text} (h : t.skipBlanks? = some rest) : rest <:+ t := by
  unfold skipBlanks? at h
  split at h
  case isTrue =>
    cases h
    exact t.trimStart_suffix
  case isFalse => simp at h

theorem stripStart?_suffix {t word rest : Text} (h : t.stripStart? word = some rest) : rest <:+ t :=
  ⟨word, (stripStart?_eq_some_iff.mp h).symm⟩

end Text

namespace Header

variable {source t paren : Text} {previous : Option Char} {kind : Kind} {name : Text}
  {header : Header}

theorem kind?_suffix {rest : Text} (h : kind? t = some (kind, rest)) : rest <:+ t := by
  obtain ⟨k, _, hk⟩ := List.exists_of_findSome?_eq_some h
  obtain ⟨u, hu, he⟩ := Option.map_eq_some_iff.mp hk
  cases he
  exact Text.stripStart?_suffix hu

theorem declaration?_suffix (h : declaration? t = some (kind, name, paren)) : paren <:+ t := by
  simp only [declaration?, Option.bind_eq_bind, Option.bind_eq_some_iff] at h
  obtain ⟨afterExport, h₁, afterBlanks, h₂, ⟨k, afterKind⟩, h₃, beforeName, h₄, h⟩ := h
  have hname : (Identifier.split beforeName).2 <:+ beforeName :=
    ⟨_, Identifier.split_append beforeName⟩
  have hparen : paren = (Identifier.split beforeName).2.trimStart := by
    split at h
    case h_1 heq =>
      cases h
      exact heq.symm
    case h_2 => simp at h
  rw [hparen]
  calc (Identifier.split beforeName).2.trimStart
    _ <:+ (Identifier.split beforeName).2 := Text.trimStart_suffix _
    _ <:+ beforeName := hname
    _ <:+ afterKind := Text.skipBlanks?_suffix h₄
    _ <:+ afterBlanks := kind?_suffix h₃
    _ <:+ afterExport := Text.skipBlanks?_suffix h₂
    _ <:+ t := Text.stripStart?_suffix h₁

def Opens (source : Text) (header : Header) : Prop :=
  ∃ before statements, source = before ++ '{' :: statements ∧
    header.bodyStart = Text.size (before ++ ['{'])

theorem opens_of_here? (ht : t <:+ source) (h : here? source previous t = some header) :
    header.Opens source := by
  simp only [here?, Option.bind_eq_bind, Option.bind_eq_some_iff] at h
  obtain ⟨⟨kind, name, paren⟩, hd, h⟩ := h
  split at h
  case isFalse => simp at h
  case isTrue =>
    obtain ⟨⟨parameters, rest⟩, hg, h⟩ := Option.bind_eq_some_iff.mp h
    split at h
    case h_2 => simp at h
    case h_1 statements hs =>
      cases h
      dsimp only at hg hs
      obtain ⟨taken, hparen, _⟩ := Code.group?_inside hg
      obtain ⟨space, hspace, _⟩ := Text.exists_skipSpace rest
      have hrest : '{' :: statements <:+ paren :=
        ⟨taken ++ space, by rw [hparen, List.append_assoc, ← hs, ← hspace]⟩
      obtain ⟨before, hsource⟩ := (hrest.trans (declaration?_suffix hd)).trans ht
      refine ⟨before, statements, hsource.symm, ?_⟩
      have happend : source = (before ++ ['{']) ++ statements := by simp [← hsource]
      rw [happend, Text.offset_append]

theorem opens_of_go (ht : t <:+ source) (h : find?.go source previous t = some header) :
    header.Opens source := by
  induction t generalizing previous
  case nil => simp [find?.go] at h
  case cons c t ih =>
    rw [find?.go, Option.or_eq_some_iff] at h
    rcases h with h | ⟨_, h⟩
    case inl => exact opens_of_here? ht h
    case inr => exact ih ((List.suffix_cons c t).trans ht) h

theorem opens_of_extract (h : extract source = .ok header) : header.Opens source := by
  unfold extract at h
  split at h
  case h_1 hf =>
    cases h
    exact opens_of_go (List.suffix_refl source) hf
  case h_2 => simp at h

end Header

theorem Component.compile_eq_ok_iff {file source : Text} {options : Options} {m : Module} :
    compile file source options = .ok m ↔ ∃ c, read source = .ok c ∧ c.toModule options = m := by
  unfold compile analyze
  cases read source <;> simp [Except.mapError, Except.map]

end Componentry
