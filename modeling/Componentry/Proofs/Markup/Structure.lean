import Mathlib
import Componentry.Markup.Template

/-!
Parts of markup: the names and conditions in it, and where its texts stand. Escaped text and what
follows it in a template never meet as `$` and `{`.
-/
namespace Componentry.Markup

def names : Markup → List Text
  | .empty => []
  | .text _ rest => rest.names
  | .name identifier rest => identifier :: rest.names
  | .conditional _ body alternate rest => body.names ++ alternate.names ++ rest.names

def conditions : Markup → List Text
  | .empty => []
  | .text _ rest => rest.conditions
  | .name _ rest => rest.conditions
  | .conditional condition body alternate rest =>
    condition :: body.conditions ++ alternate.conditions ++ rest.conditions

def startsWithText : Markup → Bool
  | .text .. => true
  | _ => false

-- Whether no two texts follow each other, blocks apart.
def textsApart : Markup → Bool
  | .empty => true
  | .text _ rest => !rest.startsWithText && rest.textsApart
  | .name _ rest => rest.textsApart
  | .conditional _ _ _ rest => rest.textsApart

theorem head?_escape_append {t rest : Text} (ht : t.head? ≠ some '{') (hr : rest.head? ≠ some '{') :
    (escape t ++ rest).head? ≠ some '{' := by
  cases t
  case nil => exact hr
  case cons c t =>
    simp only [escape]
    split
    · simp
    · simpa using ht

theorem head?_templateParts {m : Markup} (h : m.startsWithText = false) (rest : Text) :
    (m.templateParts ++ '`' :: rest).head? ≠ some '{' := by
  cases m
  case text => simp [startsWithText] at h
  all_goals simp [templateParts]

section Choice

variable (condition yes no : Text)

theorem choice_append (rest : Text) : choice condition yes no ++ rest =
    "(() => \x7b if (".toList ++ (condition ++ ')' :: (" \x7b return ".toList ++ (yes ++
      ("; \x7d return ".toList ++ (no ++ ("; \x7d)()".toList ++ rest)))))) := by
  unfold choice
  simp only [String.reduceToList, List.append_assoc, List.cons_append, List.nil_append]

theorem length_branches_lt_choice :
    yes.length < (choice condition yes no).length ∧
    no.length < (choice condition yes no).length := by
  have hlen := congrArg List.length (choice_append condition yes no [])
  simp only [List.append_nil, List.length_append, List.length_cons] at hlen
  omega

end Choice

end Componentry.Markup
