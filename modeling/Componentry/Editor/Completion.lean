import Componentry.Editor.Declarations
import Componentry.Editor.Snapshot

/-!
What an editor offers to insert at a place in a component.
-/
namespace Componentry.Editor

inductive CompletionKind
  | keyword
  | snippet
  | tag
  | attribute
  | variable
  deriving DecidableEq, Repr

def CompletionKind.name : CompletionKind → Text
  | .keyword => "keyword".toList
  | .snippet => "snippet".toList
  | .tag => "tag".toList
  | .attribute => "attribute".toList
  | .variable => "variable".toList

structure Completion where
  name : Text
  kind : CompletionKind
  insertion : Option Text := none
  deriving DecidableEq, Repr

inductive Place
  | afterAt
  | tagName
  | insideTag
  | elsewhere
  deriving DecidableEq, Repr

namespace Place

-- Whether a text, given backward, is inside a tag: a `<` and a letter come after the last `>`.
def isInsideTag (backward : Text) : Bool :=
  match backward.dropWhile (fun c => c ≠ '<' && c ≠ '>') with
  | '<' :: _ => (backward.takeWhile (fun c => c ≠ '<' && c ≠ '>')).getLast?.any Char.isAlpha
  | _ => false

def ofBackward : Text → Place
  | '@' :: _ => .afterAt
  | '<' :: _ => .tagName
  | c :: t => if isSpace c && isInsideTag (c :: t) then .insideTag else .elsewhere
  | [] => .elsewhere

end Place

def tags : List Text :=
  ["a", "article", "aside", "button", "code", "div", "em", "footer", "form", "h1", "h2", "h3",
    "header", "img", "input", "label", "li", "main", "nav", "ol", "option", "p", "pre", "section",
    "select", "small", "span", "strong", "table", "tbody", "td", "textarea", "th", "thead", "tr",
    "ul"].map String.toList

def attributes : List Text :=
  ["alt", "aria-label", "checked", "class", "disabled", "for", "href", "id", "name", "placeholder",
    "role", "src", "style", "tabindex", "title", "type", "value"].map String.toList

def conditionSnippet : Text :=
  "if ($\x7b1:condition\x7d) \x7b\n\t$0\n\x7d".toList

def elseSnippet : Text :=
  "else \x7b\n\t$0\n\x7d".toList

def componentSnippet : Text :=
  ("export $\x7b1|ephemeral,persistent|\x7d $\x7b2:Name\x7d($\x7b3\x7d) \x7b\n\trender(\n\t\t$0" ++
    "\n\t);\n\x7d").toList

def offered (source : Text) : Place → List Completion
  | .afterAt =>
    (names source).map (⟨·, .variable, none⟩) ++
      [⟨"if".toList, .snippet, some conditionSnippet⟩, ⟨"else".toList, .snippet, some elseSnippet⟩]
  | .tagName => tags.map (⟨·, .tag, none⟩)
  | .insideTag => attributes.map (⟨·, .attribute, none⟩)
  | .elsewhere =>
    [⟨"ephemeral".toList, .keyword, none⟩,
      ⟨"persistent".toList, .keyword, none⟩,
      ⟨"render".toList, .keyword, none⟩,
      ⟨"@if".toList, .snippet, some ('@' :: conditionSnippet)⟩,
      ⟨"component".toList, .snippet, some componentSnippet⟩]

-- The word before the offset does not matter.
def completions (path source : Text) (offset : Nat) : List Completion :=
  if isComponent path then
    offered source (.ofBackward ((source.cut offset).1.reverse.dropWhile Identifier.isPart))
  else []

end Componentry.Editor
