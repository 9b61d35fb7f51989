import Componentry.Text.Basic

/-!
What encloses a place in code: bracket groups, strings, comments and templates, innermost first.
Code is read one character at a time. Where two characters belong together, the first one leaves a
mark (`slash`, `star`, `dollar`, `escape`) that the second one resolves. Closers of the wrong kind
are accepted, because all groups count alike.
-/
namespace Componentry.Code

inductive Context
  | group
  -- In code, after a `/` that may open a comment.
  | slash
  | line
  | block
  | star
  | quoted (quote : Char)
  | template
  -- Inside a template, after a `$` that may open a substitution.
  | dollar
  | escape
  deriving DecidableEq, Repr

def isOpener (c : Char) : Bool :=
  c = '(' || c = '[' || c = '{'

def isCloser (c : Char) : Bool :=
  c = ')' || c = ']' || c = '}'

namespace Context

-- A closer with no group to close is passed over.
def afterCode (within : List Context) (c : Char) : List Context :=
  if c = '/' then .slash :: within
  else if c = '"' || c = '\'' then .quoted c :: within
  else if c = '`' then .template :: within
  else if isOpener c then .group :: within
  else if isCloser c then within.tail
  else within

def afterTemplate (outer : List Context) (c : Char) : List Context :=
  if c = '\\' then .escape :: .template :: outer
  else if c = '`' then outer
  else if c = '$' then .dollar :: outer
  else .template :: outer

def after : List Context → Char → List Context
  | .slash :: outer, c =>
    if c = '/' then .line :: outer
    else if c = '*' then .block :: outer
    else afterCode outer c
  | .line :: outer, c => if c = '\n' then outer else .line :: outer
  | .block :: outer, c => if c = '*' then .star :: outer else .block :: outer
  | .star :: outer, c =>
    if c = '/' then outer
    else if c = '*' then .star :: outer
    else .block :: outer
  | .quoted quote :: outer, c =>
    if c = '\\' then .escape :: .quoted quote :: outer
    else if c = quote || c = '\n' then outer
    else .quoted quote :: outer
  | .template :: outer, c => afterTemplate outer c
  | .dollar :: outer, c =>
    if c = '{' then .group :: .template :: outer
    else afterTemplate outer c
  | .escape :: outer, _ => outer
  | within, c => afterCode within c

-- Whether a place is outside every string, comment and template, given the character after it:
-- between the two characters that open a comment it is not.
def isCode (within : List Context) (next : Char) : Bool :=
  match within with
  | .slash :: outer => next ≠ '/' && next ≠ '*' && outer.all (· = .group)
  | within => within.all (· = .group)

end Context
end Componentry.Code
