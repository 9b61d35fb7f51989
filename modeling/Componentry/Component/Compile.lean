import Componentry.Component.Body
import Componentry.Component.Generation
import Componentry.Component.Header
import Componentry.Markup.Template

/-!
From the source of a component to its module.
-/
namespace Componentry

structure Component where
  header : Header
  body : Body
  markup : Markup
  deriving DecidableEq, Repr

namespace Component

def read (source : Text) : Except Problem Component := do
  let header ← Header.extract source
  let body ← Body.split source header.bodyStart
  match Markup.parse body.argument.trimBlankLines with
  | .ok markup => .ok ⟨header, body, markup⟩
  | .error e => .error ⟨.malformedRender, body.renderOffset, some e.cause.message⟩

def toModule (component : Component) (options : Options) : Module :=
  ⟨Module.generate component.header component.body.prelude component.markup.template options,
    options.sourceMap⟩

def analyze (file source : Text) : Except CompileError Component :=
  (read source).mapError (·.inFile file source)

def compile (file source : Text) (options : Options) : Except CompileError Module :=
  (analyze file source).map (·.toModule options)

end Component
end Componentry
