import Componentry.Component.Basic
import Componentry.Text.Blank

/-!
The text of a generated module: the import of the runtime, then a class whose methods hold the
parameters, the statements and the rendered expression as they are.
-/
namespace Componentry.Module

def lines (header : Header) (prelude expression : Text) (options : Options) : List Text :=
  let base := header.kind.baseClass
  [ "import \x7b ".toList ++ base ++ ", ".toList ++ options.renderHelper ++ " \x7d from '".toList ++
      options.runtimeModule ++ "';\n".toList,
    "\n".toList,
    "export class ".toList ++ header.name ++ " extends ".toList ++ base ++ "<any> \x7b\n".toList,
    "  // Capture constructor params (from component signature) as this.props\n".toList,
    "  props: any;\n".toList,
    "  constructor(props?: any) \x7b super(); this.props = props; \x7d\n".toList,
    "  async onInit(".toList ++ header.parameters.trim ++
      ") \x7b /* optional init hook */ \x7d\n".toList,
    "  renderInitial(root: HTMLElement) \x7b\n".toList,
    "    const params = this.props;\n".toList,
    if prelude = [] then [] else prelude ++ ['\n'],
    "    ".toList ++ options.renderHelper ++ "(root, ".toList ++ expression ++ ");\n".toList,
    "  \x7d\n".toList,
    "  onStateChange(_diff: any) \x7b\x7d\n".toList,
    "\x7d\n".toList,
    "export default ".toList ++ header.name ++ ";\n".toList ]

def generate (header : Header) (prelude expression : Text) (options : Options) : Text :=
  (lines header prelude expression options).flatten

end Componentry.Module
