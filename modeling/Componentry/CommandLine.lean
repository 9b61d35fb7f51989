import Componentry.Build.Project

/-!
The command line. It compiles one component, or with a configuration alone builds the project that
the configuration describes.
-/
namespace Componentry.CommandLine

def usage : Text :=
  "Usage: dribblec <file.dribble>".toList

structure Arguments where
  input : Option Path := none
  config : Option Path := none
  deriving DecidableEq, Repr

inductive Refusal
  | usage
  | missingConfig
  | unknown (argument : Text)
  | unexpected (argument : Text)
  deriving DecidableEq, Repr

def Refusal.message : Refusal → Text
  | .usage => CommandLine.usage
  | .missingConfig => "missing value for --config\n".toList ++ CommandLine.usage
  | .unknown argument =>
    "unknown argument '".toList ++ argument ++ "'\n".toList ++ CommandLine.usage
  | .unexpected argument =>
    "unexpected argument '".toList ++ argument ++ "'\n".toList ++ CommandLine.usage

namespace Arguments

-- Reads arguments after those already read. The last configuration counts, and there is only one
-- input.
def readFrom (read : Arguments) : List Text → Except Refusal Arguments
  | [] => if read.input = none && read.config = none then .error .usage else .ok read
  | argument :: others =>
    if argument = "--config".toList then
      match others with
      | [] => .error .missingConfig
      | value :: others => readFrom { read with config := some ⟨value⟩ } others
    else if argument = "-h".toList || argument = "--help".toList then .error .usage
    else if "--".toList.isPrefixOf argument then .error (.unknown argument)
    else if read.input = none then readFrom { read with input := some ⟨argument⟩ } others
    else .error (.unexpected argument)

def read (arguments : List Text) : Except Refusal Arguments :=
  readFrom {} arguments

end Arguments

def compileFile (config : Config) (files : FileSystem) (input : Path) :
    FileSystem × Log × Except BuildError Unit :=
  match files.readText input with
  | .error fault => (files, {}, .error (.file input fault))
  | .ok source =>
    match Component.compile input.text source config.options with
    | .error error => (files, {}, .error (.component error))
    | .ok m =>
      let output := input.moduleOf config
      match m.writeTo files output with
      | (files, .error error) => (files, {}, .error error)
      | (files, .ok ()) =>
        (files, { out := ["Compiled ".toList ++ input.text ++ " -> ".toList ++ output.text] },
          .ok ())

def failureSummary (report : Report) : Text :=
  "[Dribble] ".toList ++ Text.ofNat report.failures.length ++ " of ".toList ++
    Text.ofNat report.total ++ " components failed to compile".toList

def reported (error : BuildError) : Log :=
  { errors := ["[Dribble] ".toList ++ error.message] }

def perform (arguments : Arguments) (files : FileSystem) : FileSystem × Log × Nat :=
  match arguments.config.elim (.ok {}) (Config.load files) with
  | .error error => (files, reported error, 1)
  | .ok config =>
    match arguments.input with
    | some input =>
      match compileFile config files input with
      | (files, log, .ok ()) => (files, log, 0)
      | (files, log, .error error) => (files, log ++ reported error, 1)
    | none =>
      match Project.build config files with
      | (files, log, .error error) => (files, log ++ reported error, 1)
      | (files, log, .ok report) =>
        if report.isSuccess then (files, log, 0)
        else (files, log ++ { errors := [failureSummary report] }, 1)

def run (arguments : List Text) (files : FileSystem) : FileSystem × Log × Nat :=
  match Arguments.read arguments with
  | .error refusal => (files, { errors := [refusal.message] }, 1)
  | .ok arguments => perform arguments files

end Componentry.CommandLine
