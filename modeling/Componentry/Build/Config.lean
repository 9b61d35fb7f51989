import Componentry.Component.Basic
import Componentry.Files.FileSystem
import Componentry.Json.Reader
import Componentry.Json.Record

/-!
The configuration of a build, and the ways in which a build can fail.
-/
namespace Componentry

inductive BuildError
  | file (path : Path) (fault : FileFault)
  | component (error : CompileError)
  | config (path : Path)
  deriving DecidableEq, Repr

def BuildError.message : BuildError → Text
  | .file path fault => "failed to access ".toList ++ path.text ++ ": ".toList ++ fault.message
  | .component error => error.message
  | .config path => "invalid config ".toList ++ path.text

namespace Options

def ofJson? (json : Json) : Option Options := do
  let default : Options := {}
  match ← json.fields? ["runtimeModule".toList, "renderHelper".toList, "sourceMap".toList] with
  | [runtimeModule, renderHelper, sourceMap] =>
    return {
      runtimeModule := ← Json.orDefault runtimeModule Json.text? default.runtimeModule
      renderHelper := ← Json.orDefault renderHelper Json.text? default.renderHelper
      sourceMap := ← Json.orDefault sourceMap (Json.optional Json.text?) default.sourceMap }
  | _ => none

-- A text for the options, which tells apart most of those that lead to different modules.
def fingerprint (options : Options) : Text :=
  options.runtimeModule ++ '\x00' :: options.renderHelper ++ '\x00' :: options.sourceMap.getD []

end Options

structure Config where
  root : Path := ⟨".".toList⟩
  routesDir : Path := ⟨"src/routes".toList⟩
  sourceExtension : Text := "dribble".toList
  targetExtension : Text := "ts".toList
  cacheDir : Option Path := none
  -- The number of threads; it does not change what is built.
  threads : Nat := 0
  options : Options := {}
  deriving DecidableEq, Repr

namespace Config

def path? (json : Json) : Option Path :=
  json.text?.map Path.mk

def ofJson? (json : Json) : Option Config := do
  let default : Config := {}
  match ← json.fields? ["root".toList, "routesDir".toList, "sourceExtension".toList,
    "targetExtension".toList, "cacheDir".toList, "threads".toList, "compile".toList] with
  | [root, routesDir, sourceExtension, targetExtension, cacheDir, threads, options] =>
    return {
      root := ← Json.orDefault root path? default.root
      routesDir := ← Json.orDefault routesDir path? default.routesDir
      sourceExtension := ← Json.orDefault sourceExtension Json.text? default.sourceExtension
      targetExtension := ← Json.orDefault targetExtension Json.text? default.targetExtension
      cacheDir := ← Json.orDefault cacheDir (Json.optional path?) default.cacheDir
      threads := ← Json.orDefault threads Json.nat? default.threads
      options := ← Json.orDefault options Options.ofJson? default.options }
  | _ => none

def routesPath (config : Config) : Path :=
  config.root.join config.routesDir

def relativeTo (config : Config) (directory : Path) : Config :=
  { config with
    root := directory.join config.root
    cacheDir := config.cacheDir.map directory.join }

def load (files : FileSystem) (path : Path) : Except BuildError Config :=
  match files.readText path with
  | .error fault => .error (.file path fault)
  | .ok t =>
    match (Json.parse? t).bind ofJson? with
    | none => .error (.config path)
    | some config => .ok (config.relativeTo (path.parent?.getD ⟨".".toList⟩))

end Config
end Componentry
