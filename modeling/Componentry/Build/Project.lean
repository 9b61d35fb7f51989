import Componentry.Build.Cache
import Componentry.Component.Compile
import Componentry.Files.Discovery

/-!
Building a project: every component below the routes directory is compiled, and its module written
beside it. A component that fails does not stop the others.
-/
namespace Componentry

-- What was printed. A text may have more than one line.
structure Log where
  out : List Text := []
  errors : List Text := []
  deriving DecidableEq, Repr

namespace Log

def append (a b : Log) : Log :=
  ⟨a.out ++ b.out, a.errors ++ b.errors⟩

instance : Append Log :=
  ⟨append⟩

def lines (texts : List Text) : List Text :=
  texts.flatMap (Text.splitAt '\n')

end Log

def Path.moduleOf (file : Path) (config : Config) : Path :=
  file.withExtension config.targetExtension

def Module.writeTo (m : Module) (files : FileSystem) (output : Path) :
    FileSystem × Except BuildError Unit :=
  match output.parent? with
  | none => put files
  | some parent =>
    match files.makeDirectories parent with
    | (files, .error fault) => (files, .error (.file parent fault))
    | (files, .ok ()) => put files
where
  put (files : FileSystem) : FileSystem × Except BuildError Unit :=
    match files.write output (FileSystem.encode m.code) with
    | .ok files => (files, .ok ())
    | .error fault => (files, .error (.file output fault))

inductive Outcome
  | written (output : Path) (cached : Bool)
  | failed (error : BuildError)
  deriving DecidableEq, Repr

structure Failure where
  path : Text
  message : Text
  deriving DecidableEq, Repr

structure Report where
  compiled : Nat := 0
  cached : Nat := 0
  failures : List Failure := []
  deriving DecidableEq, Repr

namespace Report

def isSuccess (report : Report) : Bool :=
  report.failures = []

def total (report : Report) : Nat :=
  report.failures.length + report.compiled

def add (report : Report) (root file : Path) : Outcome → Report
  | .written _ cached =>
    { report with
      compiled := report.compiled + 1
      cached := report.cached + if cached then 1 else 0 }
  | .failed error =>
    { report with failures := report.failures ++ [⟨file.display root, error.message⟩] }

def ofOutcomes (root : Path) (outcomes : List (Path × Outcome)) : Report :=
  outcomes.foldl (fun report (file, outcome) => report.add root file outcome) {}

theorem total_add (report : Report) (root file : Path) (outcome : Outcome) :
    (report.add root file outcome).total = report.total + 1 := by
  cases outcome <;> simp [add, total] <;> omega

theorem total_ofOutcomes (root : Path) (outcomes : List (Path × Outcome)) :
    (ofOutcomes root outcomes).total = outcomes.length := by
  suffices h : ∀ report : Report,
      (outcomes.foldl (fun report (file, outcome) => report.add root file outcome) report).total =
        report.total + outcomes.length by
    simpa [ofOutcomes, total] using h {}
  induction outcomes with
  | nil => simp
  | cons o outcomes ih =>
    intro report
    rw [List.foldl_cons, ih, total_add, List.length_cons]
    omega

end Report

namespace Project

def announce (root file : Path) : Outcome → Log
  | .written output cached =>
    { out := ["Compiled ".toList ++ file.display root ++ " -> ".toList ++ output.display root ++
        if cached then " (cached)".toList else []] }
  | .failed error =>
    { errors := ["[Dribble] Failed to compile ".toList ++ file.display root ++ ": ".toList ++
        error.message] }

-- A module comes from the cache if it is there, and is kept there if it is not.
def obtain (config : Config) (cache : Option Cache) (files : FileSystem) (file : Path)
    (source : Text) : FileSystem × List Text × Except BuildError (Module × Bool) :=
  match cache with
  | none =>
    match Component.compile file.text source config.options with
    | .ok m => (files, [], .ok (m, false))
    | .error error => (files, [], .error (.component error))
  | some cache =>
    match cache.get files config.options source with
    | (some m, files, said) => (files, said, .ok (m, true))
    | (none, files, said) =>
      match Component.compile file.text source config.options with
      | .ok m =>
        let (files, more) := cache.set files config.options source m
        (files, said ++ more, .ok (m, false))
      | .error error => (files, said, .error (.component error))

def buildFile (config : Config) (cache : Option Cache) (files : FileSystem) (file : Path) :
    FileSystem × List Text × Outcome :=
  match files.readText file with
  | .error fault => (files, [], .failed (.file file fault))
  | .ok source =>
    match obtain config cache files file source with
    | (files, said, .error error) => (files, said, .failed error)
    | (files, said, .ok (m, cached)) =>
      match m.writeTo files (file.moduleOf config) with
      | (files, .ok ()) => (files, said, .written (file.moduleOf config) cached)
      | (files, .error error) => (files, said, .failed error)

def buildFiles (config : Config) (cache : Option Cache) (files : FileSystem) :
    List Path → FileSystem × List Text × List (Path × Outcome)
  | [] => (files, [], [])
  | file :: others =>
    let (files, said, outcome) := buildFile config cache files file
    let (files, more, outcomes) := buildFiles config cache files others
    (files, said ++ more, (file, outcome) :: outcomes)

def openCache (config : Config) (files : FileSystem) :
    FileSystem × Except BuildError (Option Cache) :=
  match config.cacheDir with
  | none => (files, .ok none)
  | some directory =>
    match Cache.make files directory with
    | (files, .ok cache) => (files, .ok (some cache))
    | (files, .error error) => (files, .error error)

-- What the cache says is printed before what became of the components.
def build (config : Config) (files : FileSystem) : FileSystem × Log × Except BuildError Report :=
  let routes := config.routesPath
  if files.isDirectory routes then
    match openCache config files with
    | (files, .error error) => (files, {}, .error error)
    | (files, .ok cache) =>
      let found := files.find routes config.sourceExtension
      let (files, said, outcomes) := buildFiles config cache files found
      let log := outcomes.foldl
        (fun log (file, outcome) => log ++ announce config.root file outcome) { errors := said }
      (files, log, .ok (.ofOutcomes config.root outcomes))
  else
    (files,
      { errors := ["[Dribble] No routes directory at ".toList ++ routes.text ++
          ", nothing to compile".toList] },
      .ok {})

end Project
end Componentry
