import Componentry.Build.Config
import Componentry.Digest.Sha256

/-!
Modules kept from earlier builds. A module is kept in a file named for a digest of the options and
the source, so that it is found again only for the same key.
-/
namespace Componentry

namespace Module

def ofJson? (json : Json) : Option Module := do
  match ← json.fields? ["code".toList, "map".toList] with
  | [some code, map] =>
    return ⟨← code.text?, ← Json.orDefault map (Json.optional Json.text?) none⟩
  | _ => none

def toJson (m : Module) : Json :=
  .object (("code".toList, .ofText m.code) ::
    match m.map with
    | none => []
    | some map => [("map".toList, .ofText map)])

end Module

structure Cache where
  directory : Path
  deriving DecidableEq, Repr

namespace Cache

def keyText (options : Options) (source : Text) : Text :=
  options.fingerprint ++ '\x00' :: source

def key (options : Options) (source : Text) : Text :=
  Sha256.hex (keyText options source).bytes

def entryPath (cache : Cache) (key : Text) : Path :=
  cache.directory.join ⟨key ++ ".json".toList⟩

def entryText (key : Text) (m : Module) : Text :=
  Json.write (.object [("hash".toList, .ofText key), ("module".toList, m.toJson)])

def decodeEntry (t : Text) : Option (Text × Module) := do
  let json ← Json.parse? t
  match ← json.fields? ["hash".toList, "module".toList] with
  | [some hash, some module] => return (← hash.text?, ← Module.ofJson? module)
  | _ => none

def make (files : FileSystem) (directory : Path) : FileSystem × Except BuildError Cache :=
  match files.makeDirectories directory with
  | (files, .ok ()) => (files, .ok ⟨directory⟩)
  | (files, .error fault) => (files, .error (.file directory fault))

-- A file that holds no entry is removed, and that is said.
def get (cache : Cache) (files : FileSystem) (options : Options) (source : Text) :
    Option Module × FileSystem × List Text :=
  let path := cache.entryPath (key options source)
  match files.readText path with
  | .error _ => (none, files, [])
  | .ok t =>
    match decodeEntry t with
    | some (hash, m) => (if hash = key options source then some m else none, files, [])
    | none =>
      (none, (files.removeFile path).toOption.getD files,
        ["[Dribble] Cache entry ".toList ++ path.text ++ " is corrupt, removing".toList])

-- Where a module cannot be kept, that is only said.
def set (cache : Cache) (files : FileSystem) (options : Options) (source : Text) (m : Module) :
    FileSystem × List Text :=
  let path := cache.entryPath (key options source)
  match files.write path (FileSystem.encode (entryText (key options source) m)) with
  | .ok files => (files, [])
  | .error fault =>
    (files, ["[Dribble] Failed to write cache entry ".toList ++ path.text ++ ": ".toList ++
      fault.message])

end Cache
end Componentry
