import Componentry.Files.Path

/-!
A tree of files. A file or directory has a key, the list of names that lead to it from the root; the
root itself has the empty key and is always there. One of the directories is the current one. An
absolute path is followed from the root and any other from the current directory, name by name.
-/
namespace Componentry

inductive Entry
  | file (content : ByteArray)
  | directory

instance : DecidableEq Entry
  | .file s, .file t =>
    decidable_of_iff (s.data = t.data)
      ⟨fun h => congrArg Entry.file (ByteArray.ext h), fun h => congrArg _ (Entry.file.inj h)⟩
  | .file _, .directory => isFalse nofun
  | .directory, .file _ => isFalse nofun
  | .directory, .directory => isTrue rfl

inductive FileFault
  | notFound
  | exists
  | notDirectory
  | isDirectory
  | notText
  deriving DecidableEq, Repr

def FileFault.message : FileFault → Text
  | .notFound => "No such file or directory (os error 2)".toList
  | .exists => "File exists (os error 17)".toList
  | .notDirectory => "Not a directory (os error 20)".toList
  | .isDirectory => "Is a directory (os error 21)".toList
  | .notText => "stream did not contain valid UTF-8".toList

abbrev Key := List Text

structure FileSystem where
  -- At most one entry for each key.
  entries : List (Key × Entry) := []
  current : Key := []
  deriving DecidableEq

namespace FileSystem

def get? (files : FileSystem) : Key → Option Entry
  | [] => some .directory
  | key => files.entries.lookup key

def set (files : FileSystem) (key : Key) (entry : Entry) : FileSystem :=
  { files with entries := (key, entry) :: files.entries.filter (·.1 ≠ key) }

def erase (files : FileSystem) (key : Key) : FileSystem :=
  { files with entries := files.entries.filter fun (k, _) => !key.isPrefixOf k }

inductive Step
  | here
  | up
  | name (text : Text)
  deriving DecidableEq, Repr

def steps (p : Path) : List Step :=
  (Text.splitAt '/' p.text).filterMap fun part =>
    if part = [] then none
    else if part = ['.'] then some .here
    else if part = ['.', '.'] then some .up
    else some (.name part)

-- Follows steps from a key. Each leads from a directory that is there; where the last one leads
-- there may be nothing. What is above the root is the root.
def follow (files : FileSystem) : Key → List Step → Except FileFault Key
  | key, [] => .ok key
  | key, step :: steps =>
    match files.get? key with
    | none => .error .notFound
    | some (.file _) => .error .notDirectory
    | some .directory =>
      match step with
      | .here => follow files key steps
      | .up => follow files key.dropLast steps
      | .name text => follow files (key ++ [text]) steps

def start (files : FileSystem) (p : Path) : Key :=
  if p.isAbsolute then [] else files.current

def locate (files : FileSystem) (p : Path) : Except FileFault Key :=
  if p.text = [] then .error .notFound else files.follow (files.start p) (steps p)

def endsWithSeparator (p : Path) : Bool :=
  p.text.getLast? = some '/'

-- Only a directory is there at a path that ends with a separator.
def entry (files : FileSystem) (p : Path) : Except FileFault Entry :=
  match files.locate p with
  | .error fault => .error fault
  | .ok key =>
    match files.get? key with
    | none => .error .notFound
    | some .directory => .ok .directory
    | some (.file content) =>
      if endsWithSeparator p then .error .notDirectory else .ok (.file content)

def isDirectory (files : FileSystem) (p : Path) : Bool :=
  files.entry p matches .ok .directory

def encode (t : Text) : ByteArray :=
  (String.ofList t).toByteArray

def decode? (content : ByteArray) : Option Text :=
  (String.fromUTF8? content).map String.toList

theorem decode?_encode (t : Text) : decode? (encode t) = some t := by
  have h : String.fromUTF8? (String.ofList t).toByteArray = some (String.ofList t) := by
    rw [String.fromUTF8?, dif_pos (String.ofList t).isValidUTF8]
    rfl
  rw [decode?, encode, h, Option.map_some, String.toList_ofList]

def readText (files : FileSystem) (p : Path) : Except FileFault Text :=
  match files.entry p with
  | .error fault => .error fault
  | .ok .directory => .error .isDirectory
  | .ok (.file content) =>
    match decode? content with
    | some t => .ok t
    | none => .error .notText

def meansDirectory (p : Path) : Bool :=
  endsWithSeparator p || (steps p).getLast?.any fun step => step = .here || step = .up

def write (files : FileSystem) (p : Path) (content : ByteArray) : Except FileFault FileSystem :=
  match files.locate p with
  | .error fault => .error fault
  | .ok key =>
    if meansDirectory p then .error .isDirectory
    else
      match files.get? key with
      | some .directory => .error .isDirectory
      | _ => .ok (files.set key (.file content))

def makeDirectory (files : FileSystem) (p : Path) : Except FileFault FileSystem :=
  match files.locate p with
  | .error fault => .error fault
  | .ok key =>
    match files.get? key with
    | some _ => .error .exists
    | none => .ok (files.set key .directory)

-- Makes a directory and those on the way to it that are missing. What was made stays, also where
-- the rest fails.
def makeDirectories (files : FileSystem) (p : Path) : FileSystem × Except FileFault Unit :=
  if p.components = [] then (files, .ok ())
  else
    match files.makeDirectory p with
    | .ok files => (files, .ok ())
    | .error .notFound =>
      match _ : p.parent? with
      | none => (files, .error .notFound)
      | some parent =>
        match makeDirectories files parent with
        | (files, .error fault) => (files, .error fault)
        | (files, .ok ()) =>
          match files.makeDirectory p with
          | .ok files => (files, .ok ())
          | .error fault => (files, if files.isDirectory p then .ok () else .error fault)
    | .error fault => (files, if files.isDirectory p then .ok () else .error fault)
termination_by p.text.length
decreasing_by exact Path.length_parent?_lt ‹_›

def removeFile (files : FileSystem) (p : Path) : Except FileFault FileSystem :=
  match files.entry p, files.locate p with
  | .ok (.file _), .ok key => .ok (files.erase key)
  | .error fault, _ => .error fault
  | _, _ => .error .isDirectory

def clear (files : FileSystem) (key : Key) : FileSystem :=
  { files with entries := files.entries.filter fun (k, _) => k = key || !key.isPrefixOf k }

-- Removes a file, or a directory with all that is in it, and says whether nothing is left. A
-- directory is not removed from inside: where the last step of the path is not a name, it is only
-- made empty.
def remove (files : FileSystem) (p : Path) : FileSystem × Bool :=
  match files.entry p, files.locate p with
  | .ok _, .ok key =>
    if (steps p).getLast? matches some (.name _) then (files.erase key, true)
    else (files.clear key, false)
  | _, _ => (files, false)

end FileSystem
end Componentry
