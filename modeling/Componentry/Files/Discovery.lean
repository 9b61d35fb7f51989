import Componentry.Files.FileSystem

/-!
The files of a tree that have a given extension.
-/
namespace Componentry.FileSystem

def pathBelow (directory : Path) (names : List Text) : Path :=
  names.foldl (fun p name => p.join ⟨name⟩) directory

def filesBelow (files : FileSystem) (p : Path) : List Path :=
  match files.entry p, files.locate p with
  | .ok (.file _), _ => [p]
  | .ok .directory, .ok key =>
    files.entries.filterMap fun (k, entry) =>
      match entry with
      | .file _ => if key.isPrefixOf k then some (pathBelow p (k.drop key.length)) else none
      | .directory => none
  | _, _ => []

def find (files : FileSystem) (p : Path) (extension : Text) : List Path :=
  ((files.filesBelow p).filter (·.extension? = some extension)).mergeSort
    fun p q => ¬q.sortKey < p.sortKey

end Componentry.FileSystem
