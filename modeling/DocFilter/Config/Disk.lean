import DocFilter.Config.Host

/-!
# Files held in memory

A disk is a table of files and a list of directories, each known by its names from the root on; it has
no links. The directories above a file or a directory are there as well. A path is walked name by name:
every name but the last must be that of a directory, also before two dots, and none may be longer than
`Disk.nameLimit`, nor the whole path longer than `Disk.pathLimit`.
-/

namespace DocFilter

/-- Files and directories by their names from the root on. -/
structure Disk where
  files : List (List String × ByteArray)
  directories : List (List String)
deriving Inhabited

namespace Disk

/-- Directories that are always there. -/
def standing : List (List String) := [["dev"], ["tmp"]]

/-- Whether there is a directory. -/
def isDirectory (disk : Disk) (names : List String) : Bool :=
  (standing ++ disk.directories ++ disk.files.map (·.1.dropLast)).any names.isPrefixOf

/-- Whether there is a file. -/
def isFile (disk : Disk) (names : List String) : Bool := (disk.files.lookup names).isSome

/-- How many bytes a name may have. -/
def nameLimit : Nat := 255

/-- One name further from a place, which must be a directory. -/
def enter (disk : Disk) (place : List String) (name : String) : Except OpenError (List String) :=
  if !disk.isDirectory place then
    if disk.isFile place then .error .notDirectory else .error .missing
  else if nameLimit < name.utf8ByteSize then .error .longName
  else if name == ".." then .ok place.dropLast
  else .ok (place ++ [name])

/-- How many bytes a path may have. -/
def pathLimit : Nat := 4095

/-- The place that an absolute path leads to, whether or not something is there. -/
def follow (disk : Disk) (path : FilePath) : Except OpenError (List String) :=
  if pathLimit < path.text.utf8ByteSize then .error .longName else path.names.foldlM disk.enter []

/-- What an absolute path leads to. -/
def read (disk : Disk) (path : FilePath) : Content := match disk.follow path with
  | .ok names => match disk.files.lookup names with
    | some content => .bytes content
    | none => .absent
  | .error .longName => .refused
  | .error _ => .absent

/-- Why a file with a resolved path cannot be opened for writing; none if it can. -/
def openError? (disk : Disk) (path : FilePath) : Option OpenError :=
  if disk.isDirectory path.names then some .directory
  else match disk.follow path with
    | .ok _ => none
    | .error e => some e

end Disk

end DocFilter
