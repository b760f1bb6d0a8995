import DocFilter.Fault
import DocFilter.FilePath
import DocFilter.Text.Quoted

/-!
# Surroundings of a run

What a run can see beside its input: the directory it runs in, the variable that may name a
configuration, and the contents of files.
-/

namespace DocFilter

/-- What a path leads to. -/
inductive Content where
  /-- Not a file. -/
  | absent
  /-- Nothing that can be asked for: a name on the way is too long. -/
  | refused
  /-- A file that cannot be read, and why. -/
  | unreadable (detail : String)
  | bytes (content : ByteArray)
deriving Inhabited

/-- Why a file cannot be opened for writing, in the numbers and words of the system. -/
structure OpenError where
  code : Nat
  reason : String
deriving DecidableEq, Repr, Inhabited

namespace OpenError

/-- A name on the way is not there. -/
@[match_pattern] def missing : OpenError := ⟨2, "No such file or directory"⟩

/-- A name on the way is that of a file. -/
@[match_pattern] def notDirectory : OpenError := ⟨20, "Not a directory"⟩

/-- The path is that of a directory. -/
@[match_pattern] def directory : OpenError := ⟨21, "Is a directory"⟩

/-- A name on the way is too long. -/
@[match_pattern] def longName : OpenError := ⟨36, "File name too long"⟩

/-- The wording of an error in opening a file. -/
def text (e : OpenError) (file : FilePath) : String :=
  s!"[Errno {e.code}] {e.reason}: {Text.quoted file.text}"

end OpenError

/-- The surroundings of a run; the directory is absolute. -/
structure Host where
  directory : FilePath
  configVariable : String
  read : FilePath → Content

namespace Host

/-- Whether a path leads to a file; a path that cannot be asked for has no answer. -/
def isFile (host : Host) (path : FilePath) : Except Fault Bool := match host.read path with
  | .absent => .ok false
  | .refused => .error .system
  | _ => .ok true

end Host

end DocFilter
