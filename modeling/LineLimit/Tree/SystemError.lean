import LineLimit.Text.Basic

/-!
# Why the system refuses a path

The reasons for which a path cannot be looked up, opened or read, and the text
in which the system reports each.
-/

namespace LineLimit

/-- Why a path could not be looked up, opened or read. -/
inductive SystemError where
  /-- Nothing is there. -/
  | notFound
  /-- A read failed. -/
  | inputOutput
  /-- A file may not be opened, or a directory not listed or searched. -/
  | permissionDenied
  /-- Something that is no directory stands where a directory has to be. -/
  | notDirectory
  /-- A directory was read as a file. -/
  | isDirectory
  /-- A name or a path is too long. -/
  | nameTooLong
  /-- More links than the system follows in one path. -/
  | tooManyLinks
  /-- A path with a zero byte, which no system call can be given. -/
  | zeroByte
  deriving DecidableEq, Repr

/-- The system's words for an error. -/
def SystemError.message : SystemError → Text
  | .notFound => "No such file or directory (os error 2)".toList
  | .inputOutput => "Input/output error (os error 5)".toList
  | .permissionDenied => "Permission denied (os error 13)".toList
  | .notDirectory => "Not a directory (os error 20)".toList
  | .isDirectory => "Is a directory (os error 21)".toList
  | .nameTooLong => "File name too long (os error 36)".toList
  | .tooManyLinks => "Too many levels of symbolic links (os error 40)".toList
  | .zeroByte => "file name contained an unexpected NUL byte".toList

end LineLimit
