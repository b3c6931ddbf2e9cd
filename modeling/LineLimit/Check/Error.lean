import LineLimit.Config
import LineLimit.Glob.Syntax
import LineLimit.Walk

/-!
# What can go wrong in a check
-/

namespace LineLimit

/-- Why a check, or a part of it, failed. -/
inductive CheckError where
  /-- The pattern is no glob. -/
  | invalidPattern (pattern : Text) (cause : GlobError)
  /-- A file could not be read. -/
  | fileRead (path : Path) (cause : SystemError)
  /-- Something could not be walked. -/
  | walk (cause : WalkError)
  /-- The description of the check is not complete. -/
  | config (reason : Text)
  deriving DecidableEq, Repr

namespace CheckError

/-- The error of a draft that is not complete. -/
def ofConfigError (e : ConfigError) : CheckError := .config e.message

/-- What the user is told. -/
def message : CheckError → Text
  | .invalidPattern pattern cause =>
    "Invalid pattern '".toList ++ pattern ++ "': error parsing glob '".toList ++ pattern ++
      "': ".toList ++ cause.message
  | .fileRead path cause =>
    "Failed to read file '".toList ++ lossy path ++ "': ".toList ++ cause.message
  | .walk cause => "Walk error: ".toList ++ cause.message
  | .config reason => "Invalid configuration: ".toList ++ reason

end CheckError

end LineLimit
