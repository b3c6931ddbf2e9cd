import LineLimit.Text.Basic

/-!
# What to check, and how

A `CheckConfig` is complete: a pattern, a limit, how to walk, and whether the
first failure ends the check. A `ConfigDraft` may still lack the two settings
that have no default; `ConfigDraft.build` names the first one missing.
-/

namespace LineLimit

/-- How the files are looked for. -/
structure WalkOptions where
  /-- Wildcards match names that start with a dot. -/
  hidden : Bool := false
  /-- Links to directories are walked. -/
  followLinks : Bool := false
  /-- Letters match in either case. -/
  ignoreCase : Bool := false
  deriving DecidableEq, Repr

/-- A complete description of a check. -/
structure CheckConfig where
  /-- Which files to check. -/
  pattern : Text
  /-- The longest line accepted, in bytes. -/
  maxLen : Nat
  walk : WalkOptions
  /-- The first failure ends the check. -/
  strict : Bool
  deriving DecidableEq, Repr

/-- A description under way. -/
structure ConfigDraft where
  pattern : Option Text := none
  maxLen : Option Nat := none
  walk : WalkOptions := {}
  strict : Bool := false
  deriving DecidableEq, Repr

/-- Why a draft is not complete. -/
inductive ConfigError where
  | noPattern
  | noMaxLen
  deriving DecidableEq, Repr

/-- What the user is told of an incomplete draft. -/
def ConfigError.message : ConfigError → Text
  | .noPattern => "`pattern` must be initialized".toList
  | .noMaxLen => "`max_len` must be initialized".toList

/-- The description that a draft has reached, or what it lacks first. -/
def ConfigDraft.build (d : ConfigDraft) : Except ConfigError CheckConfig :=
  match d.pattern, d.maxLen with
  | none, _ => .error .noPattern
  | some _, none => .error .noMaxLen
  | some pattern, some maxLen => .ok ⟨pattern, maxLen, d.walk, d.strict⟩

end LineLimit
