import LineLimit.Report

/-!
# Writing a report where there is little room

A sink takes a fixed number of bytes in all. The piece that no longer fits is
stored as far as it does, and the writer stops there. What is stored is then
always a beginning of the report, and the failure is told from the piece it
happened in: a JSON value, or the text around values.
-/

namespace LineLimit.Report

/-- Why a report could not be written to its end. -/
inductive WriteFailure where
  /-- The sink was full inside a JSON value. -/
  | value
  /-- The sink was full outside JSON values. -/
  | plain
  deriving DecidableEq, Repr

/-- The failure of a write that ends inside the piece. -/
def WriteFailure.ofPiece : ReportPiece → WriteFailure
  | .value _ => .value
  | .plain _ => .plain

/-- What the system says of a sink that takes no more bytes. -/
def sinkFull : Text := "failed to write whole buffer".toList

/-- Write pieces into a sink with `room` bytes left: the bytes stored, and the
failure if they did not all fit. -/
def write (room : Nat) : List ReportPiece → Bytes × Option WriteFailure
  | [] => ([], none)
  | p :: ps =>
    let bytes := utf8 p.chars
    if bytes.length ≤ room then
      let (stored, failure) := write (room - bytes.length) ps
      (bytes ++ stored, failure)
    else (bytes.take room, some (WriteFailure.ofPiece p))

/-- What is stored is the beginning of the report that there is room for. -/
theorem stored_write (room : Nat) (ps : List ReportPiece) :
    (write room ps).1 = (ps.flatMap fun p => utf8 p.chars).take room := by
  induction ps generalizing room with
  | nil => simp [write]
  | cons p ps ih =>
    simp only [write, List.flatMap_cons]
    split
    · next h =>
      simp only [ih]
      rw [List.take_append, List.take_of_length_le h]
    · next h =>
      rw [List.take_append_of_le_length (Nat.le_of_not_le h)]

/-- A write fails if and only if the report is longer than there is room for. -/
theorem write_fails_iff (room : Nat) (ps : List ReportPiece) :
    (write room ps).2.isSome ↔ room < (ps.flatMap fun p => utf8 p.chars).length := by
  induction ps generalizing room with
  | nil => simp [write]
  | cons p ps ih =>
    simp only [write, List.flatMap_cons, List.length_append]
    split
    · next h =>
      simp only [ih]
      omega
    · next h =>
      simp
      omega

end LineLimit.Report
