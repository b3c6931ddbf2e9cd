import LineLimit.Proofs.Json.Spelling
import LineLimit.Proofs.Lines
import LineLimit.Report
import LineLimit.Text.Utf8.Lemmas

/-!
# Reading a report back

A report in one of the two JSON formats is written for other programs to read, so what counts
is what a reader makes of its bytes. It makes of them the violations, as objects of three
members (`Violation.document`):

> `decode_render`: in the one format the report is a document and a new line, and the document
> is the list of these objects; in the other it has one new line for each violation, and the
> lines that they end are the same objects in the same order.

Paths may hold any bytes. They are shown lossily, and from there on nothing is lost: a quote,
a backslash or a new line in a path is escaped, so that it neither ends the text it is in nor
the line.
-/

namespace LineLimit

/-- The violation as a JSON value. -/
def Violation.document (v : Violation) : Json.Value :=
  .object
    [("path".toList, .atom (.text (lossy v.path))),
     ("line".toList, .atom (.number (.ofNat v.line))),
     ("length".toList, .atom (.number (.ofNat v.length)))]

theorem Violation.value_record (v : Violation) : Json.Record.value v.record = v.document := rfl

/-- The bytes of a text are decoded as the text. -/
theorem Json.decodeBytes_utf8 (t : Text) : decodeBytes (utf8 t) = decode t := by
  rw [decodeBytes, readUtf8?_utf8, Option.bind_some]

namespace Report

/-- A violation as a line of the JSON Lines format, without the newline that ends it. -/
def jsonLine (v : Violation) : Bytes := utf8 (Json.compact v.record)

/-- The record of a violation takes one line. -/
theorem newline_not_mem_jsonLine (v : Violation) : newline ∉ jsonLine v := fun h =>
  Json.newline_not_mem_compact v.record ((mem_utf8_ascii (by decide)).mp h)

/-- The record of a violation is decoded as its path, line and length. -/
theorem decodeBytes_jsonLine (v : Violation) :
    Json.decodeBytes (jsonLine v) = some v.document := by
  rw [jsonLine, Json.decodeBytes_utf8, Json.decode_compact, Violation.value_record]

/-- The report is the list of the records, and a newline. -/
theorem utf8_render_json (vs : List Violation) :
    utf8 (render .json vs) = utf8 (Json.indented (vs.map Violation.record)) ++ [newline] := by
  simp only [render, pieces, List.flatMap_cons, List.flatMap_nil, ReportPiece.chars,
    List.append_nil, utf8_append]
  rfl

/-- Every line of the report is a violation, and a newline ends each of them. -/
theorem segments_render_jsonLines (vs : List Violation) :
    segments (utf8 (render .jsonLines vs)) = vs.map jsonLine ++ [[]] := by
  have hlines : utf8 (render .jsonLines vs) = vs.flatMap fun v => jsonLine v ++ [newline] := by
    unfold render pieces utf8
    rw [List.flatMap_assoc, List.flatMap_assoc]
    simp only [List.flatMap_cons, List.flatMap_nil, List.append_nil]
    rfl
  rw [hlines]
  exact segments_flatMap newline_not_mem_jsonLine vs

/-- Both JSON formats give back the violations to a reader, all of them and in their order. -/
theorem decode_render (vs : List Violation) :
    (∃ document, utf8 (render .json vs) = document ++ [newline] ∧
      Json.decodeBytes document = some (.list (vs.map Violation.document))) ∧
    (utf8 (render .jsonLines vs)).count newline = vs.length ∧
    ∃ lines, segments (utf8 (render .jsonLines vs)) = lines ++ [[]] ∧
      lines.mapM Json.decodeBytes = some (vs.map Violation.document) := by
  refine ⟨⟨_, utf8_render_json vs, ?_⟩, ?_, _, segments_render_jsonLines vs, ?_⟩
  · rw [Json.decodeBytes_utf8, Json.decode_indented, List.map_map]
    rfl
  · have hlength := length_segments (utf8 (render .jsonLines vs))
    rw [segments_render_jsonLines, List.length_append, List.length_map] at hlength
    exact (Nat.add_right_cancel hlength).symm
  · induction vs with
    | nil => rfl
    | cons v vs ih => simp [List.mapM_cons, decodeBytes_jsonLine, ih]

end Report

end LineLimit
