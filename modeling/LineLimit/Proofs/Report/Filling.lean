import LineLimit.Proofs.Report.Decoding
import LineLimit.Session

/-!
# A sink that fills up

A report goes out in many small writes: a delimiter, the blanks before a member, one stretch of a
text between two escapes, a number. Where a sink fills up is therefore not known from the pieces of
the report alone, and two errors compete for the failure. What decides is the byte of the report
that is the first one not stored. Each byte has its failure (`failures`), and then

> `failure_write`: a sink with room for `room` bytes fails with the failure of byte `room`, which
> is none if the report has no such byte.

Cutting pieces into smaller writes moves no byte into another piece, so it changes nothing
(`Delivers.write_eq`). For each format it is known which failure each byte has: all of them the
same in the plain one, all but the last newline in a list, all but the newlines in lines.
-/

namespace LineLimit.Report

/-- The bytes of pieces. -/
def bytes (ps : List ReportPiece) : Bytes := ps.flatMap fun p => utf8 p.chars

/-- For each byte of the pieces, the failure of a sink that is full just before it. -/
def failures (ps : List ReportPiece) : List WriteFailure :=
  ps.flatMap fun p => List.replicate (utf8 p.chars).length (WriteFailure.ofPiece p)

theorem bytes_cons (p : ReportPiece) (ps : List ReportPiece) :
    bytes (p :: ps) = utf8 p.chars ++ bytes ps := rfl

theorem failures_cons (p : ReportPiece) (ps : List ReportPiece) :
    failures (p :: ps) =
      List.replicate (utf8 p.chars).length (WriteFailure.ofPiece p) ++ failures ps := rfl

/-- The pieces of a report are the report, byte by byte. -/
theorem bytes_pieces (format : ReportFormat) (vs : List Violation) :
    bytes (pieces format vs) = utf8 (render format vs) := by
  unfold bytes render utf8
  rw [List.flatMap_assoc]

/-- Each byte has its own failure. -/
theorem length_failures (ps : List ReportPiece) : (failures ps).length = (bytes ps).length := by
  induction ps with
  | nil => rfl
  | cons p ps ih => rw [failures_cons, bytes_cons, List.length_append, List.length_append, ih,
      List.length_replicate]

/-- The first byte that is not stored tells how a write fails, and that it does. -/
theorem failure_write (room : Nat) (ps : List ReportPiece) :
    (write room ps).2 = (failures ps)[room]? := by
  induction ps generalizing room with
  | nil => rfl
  | cons p ps ih =>
    rw [failures_cons, write]
    dsimp only
    split
    · next hfits =>
      rw [List.getElem?_append_right (by rwa [List.length_replicate]), List.length_replicate]
      exact ih _
    · next hfull =>
      rw [List.getElem?_append_left (by rw [List.length_replicate]; omega),
        List.getElem?_replicate, if_pos (by omega)]

/-! ## Small writes -/

/-- Writes that deliver pieces: each piece is cut into some of them, and they are of its kind. -/
inductive Delivers : List ReportPiece → List ReportPiece → Prop where
  | nil : Delivers [] []
  | piece {p : ReportPiece} {cut writes ps : List ReportPiece}
      (kind : ∀ w ∈ cut, WriteFailure.ofPiece w = WriteFailure.ofPiece p)
      (chars : cut.flatMap ReportPiece.chars = p.chars) (rest : Delivers writes ps) :
      Delivers (cut ++ writes) (p :: ps)

theorem bytes_append (ps qs : List ReportPiece) : bytes (ps ++ qs) = bytes ps ++ bytes qs :=
  List.flatMap_append

theorem failures_append (ps qs : List ReportPiece) :
    failures (ps ++ qs) = failures ps ++ failures qs := List.flatMap_append

/-- Pieces of one kind have one failure throughout. -/
theorem failures_of_kind {k : WriteFailure} {ps : List ReportPiece}
    (h : ∀ p ∈ ps, WriteFailure.ofPiece p = k) :
    failures ps = List.replicate (bytes ps).length k := by
  refine List.eq_replicate_iff.mpr ⟨length_failures ps, fun failure hfailure => ?_⟩
  obtain ⟨p, hp, hmem⟩ := List.mem_flatMap.mp hfailure
  rw [List.eq_of_mem_replicate hmem, h p hp]

/-- Small writes deliver the bytes of the pieces. -/
theorem Delivers.bytes_eq {writes ps : List ReportPiece} (h : Delivers writes ps) :
    bytes writes = bytes ps := by
  induction h with
  | nil => rfl
  | @piece p cut _ _ _ chars _ ih =>
    rw [bytes_append, bytes_cons, ih, ← chars]
    unfold bytes utf8
    rw [List.flatMap_assoc]

/-- Small writes fail at each byte as the pieces do. -/
theorem Delivers.failures_eq {writes ps : List ReportPiece} (h : Delivers writes ps) :
    failures writes = failures ps := by
  induction h with
  | nil => rfl
  | @piece p cut _ _ kind chars _ ih =>
    have hcut : bytes cut = utf8 p.chars := by
      unfold bytes utf8
      rw [← List.flatMap_assoc, chars]
    rw [failures_append, failures_cons, ih, failures_of_kind kind, hcut]

/-- It does not matter into which writes pieces are cut. -/
theorem Delivers.write_eq {writes ps : List ReportPiece} (h : Delivers writes ps) (room : Nat) :
    write room writes = write room ps := by
  refine Prod.ext ?_ ?_
  · rw [stored_write, stored_write]
    exact congrArg (List.take room) h.bytes_eq
  · rw [failure_write, failure_write, h.failures_eq]

/-! ## The failure of a byte -/

/-- The failure of a byte is that of the piece it lies in. -/
theorem getElem?_failures {ps : List ReportPiece} {room : Nat} {k : WriteFailure} :
    (failures ps)[room]? = some k ↔
      ∃ before p after, ps = before ++ p :: after ∧ WriteFailure.ofPiece p = k ∧
        (bytes before).length ≤ room ∧
        room < (bytes before).length + (utf8 p.chars).length := by
  constructor
  · induction ps generalizing room with
    | nil => simp [failures]
    | cons p ps ih =>
      intro h
      rw [failures_cons] at h
      by_cases hin : room < (utf8 p.chars).length
      · rw [List.getElem?_append_left (by rwa [List.length_replicate]),
          List.getElem?_replicate, if_pos hin] at h
        exact ⟨[], p, ps, rfl, Option.some.inj h, Nat.zero_le _, by simpa [bytes] using hin⟩
      · rw [List.getElem?_append_right (by rw [List.length_replicate]; omega),
          List.length_replicate] at h
        obtain ⟨before, q, after, rfl, hk, hle, hlt⟩ := ih h
        refine ⟨p :: before, q, after, rfl, hk, ?_⟩
        rw [bytes_cons, List.length_append]
        omega
  · rintro ⟨before, p, after, rfl, rfl, hle, hlt⟩
    rw [failures_append, failures_cons,
      List.getElem?_append_right (by rwa [length_failures]), length_failures,
      List.getElem?_append_left (by rw [List.length_replicate]; omega),
      List.getElem?_replicate, if_pos (by omega)]

/-- In the plain format no byte is in a JSON value. -/
theorem failures_text (vs : List Violation) :
    failures (pieces .text vs) = List.replicate (utf8 (render .text vs)).length .plain := by
  rw [← bytes_pieces]
  refine failures_of_kind fun p hp => ?_
  obtain ⟨v, -, rfl⟩ := List.mem_map.mp hp
  rfl

/-- In a list the newline after it is the only byte outside a JSON value. -/
theorem failures_json (vs : List Violation) :
    failures (pieces .json vs) =
      List.replicate ((utf8 (render .json vs)).length - 1) .value ++ [.plain] := by
  rw [utf8_render_json, List.length_append]
  rfl

/-- In lines the newlines are the bytes outside JSON values. -/
theorem failures_jsonLines (vs : List Violation) :
    failures (pieces .jsonLines vs) =
      (utf8 (render .jsonLines vs)).map fun b => if b = newline then .plain else .value := by
  rw [← bytes_pieces]
  induction vs with
  | nil => rfl
  | cons v vs ih =>
    have hline : (utf8 (Json.compact v.record)).map
          (fun b => if b = newline then WriteFailure.plain else .value) =
        List.replicate (utf8 (Json.compact v.record)).length .value :=
      List.map_eq_replicate_iff.mpr fun b hb =>
        if_neg (ne_of_mem_of_not_mem hb (newline_not_mem_jsonLine v))
    change failures (.value _ :: .plain _ :: pieces .jsonLines vs) =
      (bytes (.value _ :: .plain _ :: pieces .jsonLines vs)).map _
    rw [failures_cons, failures_cons, ih, bytes_cons, bytes_cons, List.map_append,
      List.map_append]
    exact congrArg₂ _ hline.symm rfl

/-- Byte `i` of a report in a format is one of those outside JSON values. -/
def Outside (format : ReportFormat) (report : Bytes) (i : Nat) : Prop :=
  match format with
  | .text => i < report.length
  | .json => i + 1 = report.length
  | .jsonLines => report[i]? = some newline

/-- The failure of a byte is plain if and only if the byte is outside all values. -/
theorem getElem?_failures_plain (format : ReportFormat) (vs : List Violation) (room : Nat) :
    (failures (pieces format vs))[room]? = some .plain ↔
      Outside format (utf8 (render format vs)) room := by
  unfold Outside
  cases format with
  | text => simp [failures_text, List.getElem?_replicate]
  | json =>
    have hpos : 0 < (utf8 (render .json vs)).length := by simp [utf8_render_json]
    rw [failures_json, List.getElem?_append, List.length_replicate]
    split
    · next h =>
      simp only [List.getElem?_replicate, h, ↓reduceIte, Option.some.injEq, reduceCtorEq,
        false_iff]
      omega
    · next h =>
      rw [List.getElem?_singleton]
      split <;> simp <;> omega
  | jsonLines =>
    rw [failures_jsonLines, List.getElem?_map, Option.map_eq_some_iff]
    constructor
    · rintro ⟨b, hb, hfailure⟩
      have hnewline : b = newline := by
        by_contra hb'
        rw [if_neg hb'] at hfailure
        cases hfailure
      rw [hb, hnewline]
    · exact fun h => ⟨newline, h, rfl⟩

/-- A report is written into a sink with room for `room` bytes, by whatever writes deliver its
pieces. The sink has then the beginning of the report that there is room for, and the writing has
failed if and only if that is not all of it. It is an encoding failure if the first byte that is
not stored lies in a JSON value, and a writing failure otherwise. -/
theorem write_delivered (format : ReportFormat) (vs : List Violation) (room : Nat)
    (writes : List ReportPiece) (h : Delivers writes (pieces format vs)) :
    (write room writes).1 =
      (utf8 (render format vs)).take (min room (utf8 (render format vs)).length) ∧
    ((write room writes).2.isSome ↔ room < (utf8 (render format vs)).length) ∧
    ((write room writes).2.map Failure.ofWrite = some (.encoding sinkFull) ↔
      ∃ before value after, pieces format vs = before ++ .value value :: after ∧
        (bytes before).length ≤ room ∧
        room < (bytes before).length + (utf8 value).length) ∧
    ((write room writes).2.map Failure.ofWrite = some (.writing sinkFull) ↔
      Outside format (utf8 (render format vs)) room) := by
  have hencoding (o : Option WriteFailure) :
      o.map Failure.ofWrite = some (.encoding sinkFull) ↔ o = some .value := by
    rcases o with _ | _ | _ <;> simp [Failure.ofWrite]
  have hwriting (o : Option WriteFailure) :
      o.map Failure.ofWrite = some (.writing sinkFull) ↔ o = some .plain := by
    rcases o with _ | _ | _ <;> simp [Failure.ofWrite]
  rw [h.write_eq, hencoding, hwriting, ← bytes_pieces]
  refine ⟨?_, write_fails_iff room _, ?_, ?_⟩
  · rw [List.take_eq_take_min.symm]
    exact stored_write room _
  · rw [failure_write, getElem?_failures]
    constructor
    · rintro ⟨before, p, after, hps, hk, hle, hlt⟩
      cases p with
      | value t => exact ⟨before, t, after, hps, hle, hlt⟩
      | plain t => cases hk
    · rintro ⟨before, t, after, hps, hle, hlt⟩
      exact ⟨before, .value t, after, hps, rfl, hle, hlt⟩
  · rw [failure_write, bytes_pieces]
    exact getElem?_failures_plain format vs room

/-- The sink fills up within the escape of a quote in a path. -/
theorem write_delivered_escape :
    Delivers
      [.value "\x7b\"path\":\"a".toList, .value "\\\"".toList,
        .value "b\",\"line\":1,\"length\":9\x7d".toList, .plain ['\n']]
      (pieces .jsonLines [⟨utf8 "a\"b".toList, 1, 9⟩]) ∧
    (write 11
      [.value "\x7b\"path\":\"a".toList, .value "\\\"".toList,
        .value "b\",\"line\":1,\"length\":9\x7d".toList, .plain ['\n']]).2.map Failure.ofWrite =
      some (.encoding sinkFull) := by
  have h : Delivers
      [.value "\x7b\"path\":\"a".toList, .value "\\\"".toList,
        .value "b\",\"line\":1,\"length\":9\x7d".toList, .plain ['\n']]
      (pieces .jsonLines [⟨utf8 "a\"b".toList, 1, 9⟩]) :=
    @Delivers.piece _ [_, _, _] _ _ (by simp [WriteFailure.ofPiece]) (by decide)
      (@Delivers.piece _ [_] _ _ (by simp [WriteFailure.ofPiece]) rfl .nil)
  exact ⟨h, (write_delivered _ _ 11 _ h).2.2.1.mpr
    ⟨[], _, _, rfl, by decide, by decide⟩⟩

end LineLimit.Report
