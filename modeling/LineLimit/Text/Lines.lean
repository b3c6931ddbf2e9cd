import LineLimit.Text.Basic

/-!
# Lines and their lengths

The lines of a content are the runs of bytes between its newlines, so there is
always one more line than there are newlines, and the last line may be empty.
A length counts bytes, never characters, and a carriage return is a byte like
any other.

`lineLengths` lists the lengths at once; `Cursor` yields them one call at a
time and answers `none` to every call after the last.
-/

namespace LineLimit

/-- The lines of a content: what stands between its newlines. -/
def segments (content : Bytes) : List Bytes := content.splitOn newline

/-- A newline ends one line and starts another. -/
theorem segments_append (a b : Bytes) :
    segments (a ++ newline :: b) = segments a ++ segments b :=
  List.splitOnP_append_cons a b (beq_self_eq_true newline)

theorem segments_of_not_mem {a : Bytes} (h : newline ∉ a) : segments a = [a] := by
  have hsplit : List.splitOn newline ([newline].intercalate [a]) = [a] :=
    List.splitOn_intercalate newline (by simpa using h) (by simp)
  simpa [segments] using hsplit

/-- There is always one more line than there are newlines. -/
theorem length_segments (content : Bytes) :
    (segments content).length = content.count newline + 1 :=
  length_splitOn newline content

/-- The number of bytes in each line. -/
def lineLengths (content : Bytes) : List Nat := (segments content).map List.length

/-- The line number, from 1, and the length of every line with more than
`maxLen` bytes. -/
def longLines (content : Bytes) (maxLen : Nat) : List (Nat × Nat) :=
  ((lineLengths content).zipIdx 1).filterMap fun (length, line) =>
    if maxLen < length then some (line, length) else none

/-- The first newline splits a content in two. -/
theorem split_at_idxOf? {content : Bytes} {i : Nat} (h : content.idxOf? newline = some i) :
    i < content.length ∧ newline ∉ content.take i ∧
      content = content.take i ++ newline :: content.drop (i + 1) := by
  induction content generalizing i with
  | nil => simp at h
  | cons b content ih =>
    rw [List.idxOf?_cons] at h
    split at h
    · next hb =>
      obtain rfl := Option.some.inj h
      have hb : b = newline := by simpa using hb
      subst hb
      exact ⟨Nat.succ_pos _, List.not_mem_nil, rfl⟩
    · next hb =>
      obtain ⟨j, hj, rfl⟩ := Option.map_eq_some_iff.mp h
      obtain ⟨hlt, hmem, heq⟩ := ih hj
      have hb : newline ≠ b := fun e => hb (by simp [e])
      refine ⟨Nat.succ_lt_succ hlt, ?_, ?_⟩
      · rw [List.take_succ_cons]
        exact fun hm => (List.mem_cons.mp hm).elim hb hmem
      · rw [List.take_succ_cons, List.drop_succ_cons, List.cons_append, ← heq]

/-- The first line is as long as what comes before the first newline. -/
theorem lineLengths_of_idxOf? {content : Bytes} {i : Nat}
    (h : content.idxOf? newline = some i) :
    lineLengths content = i :: lineLengths (content.drop (i + 1)) := by
  obtain ⟨hlt, hmem, heq⟩ := split_at_idxOf? h
  conv => lhs; rw [heq]
  rw [lineLengths, segments_append, segments_of_not_mem hmem, List.map_append, lineLengths]
  simp only [List.map_cons, List.map_nil, List.length_take, List.singleton_append]
  rw [Nat.min_eq_left (Nat.le_of_lt hlt)]

theorem lineLengths_of_idxOf?_eq_none {content : Bytes}
    (h : content.idxOf? newline = none) : lineLengths content = [content.length] := by
  have hmem : newline ∉ content := by simpa using h
  simp [lineLengths, segments_of_not_mem hmem]

/-- The positions of the newlines in a stretch of a content that starts at `start`, the first
newline first. -/
def newlinesFrom (start : Nat) (stretch : Bytes) : List Nat :=
  (stretch.zipIdx start).filterMap fun (b, i) => if b = newline then some i else none

/-- A reading position in a content. The newlines are looked for by themselves, so that what has
been found of them and where the next line starts are two things. -/
structure Cursor where
  /-- The positions of the newlines that have not been met yet. -/
  newlines : List Nat
  /-- The number of bytes of the content. -/
  length : Nat
  /-- Where the next line starts. -/
  start : Nat
  /-- The last line has been yielded. -/
  finished : Bool

namespace Cursor

/-- The position before the first line. -/
def ofContent (content : Bytes) : Cursor := ⟨newlinesFrom 0 content, content.length, 0, false⟩

/-- The length of the next line, with the position after it. -/
def next (c : Cursor) : Option Nat × Cursor :=
  if c.finished then (none, c)
  else match c.newlines with
    | stop :: newlines => (some (stop - c.start), { c with newlines, start := stop + 1 })
    | [] => (some (c.length - c.start), { c with finished := true })

/-- The answers to `n` calls of `next`. -/
def poll : Nat → Cursor → List (Option Nat)
  | 0, _ => []
  | n + 1, c => c.next.1 :: poll n c.next.2

/-- The position after `n` calls of `next`. -/
def after : Nat → Cursor → Cursor
  | 0, c => c
  | n + 1, c => after n c.next.2

/-- How many lines there are still to yield. -/
def left (c : Cursor) : Nat := if c.finished then 0 else c.newlines.length + 1

/-- A line that is given leaves one less. -/
theorem left_next {c c' : Cursor} {n : Nat} (h : c.next = (some n, c')) : c'.left < c.left := by
  obtain ⟨newlines, length, start, finished⟩ := c
  cases finished with
  | true => exact nomatch h
  | false =>
    cases newlines with
    | nil =>
      obtain ⟨-, rfl⟩ := Prod.mk.inj h
      exact Nat.zero_lt_one
    | cons stop newlines =>
      obtain ⟨-, rfl⟩ := Prod.mk.inj h
      exact Nat.lt_succ_self _

/-- All that `next` answers before it answers `none`. -/
def toList (c : Cursor) : List Nat :=
  match _h : c.next with
  | (none, _) => []
  | (some n, c') => n :: c'.toList
termination_by c.left
decreasing_by exact left_next _h

end Cursor

end LineLimit
