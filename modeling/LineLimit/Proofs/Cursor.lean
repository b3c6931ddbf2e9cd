import LineLimit.Text.Lines
import Mathlib.Algebra.GroupWithZero.Nat

/-!
# A content read line by line

A cursor keeps two things apart: the newlines that it has not met yet, and where the next line
starts. It is `Reading` a content as long as these fit together, and then a call yields the
first of the lines that are left (`Reading.next`). So the calls yield the lengths of all lines in
their order, and nothing after that:

> `poll_lines`: the `i`-th answer is the length of the `i`-th line if there is one, and `none`
> otherwise; no length is taken from a smaller one on the way.
-/

namespace LineLimit

/-! ## The positions of newlines -/

theorem newlinesFrom_of_not_mem {stretch : Bytes} (h : newline ∉ stretch) (start : Nat) :
    newlinesFrom start stretch = [] := by
  refine List.filterMap_eq_nil_iff.mpr fun ⟨b, i⟩ hmem => ?_
  have hb : b ∈ stretch :=
    List.mem_of_getElem? (List.mem_zipIdx_iff_le_and_getElem?_sub.mp hmem).2
  exact if_neg fun heq : b = newline => h (heq ▸ hb)

/-- The newlines of a second stretch are counted from the end of the first. -/
theorem newlinesFrom_append (start : Nat) (a b : Bytes) :
    newlinesFrom start (a ++ b) = newlinesFrom start a ++ newlinesFrom (start + a.length) b := by
  unfold newlinesFrom
  rw [List.zipIdx_append, List.filterMap_append]

/-- The newline that ends a line comes before those of the lines after it. -/
theorem newlinesFrom_of_idxOf? {stretch : Bytes} {i : Nat} (h : stretch.idxOf? newline = some i)
    (start : Nat) :
    newlinesFrom start stretch =
      (start + i) :: newlinesFrom (start + i + 1) (stretch.drop (i + 1)) := by
  obtain ⟨hlt, hmem, heq⟩ := split_at_idxOf? h
  have hlength : (stretch.take i).length = i := List.length_take_of_le (Nat.le_of_lt hlt)
  conv => lhs; rw [heq]
  rw [newlinesFrom_append, newlinesFrom_of_not_mem hmem, hlength]
  rfl

namespace Cursor

variable {content : Bytes} {c : Cursor}

/-- What a cursor knows fits a content: the newlines that it has not met yet are those from the
start of the next line on. -/
structure Reading (content : Bytes) (c : Cursor) : Prop where
  length_eq : c.length = content.length
  start_le : c.start ≤ content.length
  newlines_eq : c.newlines = newlinesFrom c.start (content.drop c.start)

/-- The lengths of the lines that have not been yielded yet. -/
def rest (content : Bytes) (c : Cursor) : List Nat :=
  if c.finished then [] else lineLengths (content.drop c.start)

/-- A cursor starts at the start of its content. -/
theorem reading_ofContent (content : Bytes) : Reading content (ofContent content) :=
  ⟨rfl, Nat.zero_le _, rfl⟩

/-- A call yields the first of the lines that are left, and leaves the others. -/
theorem Reading.next (h : Reading content c) :
    Reading content c.next.2 ∧ c.next.1 = (rest content c).head? ∧
      rest content c.next.2 = (rest content c).tail := by
  obtain ⟨newlines, length, start, finished⟩ := c
  have hstart : start ≤ content.length := h.start_le
  obtain rfl : length = content.length := h.length_eq
  obtain rfl : newlines = newlinesFrom start (content.drop start) := h.newlines_eq
  cases finished with
  | true => exact ⟨⟨rfl, hstart, rfl⟩, rfl, rfl⟩
  | false =>
    cases hfirst : (content.drop start).idxOf? newline with
    | none =>
      have hmem : newline ∉ content.drop start := by simpa using hfirst
      simp only [Cursor.next, newlinesFrom_of_not_mem hmem, rest,
        lineLengths_of_idxOf?_eq_none hfirst, List.length_drop]
      exact ⟨⟨rfl, hstart, (newlinesFrom_of_not_mem hmem _).symm⟩, rfl, rfl⟩
    | some i =>
      have hlt := (split_at_idxOf? hfirst).1
      rw [List.length_drop] at hlt
      simp only [Cursor.next, newlinesFrom_of_idxOf? hfirst, rest,
        lineLengths_of_idxOf? hfirst, List.drop_drop]
      refine ⟨⟨rfl, ?_, ?_⟩, ?_, ?_⟩
      · show start + i + 1 ≤ content.length
        omega
      · rfl
      · simp
      · simp [Nat.add_assoc]

/-- No length is taken from a smaller one: neither a newline to come nor the end of the content
lies before the start of the next line. -/
def Ordered (c : Cursor) : Prop := (∀ stop ∈ c.newlines, c.start ≤ stop) ∧ c.start ≤ c.length

/-- A cursor that reads a content has all newlines ahead of it. -/
theorem Reading.ordered (h : Reading content c) : c.Ordered := by
  constructor
  · intro stop hstop
    rw [h.newlines_eq] at hstop
    obtain ⟨⟨b, i⟩, hmem, hsome⟩ := List.mem_filterMap.mp hstop
    obtain ⟨-, rfl⟩ : b = newline ∧ i = stop := by simpa using hsome
    exact (List.mem_zipIdx_iff_le_and_getElem?_sub.mp hmem).1
  · rw [h.length_eq]
    exact h.start_le

/-! ## Many calls -/

/-- After `n` calls the first `n` of the lines that were left have been yielded. -/
theorem Reading.after (h : Reading content c) (n : Nat) :
    Reading content (c.after n) ∧ rest content (c.after n) = (rest content c).drop n := by
  induction n generalizing c with
  | zero => exact ⟨h, rfl⟩
  | succ n ih =>
    obtain ⟨hnext, -, hrest⟩ := h.next
    obtain ⟨hafter, hdrop⟩ := ih hnext
    refine ⟨hafter, hdrop.trans ?_⟩
    rw [hrest, List.drop_tail]

theorem Reading.poll (h : Reading content c) (n : Nat) :
    poll n c = (List.range n).map fun i => (rest content c)[i]? := by
  induction n generalizing c with
  | zero => rfl
  | succ n ih =>
    obtain ⟨hnext, hhead, hrest⟩ := h.next
    rw [Cursor.poll, ih hnext, List.range_succ_eq_map, List.map_cons, List.map_map, hhead, hrest,
      List.head?_eq_getElem?]
    congr 1
    exact List.map_congr_left fun i _ => List.getElem?_tail

/-- Up to the first `none`, the calls yield the lines that are left. -/
theorem Reading.toList (h : Reading content c) : c.toList = rest content c := by
  induction c using Cursor.toList.induct with
  | case1 c c' hcall =>
    obtain ⟨-, hhead, -⟩ := h.next
    rw [hcall] at hhead
    rw [Cursor.toList, hcall]
    exact (List.head?_eq_none_iff.mp hhead.symm).symm
  | case2 c n c' hcall ih =>
    obtain ⟨hnext, hhead, hrest⟩ := h.next
    rw [hcall] at hnext hhead hrest
    obtain ⟨lines, hlines⟩ := List.head?_eq_some_iff.mp hhead.symm
    rw [Cursor.toList, hcall]
    show n :: c'.toList = _
    rw [ih hnext, hrest, hlines]
    rfl

/-! ## The lines of a content -/

/-- Between each two of the pieces that are joined stands one separator. -/
theorem length_intercalate {α : Type} (sep : α) {pieces : List (List α)} (hne : pieces ≠ []) :
    ([sep].intercalate pieces).length + 1 = (pieces.map List.length).sum + pieces.length := by
  induction pieces with
  | nil => exact absurd rfl hne
  | cons piece pieces ih =>
    cases pieces with
    | nil => simp
    | cons next pieces =>
      have hmore := ih (List.cons_ne_nil _ _)
      have hlength : (piece :: next :: pieces).length = (next :: pieces).length + 1 :=
        List.length_cons
      rw [List.intercalate_cons_cons, List.length_append, List.length_append, List.map_cons,
        List.sum_cons, List.length_singleton, hlength]
      omega

/-- Lines and the newlines between them take up the whole content. -/
theorem sum_lineLengths (content : Bytes) :
    (lineLengths content).sum + content.count newline = content.length := by
  have hcontent : [newline].intercalate (segments content) = content :=
    List.intercalate_splitOn newline
  have hsegments : ([newline].intercalate (segments content)).length + 1 =
      (lineLengths content).sum + (segments content).length :=
    length_intercalate newline (List.splitOn_ne_nil newline content)
  rw [hcontent, length_segments] at hsegments
  omega

/-- However often a cursor is called, its answers are the lengths of the lines of the content, of
which there is one more than there are newlines, and then `none`, and no length is taken from a
smaller one. The lengths and the newlines take up the whole content, and a newline parts the
lengths of what is before it from those of what is after it. -/
theorem poll_lines (content : Bytes) :
    (∀ n, poll n (ofContent content) =
      (List.range n).map fun i => (segments content)[i]?.map List.length) ∧
    (segments content).length = content.count newline + 1 ∧
    (∀ n, ((ofContent content).after n).Ordered) ∧
    (ofContent content).toList.sum + content.count newline = content.length ∧
    ∀ more, (ofContent (content ++ newline :: more)).toList =
      (ofContent content).toList ++ (ofContent more).toList := by
  have htoList : ∀ content, (ofContent content).toList = lineLengths content := fun content =>
    (reading_ofContent content).toList
  refine ⟨fun n => ?_, length_segments content, fun n => ?_, ?_, fun more => ?_⟩
  · rw [(reading_ofContent content).poll]
    refine List.map_congr_left fun i _ => ?_
    show (lineLengths content)[i]? = _
    rw [lineLengths, List.getElem?_map]
  · exact ((reading_ofContent content).after n).1.ordered
  · rw [htoList, sum_lineLengths]
  · rw [htoList, htoList, htoList, lineLengths, segments_append, List.map_append]
    rfl

end Cursor

end LineLimit
