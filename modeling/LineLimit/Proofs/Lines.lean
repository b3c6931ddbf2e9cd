import LineLimit.Text.Lines

/-!
# Lines and long lines

Where a newline ends each of several lines, the content is read back as these lines, with an
empty one after the last newline (`segments_flatMap`).

Which lines `longLines` lists, said of the lines themselves: the `i`-th line,
counted from 1, is listed if it has more bytes than allowed, and with its
length. They are listed in increasing order of their numbers.
-/

namespace LineLimit

/-- Lines that hold no newline are read back where a newline ends each of them. -/
theorem segments_flatMap {α : Type} {line : α → Bytes} (h : ∀ a, newline ∉ line a)
    (as : List α) :
    segments (as.flatMap fun a => line a ++ [newline]) = as.map line ++ [[]] := by
  induction as with
  | nil => rfl
  | cons a as ih =>
    rw [List.flatMap_cons, List.append_assoc, List.singleton_append, segments_append,
      segments_of_not_mem (h a), ih]
    rfl

theorem mem_longLines {content : Bytes} {maxLen line length : Nat} :
    (line, length) ∈ longLines content maxLen ↔
      1 ≤ line ∧ (∃ s, (segments content)[line - 1]? = some s ∧ s.length = length) ∧
        maxLen < length := by
  have hline : (length, line) ∈ (lineLengths content).zipIdx 1 ↔
      1 ≤ line ∧ ∃ s, (segments content)[line - 1]? = some s ∧ s.length = length := by
    rw [List.mem_zipIdx_iff_le_and_getElem?_sub, lineLengths, List.getElem?_map,
      Option.map_eq_some_iff]
  unfold longLines
  rw [List.mem_filterMap]
  constructor
  · intro hexists
    obtain ⟨⟨length', line'⟩, hmem, hsome⟩ := hexists
    by_cases hlong : maxLen < length'
    · simp only [if_pos hlong, Option.some.injEq, Prod.mk.injEq] at hsome
      obtain ⟨rfl, rfl⟩ := hsome
      exact ⟨(hline.mp hmem).1, (hline.mp hmem).2, hlong⟩
    · simp only [if_neg hlong] at hsome
      exact absurd hsome (by simp)
  · intro hline'
    obtain ⟨hpos, hs, hlong⟩ := hline'
    exact ⟨(length, line), hline.mpr ⟨hpos, hs⟩, by simp only [if_pos hlong]⟩

/-- There is one long line for each line that is too long. -/
theorem length_longLines (content : Bytes) (maxLen : Nat) :
    (longLines content maxLen).length =
      (segments content).countP fun line => maxLen < line.length := by
  have hnumbered : ∀ (lengths : List Nat) (first : Nat),
      ((lengths.zipIdx first).filterMap fun numbered =>
        if maxLen < numbered.1 then some (numbered.2, numbered.1) else none).length =
          lengths.countP fun length => maxLen < length := by
    intro lengths
    induction lengths with
    | nil => intro first; rfl
    | cons length lengths ih =>
      intro first
      rw [List.zipIdx_cons, List.filterMap_cons, List.countP_cons]
      by_cases hlong : maxLen < length
      · simp [hlong, ih]
      · simp [hlong, ih]
  refine (hnumbered (lineLengths content) 1).trans ?_
  rw [lineLengths, List.countP_map]
  rfl

theorem longLines_increasing (content : Bytes) (maxLen : Nat) :
    (longLines content maxLen).Pairwise fun a b => a.1 < b.1 := by
  have hnumbers : ((lineLengths content).zipIdx 1).Pairwise fun a b => a.2 < b.2 := by
    rw [← List.pairwise_map, List.zipIdx_map_snd]
    exact List.pairwise_lt_range'
  unfold longLines
  refine hnumbers.filterMap _ fun a b hlt x hx y hy => ?_
  simp only [Option.ite_none_right_eq_some, Option.some.injEq] at hx hy
  obtain ⟨-, rfl⟩ := hx
  obtain ⟨-, rfl⟩ := hy
  exact hlt

end LineLimit
