import LineLimit.Text.Lines
import LineLimit.Text.Utf8.Lemmas
import Mathlib.Tactic.SplitIfs

/-!
# Lines of bytes and lines of texts

A newline is a byte of its own in UTF-8, whatever stands around it. So bytes that are no
well-formed text are still shown with the newlines that they have:

> `count_newline_lossy`: as many newlines are in the text as in the bytes;

and the lines of a text are those of its bytes (`segments_utf8`).

The lines of a text that a newline ends are its closed lines, and what follows the last newline
is its open line. Text without a newline that is put after it goes on the open line
(`textLines_append_of_not_mem`).
-/

namespace LineLimit

namespace Utf8

/-- The character under way is none of the first sixteen, whatever bytes complete it. -/
def Reader.Apart (r : Reader) : Prop :=
  ∀ p ∈ r.pending, 0x80 ≤ p.low.toNat ∧ 16 ≤ p.code * 64 + (p.low.toNat - 0x80)

/-- No character that takes more than a byte is a newline. -/
theorem ofNat_ne_newline {n : Nat} (h : 16 ≤ n) : Char.ofNat n ≠ '\n' := by
  by_cases hn : n.isValidChar
  · intro hc
    have htoNat : (Char.ofNat n).toNat = n := by
      rw [Char.ofNat, dif_pos hn]
      rfl
    rw [hc] at htoNat
    exact absurd (htoNat ▸ h) (by decide)
  · rw [Char.ofNat, dif_neg hn]
    decide

/-- Of the characters that take one byte, only the newline has that of a newline. -/
theorem ofNat_eq_newline_iff {b : UInt8} : Char.ofNat b.toNat = '\n' ↔ b = newline := by
  constructor
  · intro h
    have hlt : b.toNat < 16 := Nat.lt_of_not_le fun hle => ofNat_ne_newline hle h
    have hall : ∀ n < 16, Char.ofNat n = '\n' → n = 10 := by decide
    exact UInt8.toNat_inj.mp (hall _ hlt h)
  · rintro rfl
    rfl

/-- Where a character starts, a newline is read as one, and nothing else is. -/
theorem count_newline_start (done : List (Option Char)) (b : UInt8) :
    (Reader.start done b).Apart ∧
      (Reader.start done b).done.count (some '\n') =
        done.count (some '\n') + [b].count newline := by
  have hnone (h80 : ¬b < 0x80) : [b].count newline = 0 := by
    refine List.count_eq_zero.mpr fun hb => h80 ?_
    rw [← List.mem_singleton.mp hb]
    decide
  unfold Reader.start
  split_ifs with h80
  · exact ⟨by simp [Reader.Apart], by simp [List.count_cons, ofNat_eq_newline_iff]⟩
  all_goals
    rw [hnone h80]
    simp [Reader.Apart]
  -- what is left are the ranges of first bytes, where the code is not the least at their start
  all_goals
    simp only [UInt8.lt_iff_toNat_lt, ← UInt8.toNat_inj, UInt8.reduceToNat] at *
    omega

/-- A step reads a newline if the byte is one, also within a character. -/
theorem count_newline_step {r : Reader} (h : r.Apart) (b : UInt8) :
    (r.step b).Apart ∧
      (r.step b).done.count (some '\n') = r.done.count (some '\n') + [b].count newline := by
  rcases r with ⟨done, _ | p⟩
  · exact count_newline_start done b
  · simp only [Reader.step]
    split
    · next hin =>
      obtain ⟨hlow, hcode⟩ := h p rfl
      have hb : p.low.toNat ≤ b.toNat := hin.1
      have hnone : [b].count newline = 0 := by
        refine List.count_eq_zero.mpr fun hmem => ?_
        rw [← List.mem_singleton.mp hmem] at hb
        exact absurd (Nat.le_trans hlow hb) (by decide)
      have hcode' : 16 ≤ p.code * 64 + (b.toNat - 0x80) := by omega
      rw [hnone]
      split_ifs
      · exact ⟨by simp [Reader.Apart], by simp [ofNat_ne_newline hcode']⟩
      · refine ⟨fun q hq => ?_, rfl⟩
        obtain rfl := Option.some.inj hq
        exact ⟨Nat.le_refl _, by simp; omega⟩
    · obtain ⟨hapart, hcount⟩ := count_newline_start (none :: done) b
      exact ⟨hapart, by simpa using hcount⟩

/-- As many newlines are read as there are newline bytes. -/
theorem count_newline_foldl {r : Reader} (h : r.Apart) (bs : Bytes) :
    (bs.foldl Reader.step r).done.count (some '\n') =
      r.done.count (some '\n') + bs.count newline := by
  induction bs generalizing r with
  | nil => rfl
  | cons b bs ih =>
    obtain ⟨hapart, hcount⟩ := count_newline_step h b
    rw [List.foldl_cons, ih hapart, hcount, Nat.add_assoc, ← List.count_append,
      List.singleton_append]

end Utf8

/-- A newline is shown where the bytes have one, be they well-formed or not. -/
theorem count_newline_lossy (bs : Bytes) : (lossy bs).count '\n' = bs.count newline := by
  have hshown (os : List (Option Char)) :
      (os.map (·.getD '\uFFFD')).count '\n' = os.count (some '\n') := by
    induction os with
    | nil => rfl
    | cons o os ih => cases o <;> simp [List.count_cons, ih]
  have hfinish (r : Utf8.Reader) : r.finish.count (some '\n') = r.done.count (some '\n') := by
    rcases r with ⟨done, _ | p⟩ <;> simp [Utf8.Reader.finish]
  rw [lossy, hshown, Utf8.decode, hfinish, Utf8.count_newline_foldl (by simp [Utf8.Reader.Apart])]
  simp

/-! ## The lines of a text -/

/-- The lines of a text: what stands between its newlines. -/
def textLines (t : Text) : List Text := t.splitOn '\n'

/-- A newline parts a text into the lines before it and those after it. -/
theorem textLines_append (t u : Text) : textLines (t ++ '\n' :: u) = textLines t ++ textLines u :=
  List.splitOnP_append_cons t u (beq_self_eq_true '\n')

/-- A text without a newline is one line. -/
theorem textLines_of_not_mem {t : Text} (h : '\n' ∉ t) : textLines t = [t] := by
  have hsplit : List.splitOn '\n' (['\n'].intercalate [t]) = [t] :=
    List.splitOn_intercalate '\n' (by simpa using h) (by simp)
  simpa [textLines] using hsplit

/-- The lines of a text that a newline ends. -/
def closedLines (t : Text) : List Text := (textLines t).dropLast

/-- What a text has after its last newline. -/
def openLine (t : Text) : Text := (textLines t).getLastD []

theorem textLines_ne_nil (t : Text) : textLines t ≠ [] := List.splitOn_ne_nil _ _

/-- The lines of a text are those closed by a newline, and the open one at the end. -/
theorem textLines_eq (t : Text) : textLines t = closedLines t ++ [openLine t] := by
  rw [openLine, List.getLastD_eq_getLast?, List.getLast?_eq_some_getLast (textLines_ne_nil t)]
  exact (List.dropLast_concat_getLast _).symm

/-- A text is without newlines, or it is a line, a newline and a text. -/
theorem lines_induction {P : Text → Prop} (line : ∀ t, '\n' ∉ t → P t)
    (lines : ∀ l t, '\n' ∉ l → P t → P (l ++ '\n' :: t)) (t : Text) : P t := by
  induction hn : t.length using Nat.strongRecOn generalizing t with
  | ind n ih =>
    by_cases h : '\n' ∈ t
    · obtain ⟨l, rest, rfl, hl⟩ := List.eq_append_cons_of_mem h
      rw [List.length_append, List.length_cons] at hn
      exact lines l rest hl (ih rest.length (by omega) rest rfl)
    · exact line t h

theorem closedLines_of_not_mem {t : Text} (h : '\n' ∉ t) : closedLines t = [] := by
  rw [closedLines, textLines_of_not_mem h]
  rfl

theorem openLine_of_not_mem {t : Text} (h : '\n' ∉ t) : openLine t = t := by
  rw [openLine, textLines_of_not_mem h]
  rfl

/-- A newline closes every line that stands before it. -/
theorem closedLines_append (t u : Text) :
    closedLines (t ++ '\n' :: u) = textLines t ++ closedLines u := by
  rw [closedLines, textLines_append, List.dropLast_append_of_ne_nil (textLines_ne_nil u),
    closedLines]

/-- Only what comes after the last newline is in the open line. -/
theorem openLine_append (t u : Text) : openLine (t ++ '\n' :: u) = openLine u := by
  rw [openLine, textLines_append, openLine, List.getLastD_eq_getLast?,
    List.getLastD_eq_getLast?, List.getLast?_append,
    List.getLast?_eq_some_getLast (textLines_ne_nil u)]
  rfl

/-- The closed lines, each with its newline, and the open line are all of the text. -/
theorem flatMap_closedLines (t : Text) :
    ((closedLines t).flatMap fun l => l ++ ['\n']) ++ openLine t = t := by
  induction t using lines_induction with
  | line t ht => rw [closedLines_of_not_mem ht, openLine_of_not_mem ht]; rfl
  | lines l t hl ih =>
    rw [closedLines_append, openLine_append, textLines_of_not_mem hl, List.singleton_append,
      List.flatMap_cons, List.append_assoc, ih, List.append_assoc, List.singleton_append]

/-- Each newline closes a line. -/
theorem length_closedLines (t : Text) : (closedLines t).length = t.count '\n' := by
  induction t using lines_induction with
  | line t ht => rw [closedLines_of_not_mem ht, List.count_eq_zero.mpr ht, List.length_nil]
  | lines l t hl ih =>
    rw [closedLines_append, textLines_of_not_mem hl, List.singleton_append, List.length_cons, ih,
      List.count_append, List.count_cons_self,
      List.count_eq_zero.mpr hl, Nat.zero_add]

/-- What is put after a text goes on its open line. -/
theorem textLines_append_of_not_mem (t : Text) {u : Text} (h : '\n' ∉ u) :
    textLines (t ++ u) = closedLines t ++ [openLine t ++ u] := by
  induction t using lines_induction with
  | line t ht =>
    rw [closedLines_of_not_mem ht, openLine_of_not_mem ht, List.nil_append]
    exact textLines_of_not_mem (by simp [ht, h])
  | lines l t hl ih =>
    rw [closedLines_append, openLine_append, List.append_assoc, List.cons_append,
      textLines_append, ih, List.append_assoc]

/-- The lines of the bytes of a text are the bytes of its lines. -/
theorem segments_utf8 (t : Text) : segments (utf8 t) = (textLines t).map utf8 := by
  have hnot {u : Text} (hu : '\n' ∉ u) : newline ∉ utf8 u := fun h =>
    hu ((mem_utf8_ascii (by decide)).mp h)
  induction t using lines_induction with
  | line t ht => rw [segments_of_not_mem (hnot ht), textLines_of_not_mem ht]; rfl
  | lines l t hl ih =>
    rw [utf8_append, textLines_append, textLines_of_not_mem hl, List.map_append, ← ih]
    exact (segments_append _ _).trans (congrArg (· ++ _) (segments_of_not_mem (hnot hl)))

end LineLimit
