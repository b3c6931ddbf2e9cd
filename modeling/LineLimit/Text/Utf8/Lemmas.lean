import LineLimit.Text.Utf8

/-!
# Reading back what was written

A text written as bytes is read back as it was: the reader finds every
character and no gap (`Utf8.decode_utf8`), so showing the bytes lossily loses
nothing (`lossy_utf8`) and reading them strictly succeeds (`readUtf8?_utf8`).
The proof follows the reader through the one to four bytes of a character.
-/

namespace LineLimit

namespace Utf8

theorem toNat_ofNat_of_lt {n : Nat} (h : n < 256) : (UInt8.ofNat n).toNat = n := by
  simp [Nat.mod_eq_of_lt h]

/-! ## The first byte of a character -/

/-- A byte below 0x80 is a character. -/
theorem start_one {n : Nat} (h : n < 0x80) (done : List (Option Char)) :
    Reader.start done (UInt8.ofNat n) = ⟨some (Char.ofNat n) :: done, none⟩ := by
  have hn := toNat_ofNat_of_lt (n := n) (by omega)
  have : UInt8.ofNat n < 0x80 := by
    rw [UInt8.lt_iff_toNat_lt, hn]; exact h
  simp [Reader.start, this, hn]

/-- Of two bytes, the first keeps five bits and asks for one more byte. -/
theorem start_two {n : Nat} (h : 2 ≤ n) (h' : n < 32) (done : List (Option Char)) :
    Reader.start done (UInt8.ofNat (n + 0xC0)) = ⟨done, some ⟨n, 1, 0x80, 0xBF⟩⟩ := by
  have hn := toNat_ofNat_of_lt (n := n + 0xC0) (by omega)
  simp only [Reader.start, UInt8.lt_iff_toNat_lt, hn]
  rw [if_neg, if_neg, if_pos]
  · simp
  all_goals simp; try omega

/-- Of three bytes, the first keeps four bits. After 0xE0 only the upper half may follow, and
after 0xED only the lower, where no surrogates are. -/
theorem start_three {n : Nat} (h : n < 16) (done : List (Option Char)) :
    Reader.start done (UInt8.ofNat (n + 0xE0)) =
      ⟨done, some ⟨n, 2, if n = 0 then 0xA0 else 0x80, if n = 13 then 0x9F else 0xBF⟩⟩ := by
  have hn := toNat_ofNat_of_lt (n := n + 0xE0) (by omega)
  simp only [Reader.start, UInt8.lt_iff_toNat_lt, ← UInt8.toNat_inj, hn]
  rw [if_neg, if_neg, if_neg]
  · by_cases h0 : n = 0
    · subst h0; rfl
    · by_cases h1 : n = 13
      · subst h1; rfl
      · rw [if_neg, if_neg, if_pos]
        · simp [h0, h1]
        all_goals simp; omega
  all_goals simp

/-- Of four bytes, the first keeps three bits. After 0xF0 the lowest quarter may not follow, and
after 0xF4 only that. -/
theorem start_four {n : Nat} (h : n ≤ 4) (done : List (Option Char)) :
    Reader.start done (UInt8.ofNat (n + 0xF0)) =
      ⟨done, some ⟨n, 3, if n = 0 then 0x90 else 0x80, if n = 4 then 0x8F else 0xBF⟩⟩ := by
  match n, h with
  | 0, _ => rfl
  | 1, _ => rfl
  | 2, _ => rfl
  | 3, _ => rfl
  | 4, _ => rfl

/-! ## Whole characters -/

/-- A byte that goes on the character under way adds six bits to it. -/
theorem step_more {code owed m : Nat} {low high : UInt8} (hm : m < 64)
    (hlow : low.toNat ≤ m + 0x80) (hhigh : m + 0x80 ≤ high.toNat) (done : List (Option Char)) :
    Reader.step ⟨done, some ⟨code, owed, low, high⟩⟩ (UInt8.ofNat (m + 0x80)) =
      if owed ≤ 1 then ⟨some (Char.ofNat (code * 64 + m)) :: done, none⟩
      else ⟨done, some ⟨code * 64 + m, owed - 1, 0x80, 0xBF⟩⟩ := by
  have hn := toNat_ofNat_of_lt (n := m + 0x80) (by omega)
  simp only [Reader.step, UInt8.le_iff_toNat_le, hn]
  rw [if_pos ⟨hlow, hhigh⟩, Nat.add_sub_cancel]

theorem step_start (done : List (Option Char)) (b : UInt8) :
    Reader.step ⟨done, none⟩ b = Reader.start done b := rfl

/-- The bytes of a character are read as that character. -/
theorem foldl_utf8EncodeChar (c : Char) (done : List (Option Char)) :
    (String.utf8EncodeChar c).foldl Reader.step ⟨done, none⟩ = ⟨some c :: done, none⟩ := by
  have hvalid : c.toNat < 0xD800 ∨ (0xDFFF < c.toNat ∧ c.toNat < 0x110000) := c.valid
  have hc : Char.ofNat c.toNat = c := Char.ofNat_toNat c
  simp only [String.utf8EncodeChar]
  change c.val.toNat < 0xD800 ∨ (0xDFFF < c.val.toNat ∧ c.val.toNat < 0x110000) at hvalid
  change Char.ofNat c.val.toNat = c at hc
  generalize c.val.toNat = v at hvalid hc
  split
  · next h =>
    rw [List.foldl_cons, List.foldl_nil, step_start, start_one (by omega), hc]
  · split
    · next h =>
      rw [List.foldl_cons, List.foldl_cons, List.foldl_nil, step_start,
        Nat.mod_eq_of_lt (by omega : v / 64 < 32), start_two (by omega) (by omega),
        step_more (by omega) (by simp) (by simp; omega), if_pos (by omega)]
      rw [show v / 64 * 64 + v % 64 = v by omega, hc]
    · split
      · next h =>
        rw [List.foldl_cons, List.foldl_cons, List.foldl_cons, List.foldl_nil, step_start,
          Nat.mod_eq_of_lt (by omega : v / 4096 < 16), start_three (by omega),
          step_more (by omega) ?_ ?_, if_neg (by omega),
          step_more (by omega) (by simp) (by simp; omega), if_pos (by omega)]
        · rw [show (v / 4096 * 64 + v / 64 % 64) * 64 + v % 64 = v by omega, hc]
        · split
          · simp; omega
          · simp
        · split
          · simp; omega
          · simp; omega
      · rw [List.foldl_cons, List.foldl_cons, List.foldl_cons, List.foldl_cons, List.foldl_nil,
          step_start, Nat.mod_eq_of_lt (by omega : v / 262144 < 8), start_four (by omega),
          step_more (by omega) ?_ ?_, if_neg (by omega),
          step_more (by omega) (by simp) (by simp; omega), if_neg (by omega),
          step_more (by omega) (by simp) (by simp; omega), if_pos (by omega)]
        · rw [show ((v / 262144 * 64 + v / 4096 % 64) * 64 + v / 64 % 64) * 64 + v % 64 = v by
            omega, hc]
        · split
          · simp; omega
          · simp
        · split
          · simp; omega
          · simp; omega

/-- A text is read back character by character, whatever was read before it. -/
theorem foldl_utf8 (t : Text) (done : List (Option Char)) :
    (utf8 t).foldl Reader.step ⟨done, none⟩ = ⟨(t.map some).reverse ++ done, none⟩ := by
  induction t generalizing done with
  | nil => rfl
  | cons c t ih =>
    rw [utf8, List.flatMap_cons, List.foldl_append, foldl_utf8EncodeChar]
    exact (ih _).trans (by simp)

/-- Every character of a text is found in its bytes, and nothing else is. -/
theorem decode_utf8 (t : Text) : decode (utf8 t) = t.map some := by
  rw [decode, foldl_utf8]
  simp [Reader.finish]

end Utf8

/-- Nothing is lost of a text. -/
theorem lossy_utf8 (t : Text) : lossy (utf8 t) = t := by
  simp [lossy, Utf8.decode_utf8, Function.comp_def]

/-- A text is read back from its bytes. -/
theorem readUtf8?_utf8 (t : Text) : readUtf8? (utf8 t) = some t := by
  rw [readUtf8?, Utf8.decode_utf8]
  induction t with
  | nil => rfl
  | cons c t ih => simp [List.mapM_cons, ih]

/-- Different texts have different bytes. -/
theorem utf8_injective {t u : Text} (h : utf8 t = utf8 u) : t = u := by
  rw [← lossy_utf8 t, h, lossy_utf8]

/-! ## Which bytes a text has -/

@[simp]
theorem utf8_append (t u : Text) : utf8 (t ++ u) = utf8 t ++ utf8 u := List.flatMap_append

theorem utf8_cons (c : Char) (t : Text) : utf8 (c :: t) = utf8 [c] ++ utf8 t := by
  rw [← utf8_append]
  rfl

/-- A character of ASCII is one byte. -/
theorem utf8_ascii {c : Char} (h : c.toNat < 0x80) : utf8 [c] = [UInt8.ofNat c.toNat] := by
  have hlt : c.val.toNat ≤ 0x7F := Nat.le_of_lt_succ h
  simp only [utf8, List.flatMap_cons, List.flatMap_nil, List.append_nil, String.utf8EncodeChar]
  rw [if_pos hlt]
  rfl

/-- A character outside ASCII has no byte of ASCII. -/
theorem le_of_mem_utf8 {c : Char} (h : 0x80 ≤ c.toNat) {b : UInt8} (hb : b ∈ utf8 [c]) :
    0x80 ≤ b := by
  have hnot : ¬c.val.toNat ≤ 0x7F := fun hle => by
    have h' : 0x80 ≤ c.val.toNat := h
    omega
  simp only [utf8, List.flatMap_cons, List.flatMap_nil, List.append_nil, String.utf8EncodeChar,
    if_neg hnot] at hb
  -- every byte is a multiple of a power of two, at least `0x80`, and what is left below it
  have hbyte : ∀ m, 0x80 ≤ m → m < 0x100 → 0x80 ≤ UInt8.ofNat m := by
    intro m hm hm'
    rw [UInt8.le_iff_toNat_le, Utf8.toNat_ofNat_of_lt hm']
    exact hm
  split at hb
  · simp only [List.mem_cons, List.not_mem_nil, or_false] at hb
    rcases hb with rfl | rfl <;> exact hbyte _ (by omega) (by omega)
  · split at hb
    · simp only [List.mem_cons, List.not_mem_nil, or_false] at hb
      rcases hb with rfl | rfl | rfl <;> exact hbyte _ (by omega) (by omega)
    · simp only [List.mem_cons, List.not_mem_nil, or_false] at hb
      rcases hb with rfl | rfl | rfl | rfl <;> exact hbyte _ (by omega) (by omega)

/-- A byte of ASCII is in the bytes of a text where its character is in the text. -/
theorem mem_utf8_ascii {b : UInt8} (hb : b < 0x80) {t : Text} :
    b ∈ utf8 t ↔ Char.ofNat b.toNat ∈ t := by
  have hlt : b.toNat < 0x80 := hb
  have hchar : (Char.ofNat b.toNat).toNat = b.toNat := by
    have hvalid : b.toNat.isValidChar := .inl (by omega)
    rw [Char.ofNat, dif_pos hvalid]
    rfl
  -- it is the byte of one character if it is that character
  have hone : ∀ c : Char, b ∈ utf8 [c] ↔ Char.ofNat b.toNat = c := by
    intro c
    by_cases hc : c.toNat < 0x80
    · rw [utf8_ascii hc, List.mem_singleton]
      constructor
      · intro h
        rw [h, Utf8.toNat_ofNat_of_lt (by omega), Char.ofNat_toNat]
      · intro h
        rw [← h, hchar, UInt8.ofNat_toNat]
    · constructor
      · intro h
        have hle : 0x80 ≤ b.toNat := le_of_mem_utf8 (by omega) h
        omega
      · intro h
        rw [← h, hchar] at hc
        omega
  induction t with
  | nil => simp [utf8]
  | cons c t ih =>
    rw [utf8_cons, List.mem_append, List.mem_cons]
    exact or_congr (hone c) ih

end LineLimit
