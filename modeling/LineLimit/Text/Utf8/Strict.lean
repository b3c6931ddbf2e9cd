import LineLimit.Text.Utf8.Lemmas
import Mathlib.Tactic.SplitIfs

/-!
# What is read strictly was written

> `readUtf8?_eq_some_iff`: bytes are read strictly as a text if and only if they are what the
> text is written as.

So no two byte strings are read as one text. The proof follows the reader: the bytes read are
those of the characters found, and then the first bytes of the character under way, which any
bytes that the reader accepts complete (`Utf8.Opens`).
-/

namespace LineLimit

namespace Utf8

/-! ## How a character is written -/

/-- A character is written in one to four bytes, six bits in each but the first. -/
theorem utf8_ofNat {n : Nat} (h : n.isValidChar) :
    utf8 [Char.ofNat n] =
      if n ≤ 0x7F then [UInt8.ofNat n]
      else if n ≤ 0x7FF then [UInt8.ofNat (n / 64 % 32 + 0xC0), UInt8.ofNat (n % 64 + 0x80)]
      else if n ≤ 0xFFFF then
        [UInt8.ofNat (n / 4096 % 16 + 0xE0), UInt8.ofNat (n / 64 % 64 + 0x80),
          UInt8.ofNat (n % 64 + 0x80)]
      else
        [UInt8.ofNat (n / 262144 % 8 + 0xF0), UInt8.ofNat (n / 4096 % 64 + 0x80),
          UInt8.ofNat (n / 64 % 64 + 0x80), UInt8.ofNat (n % 64 + 0x80)] := by
  have hval : (Char.ofNat n).val.toNat = n := by
    rw [Char.ofNat, dif_pos h]
    rfl
  simp only [utf8, List.flatMap_cons, List.flatMap_nil, List.append_nil, String.utf8EncodeChar,
    hval]

/-- Nothing more is owed, and the character is written with the bytes in `tail`; or whatever
byte comes next, between the bounds, it goes on a character that begins with them. -/
def Opens : Nat → Nat → UInt8 → UInt8 → Bytes → Prop
  | 0, code, _, _, tail => utf8 [Char.ofNat code] = tail
  | owed + 1, code, low, high, tail => ∀ b : UInt8, low ≤ b → b ≤ high →
    Opens owed (code * 64 + (b.toNat - 0x80)) 0x80 0xBF (tail ++ [b])

variable {b low high : UInt8} {code : Nat}

/-- After the first of two bytes, one that follows makes a character of that code. -/
theorem opens_two (hb : b.toNat = code + 0xC0) (hcode : 2 ≤ code) (hcode' : code < 32) :
    Opens 1 code 0x80 0xBF [b] := by
  intro c hc hc'
  simp only [UInt8.le_iff_toNat_le, UInt8.reduceToNat] at hc hc'
  rw [Opens, utf8_ofNat (.inl (by omega)), if_neg (by omega), if_pos (by omega)]
  simp only [List.cons_append, List.nil_append, List.cons.injEq, and_true, ← UInt8.toNat_inj,
    UInt8.toNat_ofNat']
  omega

/-- The bounds leave out what has a shorter form, and the surrogates. -/
theorem opens_three (hb : b.toNat = code + 0xE0) (hcode : code < 16)
    (hlow : low.toNat = if code = 0 then 0xA0 else 0x80)
    (hhigh : high.toNat = if code = 13 then 0x9F else 0xBF) : Opens 2 code low high [b] := by
  intro c hc hc' d hd hd'
  simp only [UInt8.le_iff_toNat_le, UInt8.reduceToNat] at hc hc' hd hd'
  have hshort : 0x20 ≤ code * 64 + (c.toNat - 0x80) := by split at hlow <;> omega
  have hsurrogate : code * 64 + (c.toNat - 0x80) < 0x360 ∨
      0x380 ≤ code * 64 + (c.toNat - 0x80) := by split at hhigh <;> omega
  have hlast : c.toNat ≤ 0xBF := by split at hhigh <;> omega
  have hfirst : 0x80 ≤ c.toNat := by split at hlow <;> omega
  clear hlow hhigh
  rw [Opens, utf8_ofNat (by unfold Nat.isValidChar; omega), if_neg (by omega),
    if_neg (by omega), if_pos (by omega)]
  simp only [List.cons_append, List.nil_append, List.cons.injEq, and_true, ← UInt8.toNat_inj,
    UInt8.toNat_ofNat']
  omega

/-- The bounds leave out what has a shorter form, and what is no character. -/
theorem opens_four (hb : b.toNat = code + 0xF0) (hcode : code ≤ 4)
    (hlow : low.toNat = if code = 0 then 0x90 else 0x80)
    (hhigh : high.toNat = if code = 4 then 0x8F else 0xBF) : Opens 3 code low high [b] := by
  intro c hc hc' d hd hd' e he he'
  simp only [UInt8.le_iff_toNat_le, UInt8.reduceToNat] at hc hc' hd hd' he he'
  have hshort : 0x10 ≤ code * 64 + (c.toNat - 0x80) := by split at hlow <;> omega
  have hlarge : code * 64 + (c.toNat - 0x80) < 0x110 := by split at hhigh <;> omega
  have hlast : c.toNat ≤ 0xBF := by split at hhigh <;> omega
  have hfirst : 0x80 ≤ c.toNat := by split at hlow <;> omega
  clear hlow hhigh
  rw [Opens, utf8_ofNat (.inr (by omega)), if_neg (by omega), if_neg (by omega),
    if_neg (by omega)]
  simp only [List.cons_append, List.nil_append, List.cons.injEq, and_true, ← UInt8.toNat_inj,
    UInt8.toNat_ofNat']
  omega

/-! ## What the reader has read -/

/-- Unless there is a gap, the bytes read are those of the characters found and of the one
under way. -/
def Reader.Follows (r : Reader) (bs : Bytes) : Prop :=
  none ∉ r.done → ∃ t, r.done = (t.map some).reverse ∧
    match r.pending with
    | none => bs = utf8 t
    | some p => p.owed ≠ 0 ∧
      ∃ tail, bs = utf8 t ++ tail ∧ Opens p.owed p.code p.low p.high tail

/-- Once a byte could not be read, nothing more is claimed. -/
theorem follows_gap {r : Reader} {bs : Bytes} (h : none ∈ r.done) : r.Follows bs :=
  fun hno => absurd h hno

/-- A character that is read adds its bytes. -/
theorem follows_char {done : List (Option Char)} {t : Text} {c : Char} {tail : Bytes}
    (hdone : done = (t.map some).reverse) (hc : utf8 [c] = tail) :
    Reader.Follows ⟨some c :: done, none⟩ (utf8 t ++ tail) := by
  intro _
  refine ⟨t ++ [c], ?_, ?_⟩
  · simp [hdone]
  · rw [utf8_append, hc]

/-- The first byte of a character adds itself. -/
theorem follows_start {done : List (Option Char)} {t : Text} (b : UInt8)
    (hdone : done = (t.map some).reverse) :
    (Reader.start done b).Follows (utf8 t ++ [b]) := by
  have hopens : ∀ {owed code : Nat} {low high : UInt8}, owed ≠ 0 → Opens owed code low high [b] →
      Reader.Follows ⟨done, some ⟨code, owed, low, high⟩⟩ (utf8 t ++ [b]) :=
    fun howed hp _ => ⟨t, hdone, howed, [b], rfl, hp⟩
  unfold Reader.start
  simp only [UInt8.lt_iff_toNat_lt, ← UInt8.toNat_inj, UInt8.reduceToNat]
  split_ifs with h1 h2 h3 h4 h5 h6 h7 h8 h9
  · refine follows_char hdone ?_
    rw [utf8_ofNat (.inl (by omega)), if_pos (by omega), UInt8.ofNat_toNat]
  · exact follows_gap (List.mem_cons_self ..)
  · exact hopens (by decide) (opens_two (by omega) (by omega) (by omega))
  · exact hopens (by decide) (opens_three h4 (by decide) rfl rfl)
  · exact hopens (by decide) (opens_three h5 (by decide) rfl rfl)
  · refine hopens (by decide) (opens_three (by omega) (by omega) ?_ ?_)
    · rw [if_neg (by omega)]; rfl
    · rw [if_neg (by omega)]; rfl
  · exact hopens (by decide) (opens_four h7 (by decide) rfl rfl)
  · refine hopens (by decide) (opens_four (by omega) (by omega) ?_ ?_)
    · rw [if_neg (by omega)]; rfl
    · rw [if_neg (by omega)]; rfl
  · exact hopens (by decide) (opens_four h9 (by decide) rfl rfl)
  · exact follows_gap (List.mem_cons_self ..)

/-- A byte that could not be read stays on record. -/
theorem mem_done_start {done : List (Option Char)} (h : none ∈ done) (b : UInt8) :
    none ∈ (Reader.start done b).done := by
  unfold Reader.start
  split_ifs <;> simp [h]

/-- A gap stays one. -/
theorem mem_done_step {r : Reader} (h : none ∈ r.done) (b : UInt8) : none ∈ (r.step b).done := by
  unfold Reader.step
  split
  · exact mem_done_start h b
  · next p _ =>
    split_ifs
    · exact List.mem_cons_of_mem _ h
    · exact h
    · exact mem_done_start (List.mem_cons_self ..) b

/-- Each byte read adds itself to what the reader has read. -/
theorem Reader.Follows.step {r : Reader} {bs : Bytes} (h : r.Follows bs) (b : UInt8) :
    (r.step b).Follows (bs ++ [b]) := by
  by_cases hgap : none ∈ r.done
  · exact follows_gap (mem_done_step hgap b)
  obtain ⟨t, hdone, hpending⟩ := h hgap
  unfold Reader.step
  cases hp : r.pending with
  | none =>
    rw [hp] at hpending
    subst hpending
    exact follows_start b hdone
  | some p =>
    rw [hp] at hpending
    obtain ⟨howed, tail, rfl, hopens⟩ := hpending
    obtain ⟨owed, hsucc⟩ := Nat.exists_eq_succ_of_ne_zero howed
    rw [hsucc] at hopens
    simp only
    split_ifs with hb hlast
    · rw [List.append_assoc]
      obtain rfl : owed = 0 := by omega
      exact follows_char hdone (hopens b hb.1 hb.2)
    · refine fun _ => ⟨t, hdone, by simp only; omega, tail ++ [b], by simp, ?_⟩
      rw [hsucc]
      exact hopens b hb.1 hb.2
    · exact follows_gap (mem_done_start (List.mem_cons_self ..) b)

/-- The bytes read add up to what the reader has read. -/
theorem Reader.Follows.foldl {r : Reader} {bs : Bytes} (h : r.Follows bs) (bs' : Bytes) :
    (bs'.foldl Reader.step r).Follows (bs ++ bs') := by
  induction bs' generalizing r bs with
  | nil => simpa using h
  | cons b bs' ih =>
    have hrest := ih (h.step b)
    rwa [List.append_assoc] at hrest

/-- Bytes that are read without a gap are those of the characters found. -/
theorem eq_utf8_of_decode {bs : Bytes} {t : Text} (h : decode bs = t.map some) : bs = utf8 t := by
  have hstart : Reader.Follows ⟨[], none⟩ [] := fun _ => ⟨[], rfl, rfl⟩
  have hread := hstart.foldl bs
  rw [List.nil_append] at hread
  unfold decode Reader.finish at h
  split at h
  · next hp =>
    have hdone := List.reverse_eq_iff.mp h
    obtain ⟨t', hdone', hbs⟩ := hread (by simp [hdone])
    rw [hp] at hbs
    rw [hdone, List.reverse_inj, List.map_inj_right (fun _ _ => Option.some.inj)] at hdone'
    rw [hdone']
    exact hbs
  · have hmem : none ∈ t.map some := h ▸ by simp
    simp at hmem

end Utf8

theorem eq_map_some_of_mapM_id {α : Type} {l : List (Option α)} {u : List α}
    (h : l.mapM id = some u) : l = u.map some := by
  induction l generalizing u with
  | nil => exact (Option.some.inj h) ▸ rfl
  | cons a l ih =>
    rw [List.mapM_cons] at h
    obtain ⟨c, hc, h⟩ := Option.bind_eq_some_iff.mp h
    obtain ⟨v, hv, h⟩ := Option.bind_eq_some_iff.mp h
    rw [ih hv, ← Option.some.inj h, List.map_cons]
    exact congrArg (· :: _) hc

/-- Bytes are read strictly as a text if and only if the text is written as them. -/
theorem readUtf8?_eq_some_iff {bs : Bytes} {t : Text} : readUtf8? bs = some t ↔ bs = utf8 t := by
  constructor
  · intro h
    exact Utf8.eq_utf8_of_decode (eq_map_some_of_mapM_id h)
  · rintro rfl
    exact readUtf8?_utf8 t

end LineLimit
