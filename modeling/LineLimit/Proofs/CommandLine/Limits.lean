import LineLimit.CommandLine.Parser
import LineLimit.Proofs.Outcomes
import LineLimit.Text.Utf8.Strict

/-!
# Which texts are limits

> `readCount_eq_ok_iff`: a text is read as the limit `n` if and only if it writes `n` in
> decimal digits, after a `+` that may come first, and `n` has 64 bits.

So a number that is too large is refused, however large it is: nothing wraps.
-/

namespace LineLimit.CommandLine

/-- The text writes the number `n` in decimal digits, after a `+` that may come first. -/
def Denotes (t : Text) (n : Nat) : Prop :=
  ∃ digits, (t = digits ∨ t = '+' :: digits) ∧ digits ≠ [] ∧
    (∀ c ∈ digits, c.isDigit = true) ∧ n = Nat.ofDigitChars 10 digits 0

/-- The number read so far with one more digit. -/
def addDigit (n : Nat) (c : Char) : Except CountError Nat :=
  if c.isDigit then
    let m := n * 10 + (c.toNat - '0'.toNat)
    if m ≤ countLimit then .ok m else .error .tooLarge
  else .error .invalidDigit

theorem readCount_go (digits : Text) : readCount.go digits = digits.foldlM addDigit 0 := rfl

/-- A digit is added if it is one, and the number stays within the limit. -/
theorem addDigit_eq_ok_iff {m n : Nat} {c : Char} :
    addDigit m c = .ok n ↔
      c.isDigit = true ∧ n = 10 * m + (c.toNat - '0'.toNat) ∧ n ≤ countLimit := by
  unfold addDigit
  by_cases hc : c.isDigit = true
  · rw [if_pos hc, Nat.mul_comm m 10]
    by_cases hm : 10 * m + (c.toNat - '0'.toNat) ≤ countLimit
    · simp only [hm, if_true, Except.ok.injEq]
      exact ⟨fun h => ⟨hc, h.symm, h ▸ hm⟩, fun h => h.2.1.symm⟩
    · simp only [hm, if_false, reduceCtorEq, false_iff]
      rintro ⟨-, rfl, hle⟩
      exact hm hle
  · rw [if_neg hc]
    exact ⟨nofun, fun h => absurd h.1 hc⟩

/-- More digits make no number smaller. -/
theorem le_ofDigitChars (digits : Text) (m : Nat) : m ≤ Nat.ofDigitChars 10 digits m := by
  induction digits generalizing m with
  | nil => exact Nat.le_refl m
  | cons c digits ih =>
    rw [Nat.ofDigitChars_cons]
    exact Nat.le_trans (by omega) (ih _)

/-- Digits read after the number `m`: the limit holds of every number on the way because it
holds of the last one. -/
theorem foldlM_addDigit_eq_ok_iff {digits : Text} {m n : Nat} (hm : m ≤ countLimit) :
    digits.foldlM addDigit m = .ok n ↔
      (∀ c ∈ digits, c.isDigit = true) ∧ n = Nat.ofDigitChars 10 digits m ∧ n ≤ countLimit := by
  induction digits generalizing m with
  | nil =>
    simp only [List.foldlM_nil, pure, Except.pure, Except.ok.injEq, List.not_mem_nil,
      false_implies, implies_true, true_and, Nat.ofDigitChars_nil]
    exact ⟨fun h => ⟨h.symm, h ▸ hm⟩, fun h => h.1.symm⟩
  | cons c digits ih =>
    rw [List.foldlM_cons, Nat.ofDigitChars_cons, List.forall_mem_cons]
    constructor
    · intro h
      obtain ⟨k, hk, hrest⟩ := exists_of_bind_eq_ok h
      obtain ⟨hc, rfl, hle⟩ := addDigit_eq_ok_iff.mp hk
      obtain ⟨hdigits, hn, hbound⟩ := (ih hle).mp hrest
      exact ⟨⟨hc, hdigits⟩, hn, hbound⟩
    · rintro ⟨⟨hc, hdigits⟩, hn, hbound⟩
      have hle : 10 * m + (c.toNat - '0'.toNat) ≤ countLimit :=
        Nat.le_trans (le_ofDigitChars digits _) (hn ▸ hbound)
      rw [addDigit_eq_ok_iff.mpr ⟨hc, rfl, hle⟩]
      exact (ih hle).mpr ⟨hdigits, hn, hbound⟩

/-- Digits are read as the number they are written for, within the limit. -/
theorem readCount_go_eq_ok_iff {digits : Text} {n : Nat} :
    readCount.go digits = .ok n ↔
      (∀ c ∈ digits, c.isDigit = true) ∧ n = Nat.ofDigitChars 10 digits 0 ∧ n ≤ countLimit := by
  rw [readCount_go]
  exact foldlM_addDigit_eq_ok_iff (Nat.zero_le _)

/-- A text is a limit if and only if it writes a number that 64 bits can hold. -/
theorem readCount_eq_ok_iff {t : Text} {n : Nat} :
    readCount t = .ok n ↔ Denotes t n ∧ n ≤ countLimit := by
  have hplus : ∀ digits : Text, (∀ c ∈ '+' :: digits, c.isDigit = true) → False :=
    fun digits h => absurd (h '+' (by simp)) (by decide)
  unfold readCount
  split
  · refine ⟨nofun, ?_⟩
    rintro ⟨⟨digits, h | h, hne, -⟩, -⟩
    · exact absurd h.symm hne
    · exact nomatch h
  · refine ⟨nofun, ?_⟩
    rintro ⟨⟨digits, h | h, hne, hdigits, -⟩, -⟩
    · exact (hplus [] (h ▸ hdigits)).elim
    · exact absurd (List.cons.inj h).2.symm hne
  · next digits hne =>
    rw [readCount_go_eq_ok_iff]
    constructor
    · rintro ⟨hdigits, hn, hle⟩
      exact ⟨⟨digits, .inr rfl, fun h => hne (by rw [h]), hdigits, hn⟩, hle⟩
    · rintro ⟨⟨digits', h | h, -, hdigits, hn⟩, hle⟩
      · exact (hplus digits (h ▸ hdigits)).elim
      · obtain rfl := (List.cons.inj h).2
        exact ⟨hdigits, hn, hle⟩
  · next hnil _ hsign =>
    rw [readCount_go_eq_ok_iff]
    constructor
    · rintro ⟨hdigits, hn, hle⟩
      exact ⟨⟨t, .inl rfl, hnil, hdigits, hn⟩, hle⟩
    · rintro ⟨⟨digits, rfl | h, -, hdigits, hn⟩, hle⟩
      · exact ⟨hdigits, hn, hle⟩
      · exact absurd h (hsign digits)

/-- The digits that a number is written with denote it. -/
theorem denotes_decimal (n : Nat) : Denotes (decimal n) n :=
  ⟨decimal n, .inl rfl, Nat.toDigits_ne_nil,
    fun _ hc => Nat.isDigit_of_mem_toDigits (by decide) (by decide) hc,
    Nat.ofDigitChars_ten_toDigits.symm⟩

/-! ## Words -/

/-- The limit that a word denotes. -/
def readLimit (word : Bytes) : Except UsageError Nat :=
  match readUtf8? word with
  | none => .error .notText
  | some t => (readCount t).mapError (.noCount t)

/-- The second operand is the limit that can be read from it. -/
theorem setOperand_maxLen (f : Found) (word : Bytes) :
    f.setOperand .maxLen word = (readLimit word).map fun n => { f with maxLen := some n } := by
  unfold Found.setOperand readLimit
  cases readUtf8? word with
  | none => rfl
  | some t =>
    simp only
    cases readCount t with
    | error e => rfl
    | ok n => rfl

/-- A word is read as a limit if it is the text of a number up to the largest. -/
theorem readLimit_eq_ok_iff {word : Bytes} {n : Nat} :
    readLimit word = .ok n ↔ (∃ t, word = utf8 t ∧ Denotes t n) ∧ n ≤ countLimit := by
  have hcount : ∀ t,
      (readCount t).mapError (UsageError.noCount t) = .ok n ↔ readCount t = .ok n := by
    intro t
    cases readCount t <;> simp [Except.mapError]
  unfold readLimit
  cases hword : readUtf8? word with
  | none =>
    refine ⟨nofun, ?_⟩
    rintro ⟨⟨t, rfl, -⟩, -⟩
    rw [readUtf8?_utf8] at hword
    exact nomatch hword
  | some t =>
    obtain rfl := readUtf8?_eq_some_iff.mp hword
    simp only [hcount, readCount_eq_ok_iff]
    refine and_congr_left fun _ => ⟨fun h => ⟨t, rfl, h⟩, ?_⟩
    rintro ⟨t', ht', h⟩
    rwa [utf8_injective ht']

end LineLimit.CommandLine
