import LineLimit.Glob.Match
import LineLimit.Proofs.Glob.Language

/-!
# The matcher is right

A row tells of a language which suffixes of the path are in it (`Row.Tells`).
Each operation on rows multiplies the language that the row tells of by one
more factor, and so does every token (`Token.row_tells`). A whole glob, from its
last token to its first, therefore tells of its own language:

> `accepts_iff`: a glob accepts the texts that it stands for, and no other.
-/

namespace LineLimit.Glob

variable {ignoreCase : Bool} {L M : Language UInt8} {s : Bytes} {row other : Row}

/-- The row says, for each suffix of the text, whether it is in the language. -/
inductive Row.Tells (L : Language UInt8) : Bytes → Row → Prop
  | nil {here : Bool} : (here = true ↔ [] ∈ L) → Tells L [] [here]
  | cons {b : UInt8} {s : Bytes} {here : Bool} {row : Row} :
    (here = true ↔ b :: s ∈ L) → Tells L s row → Tells L (b :: s) (here :: row)

namespace Row

/-- A row that tells of a language says first whether the whole text is in it. -/
theorem Tells.whole_iff (h : Tells L s row) : whole row = true ↔ s ∈ L := by
  cases h with
  | nil here => exact here
  | cons here _ => exact here

/-- At the end of the text, and only there, nothing more is needed. -/
theorem atEnd_tells (s : Bytes) : Tells 1 s (atEnd s) := by
  induction s with
  | nil => exact .nil (by simp)
  | cons b s ih => exact .cons (by simp) ih

/-- One byte and then what the row tells of. -/
theorem Tells.byte {q : UInt8 → Bool} (h : Tells L s row) :
    Tells (oneByte q * L) s (byte q s row) := by
  induction h with
  | nil here => exact .nil (by simp [nil_mem_oneByte_mul])
  | cons here hrow ih =>
    refine .cons ?_ ih
    rw [cons_mem_oneByte_mul, Bool.and_eq_true, hrow.whole_iff]

/-- Each of the bytes in turn, and then what the row tells of. -/
theorem Tells.bytes {same : UInt8 → UInt8 → Bool} (bs : Bytes) (h : Tells L s row) :
    Tells (alike same bs * L) s (bytes same bs s row) := by
  induction bs with
  | nil =>
    have hone : alike same [] = 1 := Language.ext fun _ => List.forall₂_nil_left_iff
    rw [hone, one_mul]
    exact h
  | cons a bs ih =>
    have hmul : alike same (a :: bs) = oneByte (same a) * alike same bs := by
      ext t
      cases t with
      | nil => exact ⟨fun ht => (nomatch ht), fun ht => absurd ht nil_mem_oneByte_mul⟩
      | cons b t =>
        rw [cons_mem_oneByte_mul]
        exact List.forall₂_cons
    rw [hmul, mul_assoc]
    exact ih.byte

/-- What either of the two rows tells of. -/
theorem Tells.either (h : Tells L s row) (h' : Tells M s other) :
    Tells (L + M) s (either row other) := by
  induction h generalizing other with
  | nil here =>
    cases h' with
    | nil here' => exact .nil (by rw [Language.mem_add, ← here, ← here', Bool.or_eq_true])
  | cons here _ ih =>
    cases h' with
    | cons here' h' =>
      exact .cons (by rw [Language.mem_add, ← here, ← here', Bool.or_eq_true]) (ih h')

/-- Text without a slash, and then what the row tells of: it can only grow until a slash. -/
theorem Tells.run (h : Tells L s row) :
    Tells (slashFree * L) s (run s row) := by
  induction h with
  | nil here =>
    refine .nil ?_
    rw [nil_mem_mul]
    exact here.trans ⟨fun h => ⟨List.not_mem_nil, h⟩, And.right⟩
  | @cons b s here row hhere hrow ih =>
    refine .cons ?_ ih
    -- a run is empty, or its first byte is no slash and the others are a run
    rw [Bool.or_eq_true, Bool.and_eq_true, hhere, ih.whole_iff, cons_mem_mul, bne_iff_ne,
      Language.mem_mul]
    constructor
    · intro hcases
      rcases hcases with h | ⟨hb, a, ha, c, hc, rfl⟩
      · exact .inl ⟨List.not_mem_nil, h⟩
      · refine .inr ⟨a, c, fun hmem => ?_, hc, rfl⟩
        rcases List.mem_cons.mp hmem with heq | hmem
        · exact hb heq.symm
        · exact ha hmem
    · intro hcases
      rcases hcases with ⟨-, h⟩ | ⟨a, c, ha, hc, rfl⟩
      · exact .inl h
      · exact .inr ⟨fun heq => ha (heq ▸ List.mem_cons_self ..), a,
          fun hmem => ha (List.mem_cons_of_mem _ hmem), c, hc, rfl⟩

/-- Any text, and then what the row tells of: it is enough that some suffix does. -/
theorem Tells.anything (h : Tells L s row) :
    Tells (Token.everything.language ignoreCase * L) s (anything row) := by
  induction h with
  | nil here =>
    refine .nil ?_
    simp only [Row.anything, whole, List.headD_nil, Bool.or_false]
    rw [nil_mem_mul, here]
    exact ⟨fun h => ⟨mem_everything [], h⟩, And.right⟩
  | cons here hrow ih =>
    refine .cons ?_ ih
    rw [Bool.or_eq_true, here, ih.whole_iff, cons_mem_mul, Language.mem_mul]
    constructor
    · intro hcases
      rcases hcases with h | ⟨a, -, c, hc, rfl⟩
      · exact .inl ⟨mem_everything [], h⟩
      · exact .inr ⟨a, c, mem_everything _, hc, rfl⟩
    · intro hcases
      rcases hcases with ⟨-, h⟩ | ⟨a, c, -, hc, rfl⟩
      · exact .inl h
      · exact .inr ⟨a, mem_everything _, c, hc, rfl⟩

/-- Text up to some slash, and then what the row tells of. -/
theorem Tells.throughSlash (h : Tells L s row) :
    Tells (slashed * L) s (throughSlash s row) := by
  induction h with
  | nil here =>
    refine .nil ⟨fun h => absurd h (by simp), fun h => ?_⟩
    exact absurd (nil_mem_mul.mp h).1 (show ([] : Bytes).getLast? ≠ some slash by simp)
  | @cons b s here row hhere hrow ih =>
    refine .cons ?_ ih
    rw [Bool.or_eq_true, Bool.and_eq_true, ih.whole_iff, hrow.whole_iff, cons_mem_mul, beq_iff_eq,
      Language.mem_mul]
    -- what ends with a slash is a slash alone, or ends with one after its first byte
    constructor
    · intro hcases
      rcases hcases with ⟨rfl, h⟩ | ⟨a, ha, c, hc, rfl⟩
      · exact .inr ⟨[], s, rfl, h, rfl⟩
      · obtain ⟨m, rfl⟩ := List.getLast?_eq_some_iff.mp (show a.getLast? = some slash from ha)
        exact .inr ⟨m ++ [slash], c, List.getLast?_eq_some_iff.mpr ⟨b :: m, rfl⟩, hc, rfl⟩
    · intro hcases
      rcases hcases with ⟨h, -⟩ | ⟨a, c, ha, hc, rfl⟩
      · exact absurd (show ([] : Bytes).getLast? = some slash from h) (by simp)
      · obtain ⟨m, hm⟩ := List.getLast?_eq_some_iff.mp (show (b :: a).getLast? = some slash from ha)
        cases m with
        | nil =>
          obtain ⟨rfl, rfl⟩ := List.cons.inj hm
          exact .inl ⟨rfl, hc⟩
        | cons x m =>
          obtain ⟨rfl, rfl⟩ := List.cons.inj hm
          exact .inr ⟨m ++ [slash], List.getLast?_concat, c, hc, rfl⟩

/-- Nothing or text up to some slash, and then what the row tells of. -/
theorem Tells.directories (h : Tells L s row) :
    Tells (Token.leading.language ignoreCase * L) s (directories s row) := by
  rw [language_leading, add_mul, one_mul]
  exact h.either h.throughSlash

theorem Tells.never (h : Tells L s row) : Tells 0 s (row.map fun _ => false) := by
  induction h with
  | nil here => exact .nil (by simp)
  | cons here _ ih => exact .cons (by simp) ih

end Row

mutual

/-- A token, and then what the row tells of, by recursion on the token. -/
theorem Token.row_tells (t : Token) {L : Language UInt8} {row : Row} (h : Row.Tells L s row) :
    Row.Tells (t.language ignoreCase * L) s (t.row ignoreCase s row) := by
  cases t with
  | literal c =>
    rw [Token.row, language_literal]
    exact h.bytes (utf8 [c])
  | anyByte =>
    rw [Token.row, language_anyByte]
    exact h.byte
  | star =>
    rw [Token.row, language_star]
    exact h.run
  | leading =>
    rw [Token.row]
    exact h.directories
  | trailing =>
    rw [Token.row, language_trailing, mul_assoc]
    exact h.anything.byte
  | between =>
    rw [Token.row, language_between, mul_assoc]
    exact h.directories.byte
  | everything =>
    rw [Token.row]
    exact h.anything
  | oneOf negated ranges =>
    rw [Token.row, language_oneOf]
    exact h.byte
  | group branches =>
    cases branches with
    | nil =>
      rw [Token.row, language_group_nil, one_mul]
      exact h
    | cons ts branches =>
      rw [Token.row, language_group_cons, add_mul]
      exact (rowOf_tells ts h).either (rowOfSome_tells branches h)

/-- A sequence of tokens, and then what the row tells of. -/
theorem rowOf_tells (ts : Tokens) {L : Language UInt8} {row : Row} (h : Row.Tells L s row) :
    Row.Tells (language ignoreCase ts * L) s (rowOf ignoreCase s ts row) := by
  cases ts with
  | nil =>
    rw [rowOf, language_nil, one_mul]
    exact h
  | cons t ts =>
    rw [rowOf, language_cons, mul_assoc]
    exact Token.row_tells t (rowOf_tells ts h)

theorem rowOfSome_tells (branches : List Tokens) {L : Language UInt8} {row : Row}
    (h : Row.Tells L s row) :
    Row.Tells (languageOfSome ignoreCase branches * L) s (rowOfSome ignoreCase s branches row) := by
  cases branches with
  | nil =>
    rw [rowOfSome, languageOfSome_nil, zero_mul]
    exact h.never
  | cons ts branches =>
    rw [rowOfSome, languageOfSome_cons, add_mul]
    exact (rowOf_tells ts h).either (rowOfSome_tells branches h)

end

/-- A glob accepts the texts that it stands for, and no other. -/
theorem accepts_iff (ts : Tokens) (s : Bytes) :
    accepts ignoreCase ts s = true ↔ s ∈ language ignoreCase ts := by
  have h : Row.Tells (language ignoreCase ts * 1) s (rowOf ignoreCase s ts (Row.atEnd s)) :=
    rowOf_tells ts (Row.atEnd_tells s)
  rw [mul_one] at h
  exact h.whole_iff

end LineLimit.Glob
