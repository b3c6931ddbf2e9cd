import Mathlib.Data.List.Forall2
import Mathlib.Data.List.TakeWhile
import LineLimit.Proofs.Json.Tokens

/-!
# What is written spells its tokens

A text spells some tokens (`Spells`) if the lexer makes them of it wherever no token is under
way, and whatever follows, unless that goes on a word. Texts that spell are put together:
one after another, with marks and with blanks between them. Both layouts are put together so,
and so both spell the tokens of the value that they write down:

> `decode_compact`, `decode_indented`: a record in compact layout, and a list of records in
> indented layout, are read as what they were written from.

What stands between quotes is gone through one character at a time: each escape gives back the
one character that it was made for.
-/

namespace LineLimit.Json

/-! ## Spelling -/

/-- A text that does not go on a word before it. -/
def Ends (t : Text) : Prop := ∀ c ∈ t.head?, isWordChar c = false

/-- The lexer makes these tokens of the text, whatever is before and after it. -/
def Spells (t : Text) (ts : List Token) : Prop :=
  ∀ (done : List Token) (rest : Text), Ends rest →
    Lexer.read ⟨done, .between⟩ (t ++ rest) = Lexer.read ⟨ts.reverse ++ done, .between⟩ rest

theorem ends_nil : Ends [] := by simp [Ends]

/-- A text ends the word before it by its first character. -/
theorem ends_cons {c : Char} {t : Text} : Ends (c :: t) ↔ isWordChar c = false := by
  simp [Ends]

/-- A text that ends words still does so where more of them comes after it. -/
theorem Ends.append {t u : Text} (ht : Ends t) (hu : Ends u) : Ends (t ++ u) := by
  cases t with
  | nil => exact hu
  | cons c t => exact ends_cons.mpr (ends_cons.mp ht)

/-- The tokens of a text that spells some. -/
theorem Spells.tokens_eq {t : Text} {ts : List Token} (h : Spells t ts) :
    tokens t = some ts := by
  have hread := h [] [] ends_nil
  rw [List.append_nil, List.append_nil] at hread
  rw [tokens, hread]
  simp [Lexer.read, Lexer.finish]

/-- A text that spells the tokens of a value is read as the value. -/
theorem Spells.decode_eq {t : Text} {v : Value} (h : Spells t v.tokens) : decode t = some v := by
  rw [decode, h.tokens_eq, Option.bind_some, parse_tokens]

theorem Spells.nil : Spells [] [] := fun _ _ _ => rfl

/-- One text after another spells the tokens of both. -/
theorem Spells.append {t u : Text} {ts us : List Token} (ht : Spells t ts) (hu : Spells u us)
    (hends : Ends u) : Spells (t ++ u) (ts ++ us) := by
  intro done rest hrest
  rw [List.append_assoc, ht done (u ++ rest) (hends.append hrest), hu _ rest hrest,
    List.reverse_append, List.append_assoc]

/-- Between two tokens a mark is one by itself. -/
theorem step_mark {c : Char} {m : Token} (hc : mark? c = some m) (done : List Token) :
    Lexer.step ⟨done, .between⟩ c = some ⟨m :: done, .between⟩ := by
  unfold mark? at hc
  split at hc
  case h_7 => exact absurd hc (by simp)
  all_goals
    obtain rfl := Option.some.inj hc
    rfl

/-- A mark may stand before any tokens. -/
theorem Spells.mark {c : Char} {m : Token} (hc : mark? c = some m) {t : Text}
    {ts : List Token} (ht : Spells t ts) : Spells (c :: t) (m :: ts) := by
  intro done rest hrest
  rw [List.cons_append, Lexer.read, step_mark hc, Option.bind_some, ht (m :: done) rest hrest,
    List.reverse_cons, List.append_assoc]
  rfl

/-- Blanks before a text add no tokens. -/
theorem Spells.blank {c : Char} (hc : c = ' ' ∨ c = '\n') {t : Text} {ts : List Token}
    (ht : Spells t ts) : Spells (c :: t) ts := by
  intro done rest hrest
  have hstep : Lexer.step ⟨done, .between⟩ c = some ⟨done, .between⟩ := by
    rcases hc with rfl | rfl <;> rfl
  rw [List.cons_append, Lexer.read, hstep, Option.bind_some, ht done rest hrest]

/-- A line break, and how far the next line is indented, spell nothing. -/
theorem Spells.lineBreak (depth : Nat) {t : Text} {ts : List Token} (ht : Spells t ts) :
    Spells (lineBreak depth ++ t) ts := by
  have hblanks : ∀ n, Spells (List.replicate n ' ' ++ t) ts := by
    intro n
    induction n with
    | zero => exact ht
    | succ n ih => exact .blank (.inl rfl) ih
  exact .blank (.inr rfl) (hblanks _)

/-! ## Numbers -/

/-- Characters of a word are gathered. -/
theorem read_word {w : Text} (hw : ∀ c ∈ w, isWordChar c = true) (done : List Token)
    (before rest : Text) :
    Lexer.read ⟨done, .word before⟩ (w ++ rest) =
      Lexer.read ⟨done, .word (w.reverse ++ before)⟩ rest := by
  induction w generalizing before with
  | nil => rfl
  | cons c w ih =>
    have hstep : Lexer.step ⟨done, .word before⟩ c = some ⟨done, .word (c :: before)⟩ := by
      rw [Lexer.step, if_pos (hw c List.mem_cons_self)]
    rw [List.cons_append, Lexer.read, hstep, Option.bind_some,
      ih (fun c hc => hw c (List.mem_cons_of_mem _ hc)), List.reverse_cons, List.append_assoc]
    rfl

/-- A word ends where a text begins that does not go on it. -/
theorem read_word_end {w : Text} {a : Atom} (ha : readWord? w.reverse = some a)
    (done : List Token) {rest : Text} (hrest : Ends rest) :
    Lexer.read ⟨done, .word w⟩ rest = Lexer.read ⟨.atom a :: done, .between⟩ rest := by
  cases rest with
  | nil => rw [Lexer.read, Lexer.read, Lexer.finish, Lexer.finish, ha, Option.map_some]
  | cons c rest =>
    have hstep : Lexer.step ⟨done, .word w⟩ c = Lexer.start (.atom a :: done) c := by
      rw [Lexer.step, if_neg (by simp [ends_cons.mp hrest]), ha, Option.bind_some]
    rw [Lexer.read, Lexer.read, hstep]
    rfl

/-- A word spells the atom that it stands for. -/
theorem Spells.word {w : Text} {a : Atom} (ha : readWord? w = some a) (hne : w ≠ [])
    (hw : ∀ c ∈ w, isWordChar c = true) : Spells w [.atom a] := by
  obtain ⟨c, w, rfl⟩ := List.exists_cons_of_ne_nil hne
  intro done rest hrest
  have hstart : Lexer.step ⟨done, .between⟩ c = some ⟨done, .word [c]⟩ := by
    rw [Lexer.step, Lexer.start, if_pos (hw c List.mem_cons_self)]
  rw [List.cons_append, Lexer.read, hstart, Option.bind_some,
    read_word (fun c hc => hw c (List.mem_cons_of_mem _ hc)), ← List.reverse_cons,
    read_word_end (by rwa [List.reverse_reverse]) done hrest]
  rfl

/-- Only zero is written with a zero first. -/
theorem head?_decimal (n : Nat) : (decimal n).head? = some '0' ↔ n = 0 := by
  induction n using Nat.strongRecOn with
  | ind n ih =>
    by_cases hn : n < 10
    · rw [decimal, Nat.toDigits_of_lt_base hn, List.head?_cons, Option.some.injEq,
        Nat.digitChar_eq_zero]
    · have hsplit : decimal n = decimal (n / 10) ++ [(n % 10).digitChar] :=
        Nat.toDigits_of_base_le (by decide) (by omega)
      have hne : decimal (n / 10) ≠ [] := Nat.toDigits_ne_nil
      rw [hsplit, List.head?_append_of_ne_nil _ hne, ih (n / 10) (by omega)]
      omega

/-- A number is written in digits. -/
theorem isDigit_of_mem_decimal {n : Nat} {c : Char} (hc : c ∈ decimal n) : c.isDigit = true :=
  Nat.isDigit_of_mem_toDigits (by decide) (by decide) hc

/-- A number is read back from its digits. -/
theorem readUnsigned?_decimal (n : Nat) : readUnsigned? (decimal n) = some (.ofNat n) := by
  have hwhole : (decimal n).takeWhile Char.isDigit = decimal n :=
    List.takeWhile_eq_self_iff.mpr fun c hc => isDigit_of_mem_decimal hc
  have hrest : (decimal n).dropWhile Char.isDigit = [] :=
    List.dropWhile_eq_nil_iff.mpr fun c hc => isDigit_of_mem_decimal hc
  have hzero : (decimal n).head? = some '0' → (decimal n).length = 1 := by
    intro h
    rw [(head?_decimal n).mp h]
    rfl
  have hgood : ¬(decimal n = [] ∨ (decimal n).head? = some '0' ∧ (decimal n).length ≠ 1) := by
    rintro (h | ⟨h, hlength⟩)
    · exact Nat.toDigits_ne_nil h
    · exact hlength (hzero h)
  simp only [readUnsigned?, hwhole, hrest, if_neg hgood, readFraction?, readExponent?,
    Option.bind_eq_bind, Option.bind_some, List.append_nil]
  rw [decimal, Nat.ofDigitChars_ten_toDigits]
  rfl

/-- A word that begins with none of these letters and is not negative is a number. -/
theorem readWord?_cons {c : Char} {w : Text} (hn : c ≠ 'n') (ht : c ≠ 't') (hf : c ≠ 'f')
    (hminus : c ≠ '-') : readWord? (c :: w) = (readUnsigned? (c :: w)).map .number := by
  have hfirst : ∀ (d : Char) (u : Text), c ≠ d → c :: w ≠ d :: u :=
    fun d u hd h => hd (List.cons.inj h).1
  have hnull : c :: w ≠ "null".toList := hfirst 'n' ['u', 'l', 'l'] hn
  have htrue : c :: w ≠ "true".toList := hfirst 't' ['r', 'u', 'e'] ht
  have hfalse : c :: w ≠ "false".toList := hfirst 'f' ['a', 'l', 's', 'e'] hf
  unfold readWord?
  rw [if_neg hnull, if_neg htrue, if_neg hfalse]
  split
  · next u h => exact absurd h (hfirst '-' u hminus)
  · rfl

/-- The word of a number's digits is the number. -/
theorem readWord?_decimal (n : Nat) : readWord? (decimal n) = some (.number (.ofNat n)) := by
  have hne : decimal n ≠ [] := Nat.toDigits_ne_nil
  obtain ⟨c, w, hw⟩ := List.exists_cons_of_ne_nil hne
  have hdigit : c.isDigit = true := isDigit_of_mem_decimal (n := n) (by rw [hw]; simp)
  have hother : ∀ d : Char, d.isDigit = false → c ≠ d := by
    rintro d hd rfl
    rw [hd] at hdigit
    exact Bool.false_ne_true hdigit
  rw [hw, readWord?_cons (hother _ rfl) (hother _ rfl) (hother _ rfl) (hother _ rfl), ← hw,
    readUnsigned?_decimal, Option.map_some]

/-- Digits spell the number they are written for. -/
theorem spells_decimal (n : Nat) : Spells (decimal n) [.atom (.number (.ofNat n))] :=
  .word (readWord?_decimal n) Nat.toDigits_ne_nil fun c hc => by
    have hdigit := isDigit_of_mem_decimal hc
    simp [isWordChar, Char.isAlphanum, hdigit]

/-! ## Texts -/

/-- A hexadecimal digit is read back. -/
theorem hexValue?_hexDigit (n : Nat) : hexValue? (hexDigit n) = some (n % 16) := by
  have hall : ∀ m < 16, hexValue? (Nat.digitChar m) = some m := by decide
  exact hall _ (Nat.mod_lt _ (by decide))

/-- A digit of an escape by number is added to those before it. -/
theorem step_code {c : Char} {digit : Nat} (hc : hexValue? c = some digit) (done : List Token)
    (units : List Nat) (value owed : Nat) :
    Lexer.step ⟨done, .code units value owed⟩ c =
      some (if owed ≤ 1 then ⟨done, .quoted ((16 * value + digit) :: units)⟩
        else ⟨done, .code units (16 * value + digit) (owed - 1)⟩) := by
  rw [Lexer.step, hc]
  rfl

/-- An escape is read as the character that it was made for. -/
theorem read_escape (c : Char) (done : List Token) (units : List Nat) (rest : Text) :
    Lexer.read ⟨done, .quoted units⟩ (escape c ++ rest) =
      Lexer.read ⟨done, .quoted (c.toNat :: units)⟩ rest := by
  unfold escape
  split
  · next h => subst h; rfl
  split
  · next h => subst h; rfl
  split
  · next h => subst h; rfl
  split
  · next h => subst h; rfl
  split
  · next h => subst h; rfl
  split
  · next h => subst h; rfl
  split
  · next h => subst h; rfl
  split
  · next h =>
    -- of the four digits of an escape by number, the first two are zero
    have hzero : hexValue? '0' = some 0 := rfl
    have hvalue : 16 * (16 * (16 * (16 * 0 + 0) + 0) + c.toNat / 16 % 16) + c.toNat % 16 =
        c.toNat := by omega
    change Lexer.read ⟨done, .code units 0 4⟩
      ('0' :: '0' :: hexDigit (c.toNat / 16) :: hexDigit c.toNat :: rest) = _
    rw [Lexer.read, step_code hzero, if_neg (by decide), Option.bind_some,
      Lexer.read, step_code hzero, if_neg (by decide), Option.bind_some,
      Lexer.read, step_code (hexValue?_hexDigit _), if_neg (by decide), Option.bind_some,
      Lexer.read, step_code (hexValue?_hexDigit _), if_pos (by decide), Option.bind_some, hvalue]
  · next hquote hslash _ _ _ _ _ hcontrol =>
    have hstep : Lexer.step ⟨done, .quoted units⟩ c = some ⟨done, .quoted (c.toNat :: units)⟩ := by
      rw [Lexer.step, if_neg hquote, if_neg hslash, if_neg hcontrol]
    rw [List.singleton_append, Lexer.read, hstep, Option.bind_some]

/-- Inside quotes, escaped characters are read back as themselves. -/
theorem read_flatMap_escape (t : Text) (done : List Token) (units : List Nat) (rest : Text) :
    Lexer.read ⟨done, .quoted units⟩ (t.flatMap escape ++ rest) =
      Lexer.read ⟨done, .quoted ((t.map Char.toNat).reverse ++ units)⟩ rest := by
  induction t generalizing units with
  | nil => rfl
  | cons c t ih =>
    rw [List.flatMap_cons, List.append_assoc, read_escape, ih, List.map_cons,
      List.reverse_cons, List.append_assoc]
    rfl

/-- The code points of a text are none of the surrogates, and give back the text. -/
theorem joinUnits_map_toNat (t : Text) : joinUnits (t.map Char.toNat) = some t := by
  induction t with
  | nil => rfl
  | cons c t ih =>
    have hvalid : c.toNat < 0xD800 ∨ (0xDFFF < c.toNat ∧ c.toNat < 0x110000) := c.valid
    have hhigh : ¬(0xD800 ≤ c.toNat ∧ c.toNat < 0xDC00) := by omega
    have hlow : ¬(0xDC00 ≤ c.toNat ∧ c.toNat < 0xE000) := by omega
    rw [List.map_cons, joinUnits.eq_def]
    simp only [if_neg hhigh, if_neg hlow, ih, Option.map_some, Char.ofNat_toNat]

/-- A text between quotes spells itself. -/
theorem spells_quote (t : Text) : Spells (quote t) [.atom (.text t)] := by
  intro done rest _
  have hopen : Lexer.step ⟨done, .between⟩ '"' = some ⟨done, .quoted []⟩ := rfl
  have hclose : Lexer.step ⟨done, .quoted (t.map Char.toNat).reverse⟩ '"' =
      some ⟨.atom (.text t) :: done, .between⟩ := by
    rw [Lexer.step, if_pos rfl, List.reverse_reverse, joinUnits_map_toNat, Option.map_some]
  rw [quote, List.cons_append, List.cons_append, Lexer.read, hopen, Option.bind_some,
    List.append_assoc, read_flatMap_escape, List.append_nil, List.singleton_append,
    Lexer.read, hclose]
  rfl

/-! ## Records and lists of records -/

/-- The value of a member, as an atom. -/
def Scalar.atom : Scalar → Atom
  | .text t => .text t
  | .number n => .number (.ofNat n)

/-- The value that a record is. -/
def Record.value (r : Record) : Value := .object (r.map fun m => (m.1, .atom m.2.atom))

/-- What a scalar is written as spells the scalar. -/
theorem spells_scalar (s : Scalar) : Spells s.write [.atom s.atom] := by
  cases s with
  | text t => exact spells_quote t
  | number n => exact spells_decimal n

/-- Pieces with commas between them spell what each of them spells. -/
theorem Spells.intercalate {pieces : List Text} {tss : List (List Token)}
    (h : List.Forall₂ Spells pieces tss) :
    Spells ([','].intercalate pieces) ([.comma].intercalate tss) := by
  induction h with
  | nil => exact .nil
  | @cons t ts pieces tss ht hrest ih =>
    cases hrest with
    | nil => simpa using ht
    | cons hu hus =>
      rw [List.intercalate_cons_cons, List.intercalate_cons_cons, List.append_assoc,
        List.append_assoc]
      exact ht.append (.mark rfl ih) (ends_cons.mpr rfl)

/-- Pieces between two marks, with commas between them and blanks at will before the last
mark. -/
theorem Spells.bracketed {opening : Char} {mopen mclose : Token} {pieces : List Text}
    {tss : List (List Token)} {closing : Text} (hopen : mark? opening = some mopen)
    (h : List.Forall₂ Spells pieces tss) (hclose : Spells closing [mclose])
    (hends : Ends closing) :
    Spells (opening :: [','].intercalate pieces ++ closing)
      (mopen :: [.comma].intercalate tss ++ [mclose]) :=
  .mark hopen ((Spells.intercalate h).append hclose hends)

/-- If a member is spelled with its key and a colon, the members of a record are spelled in turn.
-/
theorem forall₂_spells_members {write : Text × Scalar → Text}
    (hwrite : ∀ m, Spells (write m) [.atom (.text m.1), .colon, .atom m.2.atom]) (r : Record) :
    List.Forall₂ Spells (r.map write) (memberTokens (r.map fun m => (m.1, .atom m.2.atom))) := by
  induction r with
  | nil => exact .nil
  | cons m r ih => exact .cons (hwrite m) ih

/-- A member without blanks spells its key, a colon and its value. -/
theorem spells_compactMember (m : Text × Scalar) :
    Spells (compactMember m) [.atom (.text m.1), .colon, .atom m.2.atom] :=
  (spells_quote m.1).append (.mark rfl (spells_scalar m.2)) (ends_cons.mpr rfl)

/-- A member with a blank after its colon spells the same. -/
theorem spells_indentedMember (m : Text × Scalar) :
    Spells (indentedMember m) [.atom (.text m.1), .colon, .atom m.2.atom] :=
  (spells_quote m.1).append (.mark rfl (.blank (.inl rfl) (spells_scalar m.2)))
    (ends_cons.mpr rfl)

/-- A record in compact layout spells the object that it is. -/
theorem spells_compact (r : Record) : Spells (compact r) (Record.value r).tokens :=
  .bracketed rfl (forall₂_spells_members spells_compactMember r) (.mark rfl .nil)
    (ends_cons.mpr rfl)

/-- A list in the indented layout, at any level, spells what its items spell. -/
theorem spells_indentedList {opening closing : Char} {mopen mclose : Token}
    (hopen : mark? opening = some mopen) (hclose : mark? closing = some mclose) (depth : Nat)
    {items : List Text} {tss : List (List Token)} (h : List.Forall₂ Spells items tss) :
    Spells (indentedList opening closing depth items)
      (mopen :: [.comma].intercalate tss ++ [mclose]) := by
  have hbroken : List.Forall₂ Spells (items.map (lineBreak (depth + 1) ++ ·)) tss :=
    List.forall₂_map_left_iff.mpr (h.imp fun _ _ ht => ht.lineBreak (depth + 1))
  cases h with
  | nil => exact .mark hopen (.mark hclose .nil)
  | cons =>
    rw [indentedList, if_neg (by simp), List.append_assoc]
    exact .bracketed hopen hbroken (.lineBreak depth (.mark hclose .nil)) (ends_cons.mpr rfl)

/-- A record in the indented layout, at any level, spells the object that it is. -/
theorem spells_indentedRecord (depth : Nat) (r : Record) :
    Spells (indentedRecord depth r) (Record.value r).tokens :=
  spells_indentedList rfl rfl depth (forall₂_spells_members spells_indentedMember r)

/-- A list of records in the indented layout spells the list of what they are. -/
theorem spells_indented (rs : List Record) :
    Spells (indented rs) (Value.list (rs.map Record.value)).tokens := by
  have hitems : List.Forall₂ Spells (rs.map (indentedRecord 1))
      (itemTokens (rs.map Record.value)) := by
    induction rs with
    | nil => exact .nil
    | cons r rs ih => exact .cons (spells_indentedRecord 1 r) ih
  exact spells_indentedList rfl rfl 0 hitems

/-- A record in compact layout is read as the object that it is. -/
theorem decode_compact (r : Record) : decode (compact r) = some (Record.value r) :=
  (spells_compact r).decode_eq

/-- A list of records in the indented layout is read as the list of what they are. -/
theorem decode_indented (rs : List Record) :
    decode (indented rs) = some (.list (rs.map Record.value)) :=
  (spells_indented rs).decode_eq

/-! ## Records on one line -/

/-- A newline is escaped. -/
theorem newline_not_mem_escape (c : Char) : '\n' ∉ escape c := by
  have hdigit : ∀ n, hexDigit n ≠ '\n' := by
    intro n
    have hall : ∀ m < 16, Nat.digitChar m ≠ '\n' := by decide
    exact hall _ (Nat.mod_lt _ (by decide))
  by_cases hc : c = '\n'
  · subst hc
    decide
  · unfold escape
    split_ifs <;> first | decide | simp [(hdigit _).symm, Ne.symm hc]

/-- No text has a newline once it is quoted. -/
theorem newline_not_mem_quote (t : Text) : '\n' ∉ quote t := by
  simp [quote, newline_not_mem_escape]

theorem newline_not_mem_decimal (n : Nat) : '\n' ∉ decimal n := fun h => by
  have hdigit := isDigit_of_mem_decimal h
  exact absurd hdigit (by decide)

/-- A member without blanks takes no new line. -/
theorem newline_not_mem_compactMember (m : Text × Scalar) : '\n' ∉ compactMember m := by
  have hvalue : '\n' ∉ m.2.write := by
    cases m.2 with
    | text t => exact newline_not_mem_quote t
    | number n => exact newline_not_mem_decimal n
  simp [compactMember, newline_not_mem_quote, hvalue]

/-- Whatever its texts hold, a record in compact layout has no new line in it. -/
theorem newline_not_mem_compact (r : Record) : '\n' ∉ compact r := by
  cases r with
  | nil => decide
  | cons m r =>
    rw [compact, List.map_cons, intercalate_cons]
    simp [newline_not_mem_compactMember]

end LineLimit.Json
