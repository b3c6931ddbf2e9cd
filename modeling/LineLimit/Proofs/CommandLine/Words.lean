import LineLimit.Proofs.CommandLine.Choices

/-!
# The words that spell options

A flag is spelled by its long name or by its letter, letters together in one word, and an
option with a value in one word or in two (`Spelling`). Words that spell options are read as
these options, one after the other (`Reader.Ready.written`); after a `--`, the two operands
are read, whatever they look like (`Reader.Ready.operands`).

An option with its value is looked at only when the next word is read. So what is compared
with the options read so far is not the reader but what it knows once it has looked at the
pending word (`Reader.look`).
-/

namespace LineLimit.CommandLine

/-- The option by its long name. -/
def dashed (s : Setting) : Text := '-' :: '-' :: s.long

/-- The ways to spell an option, or several flags at once. -/
inductive Spelling : List Choice → List Bytes → Prop
  /-- A flag by its long name. -/
  | long {c : Choice} : c.value? = none → Spelling [c] [utf8 (dashed c.setting)]
  /-- Flags by their letters, in one word. -/
  | letters {settings : List Setting} {letters : Text} : settings ≠ [] →
    settings.map Setting.letter = letters.map some →
    Spelling (settings.map .flag) [utf8 ('-' :: letters)]
  /-- An option and its value, in one word. -/
  | joined {c : Choice} {t : Text} : c.value? = some t →
    Spelling [c] [utf8 (dashed c.setting ++ '=' :: t)]
  /-- An option and its value, in two words. -/
  | apart {c : Choice} {t : Text} : c.value? = some t →
    Spelling [c] [utf8 (dashed c.setting), utf8 t]

/-- The words spell the options, in this order. -/
inductive Written : List Choice → List Bytes → Prop
  | nil : Written [] []
  | append {cs cs' : List Choice} {words words' : List Bytes} : Spelling cs words →
    Written cs' words' → Written (cs ++ cs') (words ++ words')

variable {cs cs' : List Choice} {c : Choice} {f f' : Found}

/-! ## The words of one option -/

namespace Reader

variable {rd rd' : Reader} {s : Setting}

/-- What is known once the pending word has been looked at. -/
def look (rd : Reader) : Except UsageError Found :=
  match rd.pending with
  | none => .ok rd.found
  | some (.waiting s) => .error (.noValue s)
  | some (.setting s value) => rd.found.set s value
  | some (.operand o value) => rd.found.setOperand o value

/-- To settle is to look, and to wait for nothing any more. -/
theorem settle_eq (rd : Reader) :
    rd.settle = rd.look.map fun found => { rd with found := found, pending := none } := by
  unfold settle look
  cases rd.pending with
  | none => rfl
  | some pending =>
    cases pending with
    | waiting s => rfl
    | setting s value => cases rd.found.set s value <;> rfl
    | operand o value => cases rd.found.setOperand o value <;> rfl

/-- The reader has read options only, and they say this. -/
structure Ready (rd : Reader) (f : Found) : Prop where
  look_eq : rd.look = .ok f
  operands_eq : rd.operands = 0
  onlyOperands_eq : rd.onlyOperands = false

theorem ready_found (f : Found) : Ready { found := f } f := ⟨rfl, rfl, rfl⟩

/-- A reader that is ready settles for what it has found. -/
theorem Ready.settle_eq_ok (h : rd.Ready f) : rd.settle = .ok { found := f } := by
  rw [settle_eq, h.look_eq, Except.map, h.operands_eq, h.onlyOperands_eq]

/-- A flag is raised by a reader that is ready, as long as it is not that for help. -/
theorem Ready.flag (h : rd.Ready f) (hs : s ≠ .help) (hf : f.raise s = .ok f')
    (byLetter : Bool) : rd.flag s byLetter = .ok { found := f' } := by
  unfold Reader.flag
  rw [h.settle_eq_ok]
  simp only [Except.mapError, bind, Except.bind, if_neg hs, hf]

/-- Letters in one word are flags one after the other. -/
theorem Ready.letters {settings : List Setting} {letters : Text} (h : rd.Ready f)
    (hnotes : f.Notes cs) (hcs : Orderly (cs ++ settings.map .flag))
    (hletters : settings.map Setting.letter = letters.map some) :
    ∃ rd', rd.letters (letters.map some) = .ok rd' ∧
      rd'.Ready ((settings.map .flag).foldl Found.add f) := by
  induction settings generalizing rd f cs letters with
  | nil =>
    obtain rfl := List.map_eq_nil_iff.mp hletters.symm
    exact ⟨rd, rfl, h⟩
  | cons s settings ih =>
    obtain ⟨c, letters, rfl, hc, hrest⟩ := List.map_eq_cons_iff.mp hletters.symm
    have hsplit : cs ++ (s :: settings).map .flag = (cs ++ [.flag s]) ++ settings.map .flag := by
      simp
    rw [hsplit] at hcs
    have hfirst := hcs.sublist (List.sublist_append_left ..)
    obtain ⟨-, hhelp, -⟩ := hfirst.asks s (by simp)
    have hflag := h.flag hhelp (hnotes.raise hfirst) true
    obtain ⟨rd', hrd', hready⟩ := ih (ready_found _) (hnotes.add hfirst) hcs hrest.symm
    refine ⟨rd', ?_, hready⟩
    rw [List.map_cons, Reader.letters, Setting.ofLetter?_letter hc.symm]
    simp only [hflag, bind, Except.bind]
    exact hrd'

/-! ### Which word is read how -/

/-- After two dashes comes a long name, and its value if there is a `=`. -/
theorem step_dashes {rest : Bytes} (h : rd.onlyOperands = false) (hrest : rest ≠ []) :
    rd.step (0x2D :: 0x2D :: rest) = rd.long (rest.takeWhile (· ≠ 0x3D))
      ((rest.drop (rest.takeWhile (· ≠ 0x3D)).length).tail?) := by
  obtain ⟨b, rest, rfl⟩ := List.exists_cons_of_ne_nil hrest
  unfold step
  rw [h]
  rfl

/-- After one dash come letters. -/
theorem step_dash {b : UInt8} {rest : Bytes} (h : rd.onlyOperands = false) (hb : b ≠ 0x2D) :
    rd.step (0x2D :: b :: rest) = rd.letters (Utf8.decode (b :: rest)) := by
  unfold step
  rw [h]
  simp only [Bool.false_eq_true, if_false]
  split
  · next heq => simp_all
  · next heq => simp_all
  · next heq => simp_all
  · next hno => exact absurd rfl (hno b rest)

/-- The next word is the value of an option that waits for one. -/
theorem step_value {word : Bytes} (h : rd.onlyOperands = false)
    (hpending : rd.pending = some (.waiting s)) (hword : word.head? ≠ some 0x2D) :
    rd.step word = .ok { rd with pending := some (.setting s word) } := by
  unfold step
  rw [h]
  simp only [Bool.false_eq_true, if_false]
  split
  · exact absurd rfl hword
  · exact absurd rfl hword
  · exact absurd rfl hword
  · rw [hpending]

theorem utf8_dashed (s : Setting) : utf8 (dashed s) = 0x2D :: 0x2D :: utf8 s.long := by
  rw [dashed, utf8_cons, utf8_cons '-' s.long]
  rfl

/-- Every option has a long name. -/
theorem utf8_long_ne_nil (s : Setting) : utf8 s.long ≠ [] := by
  cases s <;> decide

/-- No long name has a `=` in it. -/
theorem takeWhile_utf8_long (s : Setting) (rest : Bytes) :
    (utf8 s.long ++ rest).takeWhile (· ≠ 0x3D) = utf8 s.long ++ rest.takeWhile (· ≠ 0x3D) := by
  have hno : ∀ b ∈ utf8 s.long, decide (b ≠ 0x3D) = true := by
    cases s <;> decide +kernel
  exact List.takeWhile_append_of_pos hno

/-- The long name alone has no value. -/
theorem step_dashed (h : rd.onlyOperands = false) (s : Setting) :
    rd.step (utf8 (dashed s)) = rd.long (utf8 s.long) none := by
  have hname := takeWhile_utf8_long s []
  rw [List.append_nil, List.takeWhile_nil, List.append_nil] at hname
  rw [utf8_dashed, step_dashes h (utf8_long_ne_nil s), hname, List.drop_length]
  rfl

/-- What comes after the first `=` is the value, whatever is in it. -/
theorem step_joined (h : rd.onlyOperands = false) (s : Setting) (t : Text) :
    rd.step (utf8 (dashed s ++ '=' :: t)) = rd.long (utf8 s.long) (some (utf8 t)) := by
  have hword : utf8 (dashed s ++ '=' :: t) = 0x2D :: 0x2D :: (utf8 s.long ++ 0x3D :: utf8 t) := by
    rw [utf8_append, utf8_dashed, utf8_cons]
    rfl
  have hname : (utf8 s.long ++ 0x3D :: utf8 t).takeWhile (· ≠ 0x3D) = utf8 s.long := by
    rw [takeWhile_utf8_long]
    simp
  rw [hword, step_dashes h (by simp [utf8_long_ne_nil s]), hname, List.drop_left]
  rfl

/-- The letters of flags are no dashes. -/
theorem step_letters {s : Setting} {c : Char} (h : rd.onlyOperands = false)
    (hc : s.letter = some c) (letters : Text) :
    rd.step (utf8 ('-' :: c :: letters)) = rd.letters ((c :: letters).map some) := by
  obtain ⟨b, hb, hbyte⟩ : ∃ b : UInt8, b ≠ 0x2D ∧ utf8 [c] = [b] := by
    cases s <;> simp only [Setting.letter, Option.some.injEq, reduceCtorEq] at hc <;> subst hc <;>
      exact ⟨_, by decide, rfl⟩
  have hrest : utf8 (c :: letters) = b :: utf8 letters := by
    rw [utf8_cons, hbyte]
    rfl
  have hword : utf8 ('-' :: c :: letters) = 0x2D :: b :: utf8 letters := by
    rw [utf8_cons, hrest]
    rfl
  rw [hword, step_dash h hb, ← hrest, Utf8.decode_utf8]

/-- An option that takes a value waits for it where none is joined to its name. -/
theorem long_waiting (hs : s.takesValue = true) :
    rd.long (utf8 s.long) none =
      (rd.settle.map ({ · with pending := some (.waiting s) })).mapError .misuse := by
  unfold long
  rw [readUtf8?_utf8, Option.bind_some, Setting.ofLong?_long]
  simp only [hs, if_true]

/-- An option that takes a value is set at once where it is joined to its name. -/
theorem long_value (hs : s.takesValue = true) (value : Bytes) :
    rd.long (utf8 s.long) (some value) = (do
      let rd ← rd.settle.mapError .misuse
      let found ← (rd.found.set s value).mapError .misuse
      .ok { rd with found := found }) := by
  unfold long
  rw [readUtf8?_utf8, Option.bind_some, Setting.ofLong?_long]
  simp only [hs, if_true]

/-- An option that takes no value is raised. -/
theorem long_flag (hs : s.takesValue = false) :
    rd.long (utf8 s.long) none = rd.flag s false := by
  unfold long
  rw [readUtf8?_utf8, Option.bind_some, Setting.ofLong?_long]
  simp only [hs, Bool.false_eq_true, if_false]

/-- Only an option that takes a value is given one. -/
theorem takesValue_of_value? {t : Text} (ht : c.value? = some t) : c.setting.takesValue = true := by
  cases c with
  | flag s => exact nomatch ht
  | format x => rfl
  | logFormat x => rfl

/-- No value of an option looks like an option. -/
theorem head?_utf8_value {t : Text} (ht : c.value? = some t) : (utf8 t).head? ≠ some 0x2D := by
  cases c with
  | flag s => exact nomatch ht
  | format x => obtain rfl := Option.some.inj ht; cases x <;> decide
  | logFormat x => obtain rfl := Option.some.inj ht; cases x <;> decide

/-- The words that spell an option are read as this option. -/
theorem Ready.spelling {words : List Bytes} (hwords : Spelling cs' words) (h : rd.Ready f)
    (hnotes : f.Notes cs) (hcs : Orderly (cs ++ cs')) :
    ∃ rd', words.foldlM step rd = .ok rd' ∧ rd'.Ready (cs'.foldl Found.add f) := by
  have hone : ∀ {word : Bytes} {rd' : Reader}, rd.step word = .ok rd' →
      [word].foldlM step rd = .ok rd' := fun hstep => by rw [List.foldlM_cons, hstep]; rfl
  cases hwords with
  | @long c hc =>
    cases c with
    | format x => exact nomatch hc
    | logFormat x => exact nomatch hc
    | flag s =>
      obtain ⟨hvalue, hhelp, -⟩ := hcs.asks s (by simp)
      refine ⟨_, hone ?_, ready_found _⟩
      rw [step_dashed h.onlyOperands_eq]
      exact (long_flag hvalue).trans (h.flag hhelp (hnotes.raise hcs) false)
  | @letters settings letters hne hletters =>
    obtain ⟨rd', hrd', hready⟩ := h.letters hnotes hcs hletters
    refine ⟨rd', hone ?_, hready⟩
    obtain ⟨s, settings, rfl⟩ := List.exists_cons_of_ne_nil hne
    obtain ⟨c, letters, rfl, hc, -⟩ := List.map_eq_cons_iff.mp hletters.symm
    exact (step_letters h.onlyOperands_eq hc.symm letters).trans hrd'
  | @joined c t ht =>
    refine ⟨_, hone ?_, ready_found _⟩
    rw [step_joined h.onlyOperands_eq, long_value (takesValue_of_value? ht)]
    simp only [h.settle_eq_ok, hnotes.set hcs ht, Except.mapError, bind, Except.bind]
    rfl
  | @apart c t ht =>
    -- the value is looked at only when the next word is read
    let asked : Reader := { found := f, pending := some (.waiting c.setting) }
    have hfirst : rd.step (utf8 (dashed c.setting)) = .ok asked := by
      rw [step_dashed h.onlyOperands_eq, long_waiting (takesValue_of_value? ht), h.settle_eq_ok]
      rfl
    let given : Reader := { found := f, pending := some (.setting c.setting (utf8 t)) }
    have hsecond : asked.step (utf8 t) = .ok given := step_value rfl rfl (head?_utf8_value ht)
    refine ⟨given, ?_, ?_, rfl, rfl⟩
    · rw [List.foldlM_cons, hfirst]
      exact (bind_pure _).trans hsecond
    · exact hnotes.set hcs ht

/-- Words that spell options are read as these options, one after the other. -/
theorem Ready.written {words : List Bytes} (hwords : Written cs' words) (h : rd.Ready f)
    (hnotes : f.Notes cs) (hcs : Orderly (cs ++ cs')) :
    ∃ rd', words.foldlM step rd = .ok rd' ∧ rd'.Ready (cs'.foldl Found.add f) := by
  induction hwords generalizing rd f cs with
  | nil => exact ⟨rd, rfl, h⟩
  | append hfirst _ ih =>
    rw [← List.append_assoc] at hcs
    have hbefore := hcs.sublist (List.sublist_append_left ..)
    obtain ⟨rd₁, hrd₁, hready₁⟩ := h.spelling hfirst hnotes hbefore
    obtain ⟨rd', hrd', hready'⟩ := ih hready₁ (hnotes.foldl_add hbefore) hcs
    refine ⟨rd', ?_, ?_⟩
    · rw [List.foldlM_append, hrd₁]
      exact hrd'
    · rw [List.foldl_append]
      exact hready'

/-! ## The operands -/

/-- After the options, both operands are read, whatever they look like; the limit is not yet
looked at. -/
theorem Ready.operands (h : rd.Ready f) (pattern : Text) (limit : Bytes) :
    [utf8 ['-', '-'], utf8 pattern, limit].foldlM step rd =
      .ok ⟨{ f with pattern := some pattern }, some (.operand .maxLen limit), 2, true⟩ := by
  obtain ⟨found, pending, operands, onlyOperands⟩ := rd
  obtain ⟨hlook, rfl, rfl⟩ := h
  have hdashes : step ⟨found, pending, 0, false⟩ (utf8 ['-', '-']) =
      .ok ⟨found, pending, 0, true⟩ := rfl
  have hpattern : step ⟨found, pending, 0, true⟩ (utf8 pattern) =
      .ok ⟨f, some (.operand .pattern (utf8 pattern)), 1, true⟩ := by
    have hlook' : look ⟨found, pending, 0, true⟩ = .ok f := hlook
    simp only [step, if_true, operand, settle_eq, hlook', Except.map, Except.mapError]
  have hlimit : step ⟨f, some (.operand .pattern (utf8 pattern)), 1, true⟩ limit =
      .ok ⟨{ f with pattern := some pattern }, some (.operand .maxLen limit), 2, true⟩ := by
    simp only [step, if_true, operand, settle_eq, look, Found.setOperand, readUtf8?_utf8,
      Except.map, Except.mapError]
  rw [List.foldlM_cons, hdashes]
  show List.foldlM step _ [utf8 pattern, limit] = _
  rw [List.foldlM_cons, hpattern]
  show List.foldlM step _ [limit] = _
  rw [List.foldlM_cons, hlimit]
  rfl

end Reader

end LineLimit.CommandLine
