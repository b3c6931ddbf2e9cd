import LineLimit.Glob.Language
import Mathlib.Computability.Language

/-!
# The language of a glob

The byte strings that a glob stands for are a language, and what stands next to
each other in a glob is multiplied:

> `language_append`: `language ic (ts ++ us) = language ic ts * language ic us`.

The three forms of `**` are then products of a slash, of any number of
directories, and of anything at all (`language_between`, `language_trailing`).
-/

namespace LineLimit.Glob

variable {ignoreCase : Bool}

/-- The byte strings that a token stands for. -/
def Token.language (ignoreCase : Bool) (t : Token) : Language UInt8 :=
  {s | t.StandsFor ignoreCase s}

/-- The byte strings that a sequence of tokens stands for. -/
def language (ignoreCase : Bool) (ts : Tokens) : Language UInt8 :=
  {s | StandsFor ignoreCase ts s}

/-- The byte strings that one of the branches stands for. -/
def languageOfSome (ignoreCase : Bool) (branches : List Tokens) : Language UInt8 :=
  {s | SomeStandsFor ignoreCase branches s}

/-- One byte that `q` admits. -/
def oneByte (q : UInt8 → Bool) : Language UInt8 := {s | ∃ b, s = [b] ∧ q b = true}

/-- One byte for each byte of `bs`, the same up to `same`. -/
def alike (same : UInt8 → UInt8 → Bool) (bs : Bytes) : Language UInt8 :=
  {s | List.Forall₂ (fun a b => same a b = true) bs s}

/-- Text without a slash. -/
def slashFree : Language UInt8 := {s | slash ∉ s}

/-- Text that ends with a slash. -/
def slashed : Language UInt8 := {s | s.getLast? = some slash}

/-! ## Products of languages, byte by byte -/

/-- A product has the empty string if and only if both factors have it. -/
theorem nil_mem_mul {L M : Language UInt8} : [] ∈ L * M ↔ [] ∈ L ∧ [] ∈ M := by
  rw [Language.mem_mul]
  constructor
  · intro ⟨a, ha, b, hb, hab⟩
    obtain ⟨rfl, rfl⟩ := List.append_eq_nil_iff.mp hab
    exact ⟨ha, hb⟩
  · intro ⟨ha, hb⟩
    exact ⟨[], ha, [], hb, rfl⟩

/-- A string of a product that starts with `b` takes it from the second factor, where the first
gives nothing, or else from the first. -/
theorem cons_mem_mul {L M : Language UInt8} {s : Bytes} {b : UInt8} :
    b :: s ∈ L * M ↔
      ([] ∈ L ∧ b :: s ∈ M) ∨ ∃ a c, b :: a ∈ L ∧ c ∈ M ∧ a ++ c = s := by
  rw [Language.mem_mul]
  constructor
  · intro ⟨a, ha, c, hc, hac⟩
    cases a with
    | nil =>
      obtain rfl : c = b :: s := hac
      exact .inl ⟨ha, hc⟩
    | cons x a =>
      rw [List.cons_append, List.cons.injEq] at hac
      obtain ⟨rfl, hac⟩ := hac
      exact .inr ⟨a, c, ha, hc, hac⟩
  · intro hcases
    rcases hcases with ⟨ha, hc⟩ | ⟨a, c, ha, hc, rfl⟩
    · exact ⟨[], ha, b :: s, hc, rfl⟩
    · exact ⟨b :: a, ha, c, hc, rfl⟩

theorem nil_mem_oneByte_mul {M : Language UInt8} {q : UInt8 → Bool} : [] ∉ oneByte q * M := by
  intro h
  obtain ⟨⟨b, hb, -⟩, -⟩ := nil_mem_mul.mp h
  exact absurd hb (by simp)

/-- One byte is taken off, and the rest is the second factor's. -/
theorem cons_mem_oneByte_mul {M : Language UInt8} {s : Bytes} {q : UInt8 → Bool} {b : UInt8} :
    b :: s ∈ oneByte q * M ↔ q b = true ∧ s ∈ M := by
  rw [cons_mem_mul]
  constructor
  · intro hcases
    rcases hcases with ⟨⟨x, hx, -⟩, -⟩ | ⟨a, c, ⟨x, hx, hq⟩, hc, rfl⟩
    · exact absurd hx (by simp)
    · obtain ⟨rfl, rfl⟩ := List.cons.inj hx
      exact ⟨hq, hc⟩
  · intro ⟨hq, hs⟩
    exact .inr ⟨[], s, ⟨b, rfl, hq⟩, hs, rfl⟩

/-- What is like one string and then another falls into two parts. -/
theorem alike_append {same : UInt8 → UInt8 → Bool} (as bs : Bytes) :
    alike same (as ++ bs) = alike same as * alike same bs := by
  ext s
  rw [Language.mem_mul]
  constructor
  · intro h
    exact ⟨s.take as.length, List.forall₂_take_append s as bs h.flip |>.flip,
      s.drop as.length, List.forall₂_drop_append s as bs h.flip |>.flip, List.take_append_drop ..⟩
  · intro hexists
    obtain ⟨a, ha, b, hb, rfl⟩ := hexists
    exact List.rel_append ha hb

/-- Bytes are like themselves, whether or not case is ignored. -/
theorem mem_alike_self (bs : Bytes) : bs ∈ alike (sameByte ignoreCase) bs :=
  List.forall₂_same.mpr fun b _ => by unfold sameByte; split <;> simp

/-- Behind the bytes themselves comes what may follow them. -/
theorem append_mem_alike_mul {M : Language UInt8} {bs s : Bytes} :
    bs ++ s ∈ alike (sameByte ignoreCase) bs * M ↔ s ∈ M := by
  rw [Language.mem_mul]
  constructor
  · intro ⟨a, ha, b, hb, hab⟩
    obtain ⟨-, rfl⟩ := List.append_inj hab (List.Forall₂.length_eq ha).symm
    exact hb
  · intro hs
    exact ⟨bs, mem_alike_self bs, s, hs, rfl⟩

/-! ## The language of a sequence -/

@[simp]
theorem language_nil : language ignoreCase [] = 1 := by
  ext s
  show s = [] ↔ s ∈ (1 : Language UInt8)
  rw [Language.mem_one]

/-- A token and those after it share the bytes between them. -/
theorem language_cons (t : Token) (ts : Tokens) :
    language ignoreCase (t :: ts) = t.language ignoreCase * language ignoreCase ts := by
  ext s
  show (∃ a b, s = a ++ b ∧ t.StandsFor ignoreCase a ∧ StandsFor ignoreCase ts b) ↔ _
  rw [Language.mem_mul]
  constructor
  · intro hexists
    obtain ⟨a, b, rfl, ha, hb⟩ := hexists
    exact ⟨a, ha, b, hb, rfl⟩
  · intro hexists
    obtain ⟨a, ha, b, hb, rfl⟩ := hexists
    exact ⟨a, b, rfl, ha, hb⟩

theorem language_singleton (t : Token) : language ignoreCase [t] = t.language ignoreCase := by
  rw [language_cons, language_nil, mul_one]

/-- What stands next to each other in a glob is multiplied. -/
theorem language_append (ts us : Tokens) :
    language ignoreCase (ts ++ us) = language ignoreCase ts * language ignoreCase us := by
  induction ts with
  | nil => rw [List.nil_append, language_nil, one_mul]
  | cons t ts ih => rw [List.cons_append, language_cons, ih, language_cons, mul_assoc]

@[simp]
theorem languageOfSome_nil : languageOfSome ignoreCase [] = 0 := by
  ext s
  exact ⟨False.elim, fun h => absurd h (Language.notMem_zero s)⟩

theorem languageOfSome_cons (ts : Tokens) (branches : List Tokens) :
    languageOfSome ignoreCase (ts :: branches) =
      language ignoreCase ts + languageOfSome ignoreCase branches := by
  ext s
  exact Iff.rfl

/-! ## The languages of single tokens -/

/-- A group without branches stands for nothing at all, as an empty branch would. -/
theorem language_group_nil : (Token.group []).language ignoreCase = 1 := by
  ext s
  show ((([] : List Tokens) = [] ∧ s = []) ∨ False) ↔ s ∈ (1 : Language UInt8)
  simp

theorem language_group_cons (ts : Tokens) (branches : List Tokens) :
    (Token.group (ts :: branches)).language ignoreCase =
      language ignoreCase ts + languageOfSome ignoreCase branches := by
  rw [← languageOfSome_cons]
  ext s
  show ((ts :: branches = [] ∧ s = []) ∨ SomeStandsFor ignoreCase (ts :: branches) s) ↔
    SomeStandsFor ignoreCase (ts :: branches) s
  simp

/-- A character stands for its bytes, up to case where case is ignored. -/
theorem language_literal (c : Char) :
    (Token.literal c).language ignoreCase = alike (sameByte ignoreCase) (utf8 [c]) := by
  ext s
  show (Token.literal c).StandsFor ignoreCase s ↔ List.Forall₂ _ (utf8 [c]) s
  rw [Token.StandsFor, List.forall₂_iff_zip]
  simp only [List.all_eq_true, Prod.forall]

theorem language_anyByte :
    Token.anyByte.language ignoreCase = oneByte (· != slash) := by
  ext s
  show (∃ b, s = [b] ∧ b ≠ slash) ↔ ∃ b, s = [b] ∧ (b != slash) = true
  simp only [bne_iff_ne]

theorem language_oneOf (negated : Bool) (ranges : List (Char × Char)) :
    (Token.oneOf negated ranges).language ignoreCase =
      oneByte (classAdmits ignoreCase negated ranges) := by
  ext s
  exact Iff.rfl

theorem language_star : Token.star.language ignoreCase = slashFree := by
  ext s
  exact Iff.rfl

theorem mem_everything (s : Bytes) : s ∈ Token.everything.language ignoreCase := trivial

/-- `**/` stands for nothing, or for any number of directories. -/
theorem mem_leading {s : Bytes} :
    s ∈ Token.leading.language ignoreCase ↔ s = [] ∨ s.getLast? = some slash := Iff.rfl

theorem language_leading : Token.leading.language ignoreCase = 1 + slashed := by
  ext s
  rw [mem_leading]
  rfl

/-- `/**/` is a slash and then a `**/`. -/
theorem language_between :
    Token.between.language ignoreCase =
      oneByte (· == slash) * Token.leading.language ignoreCase := by
  ext s
  show (s = [slash] ∨ ∃ m, s = slash :: m ++ [slash]) ↔ _
  rw [Language.mem_mul]
  constructor
  · intro hcases
    rcases hcases with rfl | ⟨m, rfl⟩
    · exact ⟨[slash], ⟨slash, rfl, rfl⟩, [], mem_leading.mpr (.inl rfl), rfl⟩
    · exact ⟨[slash], ⟨slash, rfl, rfl⟩, m ++ [slash],
        mem_leading.mpr (.inr List.getLast?_concat), rfl⟩
  · intro hexists
    obtain ⟨a, ⟨b, rfl, hb⟩, c, hc, rfl⟩ := hexists
    obtain rfl : b = slash := by simpa using hb
    rcases mem_leading.mp hc with rfl | hc
    · exact .inl rfl
    · obtain ⟨m, rfl⟩ := List.getLast?_eq_some_iff.mp hc
      exact .inr ⟨m, rfl⟩

/-- `/**` is a slash and then anything. -/
theorem language_trailing :
    Token.trailing.language ignoreCase =
      oneByte (· == slash) * Token.everything.language ignoreCase := by
  ext s
  show s.head? = some slash ↔ _
  rw [Language.mem_mul]
  constructor
  · intro h
    obtain ⟨m, rfl⟩ := List.head?_eq_some_iff.mp h
    exact ⟨[slash], ⟨slash, rfl, rfl⟩, m, mem_everything m, rfl⟩
  · intro hexists
    obtain ⟨a, ⟨b, rfl, hb⟩, m, -, rfl⟩ := hexists
    obtain rfl : b = slash := by simpa using hb
    rfl

/-! ## Directories next to each other -/

/-- Any number of directories, twice, is any number of directories. -/
theorem leading_mul_leading :
    Token.leading.language ignoreCase * Token.leading.language ignoreCase =
      Token.leading.language ignoreCase := by
  ext s
  rw [Language.mem_mul]
  constructor
  · intro hexists
    obtain ⟨a, ha, b, hb, rfl⟩ := hexists
    rcases mem_leading.mp hb with rfl | hb
    · rwa [List.append_nil]
    · obtain ⟨m, rfl⟩ := List.getLast?_eq_some_iff.mp hb
      rw [← List.append_assoc]
      exact mem_leading.mpr (.inr List.getLast?_concat)
  · intro hs
    exact ⟨[], mem_leading.mpr (.inl rfl), s, hs, rfl⟩

/-- Directories before anything at all are anything at all. -/
theorem leading_mul_everything :
    Token.leading.language ignoreCase * Token.everything.language ignoreCase =
      Token.everything.language ignoreCase := by
  ext s
  rw [Language.mem_mul]
  constructor
  · intro _
    exact mem_everything s
  · intro hs
    exact ⟨[], mem_leading.mpr (.inl rfl), s, hs, rfl⟩

end LineLimit.Glob
