import LineLimit.Proofs.Glob.Language
import LineLimit.Text.Utf8.Lemmas

/-!
# Tokens that stay inside a component

Most tokens stand for text without a slash. Those that do not are a literal
slash, the forms of `**` that span directories, and a class that admits a
slash; a group is as good as the tokens in its branches.

> `slash_not_mem`: a glob of tokens that stay inside stands for text without a
> slash only.
-/

namespace LineLimit.Glob

variable {ignoreCase : Bool}

mutual

/-- `q` holds of the token and of every token in its groups. -/
def Token.everywhere (q : Token → Bool) : Token → Bool
  | .group branches => q (.group branches) && everywhereInSome q branches
  | t => q t

/-- `q` holds of the tokens and of every token in their groups. -/
def everywhere (q : Token → Bool) : Tokens → Bool
  | [] => true
  | t :: ts => t.everywhere q && everywhere q ts

/-- `q` holds of every token in the branches. -/
def everywhereInSome (q : Token → Bool) : List Tokens → Bool
  | [] => true
  | ts :: branches => everywhere q ts && everywhereInSome q branches

end

/-- Whether a token is a form of `**` that spans directories. -/
def Token.spans : Token → Bool
  | .leading | .trailing | .between | .everything => true
  | _ => false

/-- Whether a token is the slash between two components. -/
def Token.isSlash : Token → Bool
  | .literal c => c = '/'
  | _ => false

/-- Whether a token is no class that admits a slash. -/
def Token.sparesSlash (ignoreCase : Bool) : Token → Bool
  | .oneOf negated ranges => !classAdmits ignoreCase negated ranges slash
  | _ => true

/-- Whether a token by itself does not reach across a slash. -/
def Token.staysInside (ignoreCase : Bool) (t : Token) : Bool :=
  !t.spans && !t.isSlash && t.sparesSlash ignoreCase

/-- A property holds everywhere if it holds everywhere in each token. -/
theorem everywhere_eq_true {q : Token → Bool} {ts : Tokens} :
    everywhere q ts = true ↔ ∀ t ∈ ts, t.everywhere q = true := by
  induction ts with
  | nil => simp [everywhere]
  | cons t ts ih => simp [everywhere, ih]

/-- A property holds everywhere in branches if it does so in each of them. -/
theorem everywhereInSome_eq_true {q : Token → Bool} {branches : List Tokens} :
    everywhereInSome q branches = true ↔ ∀ ts ∈ branches, everywhere q ts = true := by
  induction branches with
  | nil => simp [everywhereInSome]
  | cons ts branches ih => simp [everywhereInSome, ih]

mutual

/-- Two properties hold everywhere in a token together if each does. -/
theorem Token.everywhere_and (q q' : Token → Bool) (t : Token) :
    t.everywhere (fun u => q u && q' u) = (t.everywhere q && t.everywhere q') := by
  cases t with
  | group branches =>
    simp only [Token.everywhere, everywhereInSome_and q q' branches]
    cases q (.group branches) <;> cases q' (.group branches) <;> simp
  | _ => rfl

theorem everywhere_and (q q' : Token → Bool) (ts : Tokens) :
    everywhere (fun u => q u && q' u) ts = (everywhere q ts && everywhere q' ts) := by
  cases ts with
  | nil => rfl
  | cons t ts =>
    simp only [everywhere, Token.everywhere_and q q' t, everywhere_and q q' ts]
    cases t.everywhere q <;> cases t.everywhere q' <;> simp

theorem everywhereInSome_and (q q' : Token → Bool) (branches : List Tokens) :
    everywhereInSome (fun u => q u && q' u) branches =
      (everywhereInSome q branches && everywhereInSome q' branches) := by
  cases branches with
  | nil => rfl
  | cons ts branches =>
    simp only [everywhereInSome, everywhere_and q q' ts, everywhereInSome_and q q' branches]
    cases everywhere q ts <;> cases everywhere q' ts <;> simp

end

/-! ## Text without a slash -/

theorem slash_mem_utf8 {t : Text} : slash ∈ utf8 t ↔ '/' ∈ t :=
  mem_utf8_ascii (by decide)

/-- No other byte folds to the slash. -/
theorem foldCase_eq_slash {b : UInt8} (h : foldCase b = slash) : b = slash := by
  unfold foldCase at h
  split at h
  · next hcapital =>
    -- a small letter is no slash
    have hlow : 0x41 ≤ b.toNat := hcapital.1
    have hhigh : b.toNat ≤ 0x5A := hcapital.2
    have hsum : (b + 0x20).toNat = slash.toNat := congrArg UInt8.toNat h
    rw [UInt8.toNat_add] at hsum
    have h20 : (0x20 : UInt8).toNat = 0x20 := rfl
    have h2F : slash.toNat = 0x2F := rfl
    omega
  · exact h

/-- Only a slash stands for a slash, whether case matters or not. -/
theorem eq_slash_of_sameByte {a : UInt8} (h : sameByte ignoreCase a slash = true) : a = slash := by
  unfold sameByte at h
  split at h
  · exact foldCase_eq_slash (of_decide_eq_true h)
  · exact of_decide_eq_true h

/-- The slash is the same as itself only, whether or not case is ignored. -/
theorem sameByte_slash {b : UInt8} :
    sameByte ignoreCase slash b = true ↔ b = slash := by
  constructor
  · intro h
    refine eq_slash_of_sameByte (?_ : sameByte ignoreCase b slash = true)
    unfold sameByte at h ⊢
    split
    · next hcase =>
      rw [if_pos hcase] at h
      exact decide_eq_true (of_decide_eq_true h).symm
    · next hcase =>
      rw [if_neg hcase] at h
      exact decide_eq_true (of_decide_eq_true h).symm
  · intro heq
    subst heq
    unfold sameByte
    split <;> simp

theorem language_slash :
    (Token.literal '/').language ignoreCase = oneByte (· == slash) := by
  rw [language_literal]
  ext s
  show List.Forall₂ _ [slash] s ↔ ∃ b, s = [b] ∧ (b == slash) = true
  constructor
  · intro h
    cases h with
    | cons hb hnil =>
      cases hnil
      exact ⟨_, rfl, beq_iff_eq.mpr (sameByte_slash.mp hb)⟩
  · intro hexists
    obtain ⟨b, rfl, hb⟩ := hexists
    exact .cons (sameByte_slash.mpr (beq_iff_eq.mp hb)) .nil

/-- What is like bytes without a slash has none either. -/
theorem slash_not_mem_alike {bs s : Bytes} (hbs : slash ∉ bs)
    (h : s ∈ alike (sameByte ignoreCase) bs) : slash ∉ s := by
  change List.Forall₂ _ bs s at h
  induction h with
  | nil => exact List.not_mem_nil
  | @cons a b bs s hab _ ih =>
    intro hmem
    rcases List.mem_cons.mp hmem with rfl | hmem
    · exact hbs (eq_slash_of_sameByte hab ▸ List.mem_cons_self ..)
    · exact ih (fun hmem => hbs (List.mem_cons_of_mem _ hmem)) hmem

/-- A byte for which the slash does not do is no slash. -/
theorem slash_not_mem_oneByte {q : UInt8 → Bool} {s : Bytes} (hq : q slash = false)
    (h : s ∈ oneByte q) : slash ∉ s := by
  obtain ⟨b, rfl, hb⟩ := h
  intro hmem
  rw [← List.mem_singleton.mp hmem, hq] at hb
  exact absurd hb (by simp)

mutual

/-- A token that stays inside a component stands for no text with a slash. -/
theorem Token.slash_not_mem (t : Token) {s : Bytes}
    (ht : t.everywhere (Token.staysInside ignoreCase) = true) (hs : s ∈ t.language ignoreCase) :
    slash ∉ s := by
  cases t with
  | literal c =>
    rw [language_literal] at hs
    refine slash_not_mem_alike (fun hmem => ?_) hs
    obtain rfl := List.mem_singleton.mp (slash_mem_utf8.mp hmem)
    exact absurd ht (by simp [Token.everywhere, Token.staysInside, Token.isSlash])
  | anyByte =>
    rw [language_anyByte] at hs
    exact slash_not_mem_oneByte (by simp) hs
  | star =>
    rw [language_star] at hs
    exact hs
  | oneOf negated ranges =>
    rw [language_oneOf] at hs
    refine slash_not_mem_oneByte ?_ hs
    simpa [Token.everywhere, Token.staysInside, Token.spans, Token.isSlash, Token.sparesSlash]
      using ht
  | group branches =>
    rw [Token.everywhere, Bool.and_eq_true] at ht
    cases branches with
    | nil =>
      rw [language_group_nil, Language.mem_one] at hs
      rw [hs]
      exact List.not_mem_nil
    | cons ts branches =>
      rw [language_group_cons, ← languageOfSome_cons] at hs
      exact slash_not_mem_some (ts :: branches) ht.2 hs
  | _ => exact absurd ht (by simp [Token.everywhere, Token.staysInside, Token.spans])

/-- Tokens that stay inside a component stand for no text with a slash. -/
theorem slash_not_mem (ts : Tokens) {s : Bytes}
    (hts : everywhere (Token.staysInside ignoreCase) ts = true)
    (hs : s ∈ language ignoreCase ts) : slash ∉ s := by
  cases ts with
  | nil =>
    rw [language_nil, Language.mem_one] at hs
    rw [hs]
    exact List.not_mem_nil
  | cons t ts =>
    rw [everywhere, Bool.and_eq_true] at hts
    rw [language_cons, Language.mem_mul] at hs
    obtain ⟨a, ha, b, hb, rfl⟩ := hs
    intro hmem
    rcases List.mem_append.mp hmem with hmem | hmem
    · exact Token.slash_not_mem t hts.1 ha hmem
    · exact slash_not_mem ts hts.2 hb hmem

theorem slash_not_mem_some (branches : List Tokens) {s : Bytes}
    (hall : everywhereInSome (Token.staysInside ignoreCase) branches = true)
    (hs : s ∈ languageOfSome ignoreCase branches) : slash ∉ s := by
  cases branches with
  | nil =>
    rw [languageOfSome_nil] at hs
    exact absurd hs (Language.notMem_zero s)
  | cons ts branches =>
    rw [everywhereInSome, Bool.and_eq_true] at hall
    rw [languageOfSome_cons, Language.mem_add] at hs
    rcases hs with hs | hs
    · exact slash_not_mem ts hall.1 hs
    · exact slash_not_mem_some branches hall.2 hs

end

end LineLimit.Glob
