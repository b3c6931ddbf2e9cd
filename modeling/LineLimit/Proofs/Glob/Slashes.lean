import LineLimit.Proofs.Glob.Inside

/-!
# How many slashes a match has

A glob without groups and without `**` is a row of literals, `?`, `*` and classes
(`Token.IsFlat`). A literal slash takes one slash, a class that admits a slash may take one,
and nothing else takes any:

> `exists_count_slash_iff`: such a glob stands for a text with `n` slashes if and only if `n`
> is at least the number of its literal slashes and exceeds it by no more than the number of
> its classes that admit a slash.

A class that admits a slash need not take it, because it never admits the slash alone.
-/

namespace LineLimit.Glob

variable {ignoreCase : Bool}

/-- A token of a glob without groups and without `**`. A class has ranges, none of which starts
with a slash or runs backwards. -/
def Token.IsFlat : Token → Prop
  | .literal _ | .anyByte | .star => True
  | .oneOf _ ranges => ranges ≠ [] ∧ ∀ range ∈ ranges, range.1 ≤ range.2 ∧ range.1 ≠ '/'
  | _ => False

/-- A flat token has no tokens inside. -/
theorem Token.IsFlat.everywhere_eq {t : Token} (ht : t.IsFlat) (q : Token → Bool) :
    t.everywhere q = q t := by
  cases t with
  | group branches => exact ht.elim
  | _ => rfl

/-! ## The bytes that a class admits -/

theorem utf8_char_ne_nil (c : Char) : utf8 [c] ≠ [] := fun h =>
  List.cons_ne_nil c [] (utf8_injective h)

/-- Only a character of ASCII is one byte. -/
theorem toNat_lt_of_utf8 {c : Char} {b : UInt8} (h : utf8 [c] = [b]) : c.toNat < 0x80 := by
  refine Nat.lt_of_not_le fun hle => ?_
  have hnot : ¬c.val.toNat ≤ 0x7F := fun hlow => by
    have hle' : 0x80 ≤ c.val.toNat := hle
    omega
  rw [utf8, List.flatMap_cons, List.flatMap_nil, List.append_nil] at h
  simp only [String.utf8EncodeChar, if_neg hnot] at h
  split at h
  · simp at h
  · split at h <;> simp at h

/-- The byte with all bits set is in no text. -/
theorem ne_of_mem_utf8 {c : Char} {b : UInt8} (h : b ∈ utf8 [c]) : b ≠ 0xFF := by
  have hbyte : ∀ n, n < 0xFF → UInt8.ofNat n ≠ 0xFF := by
    intro n hn heq
    have htoNat := congrArg UInt8.toNat heq
    rw [UInt8.toNat_ofNat'] at htoNat
    have hlast : (0xFF : UInt8).toNat = 0xFF := rfl
    omega
  rw [utf8, List.flatMap_cons, List.flatMap_nil, List.append_nil] at h
  simp only [String.utf8EncodeChar] at h
  split at h
  · simp only [List.mem_cons, List.not_mem_nil, or_false] at h
    exact h ▸ hbyte _ (by omega)
  · split at h
    · simp only [List.mem_cons, List.not_mem_nil, or_false] at h
      rcases h with rfl | rfl <;> exact hbyte _ (by omega)
    · split at h
      · simp only [List.mem_cons, List.not_mem_nil, or_false] at h
        rcases h with rfl | rfl | rfl <;> exact hbyte _ (by omega)
      · simp only [List.mem_cons, List.not_mem_nil, or_false] at h
        rcases h with rfl | rfl | rfl | rfl <;> exact hbyte _ (by omega)

theorem ne_slash_of_mem_utf8 {c : Char} (hc : c ≠ '/') {b : UInt8} (h : b ∈ utf8 [c]) :
    b ≠ slash := by
  rintro rfl
  exact hc (List.mem_singleton.mp (slash_mem_utf8.mp h)).symm

/-- What ends a range of bytes is a byte of one of the characters. -/
theorem mem_utf8_of_mem_byteRanges {range : Char × Char} {low high : UInt8}
    (h : (low, high) ∈ byteRanges range) : high ∈ utf8 [range.1] ∨ high ∈ utf8 [range.2] := by
  unfold byteRanges at h
  split at h
  · obtain ⟨b, hb, hpair⟩ := List.mem_map.mp h
    exact .inl ((Prod.mk.inj hpair).2 ▸ hb)
  · simp only [List.mem_append, List.mem_map] at h
    rcases h with (⟨b, hb, hpair⟩ | hzip) | ⟨b, hb, hpair⟩
    · exact .inl ((Prod.mk.inj hpair).2 ▸ List.mem_of_mem_dropLast hb)
    · exact .inr (List.mem_of_mem_take (List.of_mem_zip hzip).2)
    · exact .inr ((Prod.mk.inj hpair).2 ▸ List.mem_of_mem_drop hb)

/-- A range that starts with another character than a slash holds another byte. -/
theorem exists_mem_byteRanges {l h : Char} (hle : l ≤ h) (hl : l ≠ '/') :
    ∃ low high, (low, high) ∈ byteRanges (l, h) ∧ low ≤ high ∧ low ≠ slash := by
  obtain ⟨first, rest, hfirst⟩ := List.exists_cons_of_ne_nil (utf8_char_ne_nil l)
  have hne : first ≠ slash := ne_slash_of_mem_utf8 hl (by rw [hfirst]; exact List.mem_cons_self ..)
  unfold byteRanges
  by_cases heq : l = h
  · refine ⟨first, first, ?_, UInt8.le_refl _, hne⟩
    simp [heq ▸ hfirst, heq]
  · simp only [if_neg heq, hfirst]
    cases rest with
    | cons second rest =>
      refine ⟨first, first, ?_, UInt8.le_refl _, hne⟩
      simp
    | nil =>
      obtain ⟨other, others, hother⟩ := List.exists_cons_of_ne_nil (utf8_char_ne_nil h)
      refine ⟨first, other, ?_, ?_, hne⟩
      · simp [hother]
      · have hascii := toNat_lt_of_utf8 hfirst
        rw [utf8_ascii hascii] at hfirst
        obtain rfl := (List.cons.inj hfirst).1
        have hvalue := Utf8.toNat_ofNat_of_lt (show l.toNat < 256 by omega)
        rw [UInt8.le_iff_toNat_le, hvalue]
        by_cases hh : h.toNat < 0x80
        · rw [utf8_ascii hh] at hother
          obtain rfl := (List.cons.inj hother).1
          rw [Utf8.toNat_ofNat_of_lt (show h.toNat < 256 by omega)]
          exact hle
        · have hlarge : 0x80 ≤ other.toNat :=
            le_of_mem_utf8 (Nat.le_of_not_lt hh) (by rw [hother]; exact List.mem_cons_self ..)
          omega

/-- A class admits some byte that is no slash. -/
theorem exists_classAdmits {negated : Bool} {ranges : List (Char × Char)}
    (h : (Token.oneOf negated ranges).IsFlat) :
    ∃ b, b ≠ slash ∧ classAdmits ignoreCase negated ranges b = true := by
  obtain ⟨hne, hranges⟩ := h
  cases negated with
  | false =>
    obtain ⟨range, rest, rfl⟩ := List.exists_cons_of_ne_nil hne
    obtain ⟨hle, hslash⟩ := hranges range (List.mem_cons_self ..)
    obtain ⟨low, high, hmem, hlow, hb⟩ := exists_mem_byteRanges hle hslash
    refine ⟨low, hb, ?_⟩
    rw [classAdmits, bne_iff_ne, ne_eq, Bool.not_eq_false, inRanges, List.any_eq_true]
    refine ⟨(low, high), ?_, by simp [hlow]⟩
    rw [List.flatMap_cons]
    exact List.mem_append_left _ hmem
  | true =>
    refine ⟨0xFF, by decide, ?_⟩
    have hother : otherCase 0xFF = 0xFF := by decide
    have hnone : inRanges ignoreCase ranges 0xFF = false := by
      rw [inRanges, List.any_eq_false]
      rintro ⟨low, high⟩ hpair
      obtain ⟨range, -, hrange⟩ := List.mem_flatMap.mp hpair
      have hhigh : ¬0xFF ≤ high := by
        intro hle
        have heq : high = 0xFF := UInt8.le_antisymm (by
          rw [UInt8.le_iff_toNat_le]; exact Nat.le_of_lt_succ high.toNat_lt) hle
        rcases mem_utf8_of_mem_byteRanges hrange with hmem | hmem
        · exact ne_of_mem_utf8 hmem heq
        · exact ne_of_mem_utf8 hmem heq
      simp [hother, hhigh]
    rw [classAdmits, hnone]
    rfl

/-! ## The slashes of a match -/

/-- The slashes that a token always takes. -/
def Token.slashes (t : Token) : Nat := if t.isSlash then 1 else 0

/-- The slashes that a token may take besides. -/
def Token.moreSlashes (ignoreCase : Bool) (t : Token) : Nat :=
  if t.sparesSlash ignoreCase then 0 else 1

/-- A token that stays inside a name takes no slash. -/
theorem Token.exists_count_slash_inside {t : Token}
    (ht : t.everywhere (Token.staysInside ignoreCase) = true) {s₀ : Bytes}
    (hs₀ : s₀ ∈ t.language ignoreCase) (n : Nat) :
    (∃ s ∈ t.language ignoreCase, s.count slash = n) ↔ n = 0 := by
  have hnone : ∀ s ∈ t.language ignoreCase, s.count slash = 0 :=
    fun s hs => List.count_eq_zero_of_not_mem (t.slash_not_mem ht hs)
  constructor
  · rintro ⟨s, hs, rfl⟩
    exact hnone s hs
  · rintro rfl
    exact ⟨s₀, hs₀, hnone s₀ hs₀⟩

/-- The literal slash takes itself. -/
theorem Token.exists_count_slash_literal (n : Nat) :
    (∃ s ∈ (Token.literal '/').language ignoreCase, s.count slash = n) ↔ n = 1 := by
  rw [language_slash]
  constructor
  · rintro ⟨s, ⟨b, rfl, hb⟩, rfl⟩
    rw [beq_iff_eq.mp hb]
    rfl
  · rintro rfl
    exact ⟨[slash], ⟨slash, rfl, rfl⟩, rfl⟩

/-- A class that admits a slash, and some byte that is none, takes a slash or none. -/
theorem Token.exists_count_slash_oneOf {negated : Bool} {ranges : List (Char × Char)} {b : UInt8}
    (hslash : classAdmits ignoreCase negated ranges slash = true)
    (hadmits : classAdmits ignoreCase negated ranges b = true) (hb : b ≠ slash) (n : Nat) :
    (∃ s ∈ (Token.oneOf negated ranges).language ignoreCase, s.count slash = n) ↔ n ≤ 1 := by
  constructor
  · rintro ⟨s, ⟨x, rfl, -⟩, rfl⟩
    exact List.count_le_length
  · intro hn
    obtain rfl | rfl : n = 0 ∨ n = 1 := by omega
    · exact ⟨[b], ⟨b, rfl, hadmits⟩, List.count_eq_zero_of_not_mem (by simpa using hb.symm)⟩
    · exact ⟨[slash], ⟨slash, rfl, hslash⟩, rfl⟩

/-- A token takes the slashes that it always takes, and may take one more if it is a class that
admits one. -/
theorem Token.exists_count_slash_iff {t : Token} (ht : t.IsFlat) (n : Nat) :
    (∃ s ∈ t.language ignoreCase, s.count slash = n) ↔
      t.slashes ≤ n ∧ n ≤ t.slashes + t.moreSlashes ignoreCase := by
  have hzero : n = 0 ↔ 0 ≤ n ∧ n ≤ 0 + 0 := by omega
  have hone : n = 1 ↔ 1 ≤ n ∧ n ≤ 1 + 0 := by omega
  have hmost : n ≤ 1 ↔ 0 ≤ n ∧ n ≤ 0 + 1 := by omega
  cases t with
  | leading => exact ht.elim
  | trailing => exact ht.elim
  | between => exact ht.elim
  | everything => exact ht.elim
  | group branches => exact ht.elim
  | anyByte =>
    have hmem : [0] ∈ Token.anyByte.language ignoreCase := ⟨0, rfl, by decide⟩
    exact (exists_count_slash_inside rfl hmem n).trans hzero
  | star =>
    have hmem : [] ∈ Token.star.language ignoreCase := List.not_mem_nil
    exact (exists_count_slash_inside rfl hmem n).trans hzero
  | literal c =>
    by_cases hc : c = '/'
    · subst hc
      exact (exists_count_slash_literal n).trans hone
    · have hmem : utf8 [c] ∈ (Token.literal c).language ignoreCase := by
        rw [language_literal]
        exact mem_alike_self _
      have hinside : (Token.literal c).everywhere (Token.staysInside ignoreCase) = true := by
        simp [Token.everywhere, Token.staysInside, Token.spans, Token.isSlash, Token.sparesSlash,
          hc]
      refine (exists_count_slash_inside hinside hmem n).trans (hzero.trans ?_)
      simp [slashes, moreSlashes, Token.isSlash, Token.sparesSlash, hc]
  | oneOf negated ranges =>
    obtain ⟨b, hb, hadmits⟩ := @exists_classAdmits ignoreCase negated ranges ht
    cases hslash : classAdmits ignoreCase negated ranges slash with
    | false =>
      have hinside : (Token.oneOf negated ranges).everywhere (Token.staysInside ignoreCase) =
          true := by
        simp [Token.everywhere, Token.staysInside, Token.spans, Token.isSlash, Token.sparesSlash,
          hslash]
      refine (exists_count_slash_inside hinside ⟨b, rfl, hadmits⟩ n).trans (hzero.trans ?_)
      simp [slashes, moreSlashes, Token.isSlash, Token.sparesSlash, hslash]
    | true =>
      refine (exists_count_slash_oneOf hslash hadmits hb n).trans (hmost.trans ?_)
      simp [slashes, moreSlashes, Token.isSlash, Token.sparesSlash, hslash]

/-- Of the texts that a flat glob stands for, there is one with `n` slashes if and only if `n`
is between the number of its literal slashes and the sum of those and of its classes that admit
a slash. -/
theorem exists_count_slash_iff {ts : Tokens} (hts : ∀ t ∈ ts, t.IsFlat) (n : Nat) :
    (∃ s ∈ language ignoreCase ts, s.count slash = n) ↔
      ts.countP Token.isSlash ≤ n ∧
        n ≤ ts.countP Token.isSlash + ts.countP (!·.sparesSlash ignoreCase) := by
  induction ts generalizing n with
  | nil =>
    rw [language_nil]
    simp only [Language.mem_one, exists_eq_left, List.count_nil, List.countP_nil]
    omega
  | cons t ts ih =>
    have hfirst := @Token.exists_count_slash_iff ignoreCase t (hts t (List.mem_cons_self ..))
    have hrest := fun k => ih (fun u hu => hts u (List.mem_cons_of_mem _ hu)) k
    have hmust : (t :: ts).countP Token.isSlash = t.slashes + ts.countP Token.isSlash := by
      rw [List.countP_cons, Token.slashes, Nat.add_comm]
    have hmay : (t :: ts).countP (!·.sparesSlash ignoreCase) =
        t.moreSlashes ignoreCase + ts.countP (!·.sparesSlash ignoreCase) := by
      rw [List.countP_cons, Token.moreSlashes, Nat.add_comm]
      cases t.sparesSlash ignoreCase <;> rfl
    rw [hmust, hmay, language_cons]
    constructor
    · rintro ⟨s, hs, rfl⟩
      obtain ⟨a, ha, b, hb, rfl⟩ := Language.mem_mul.mp hs
      have hcounta := (hfirst _).mp ⟨a, ha, rfl⟩
      have hcountb := (hrest _).mp ⟨b, hb, rfl⟩
      rw [List.count_append]
      omega
    · intro hn
      -- the first token takes as many as it may, as long as there are more than the rest needs
      obtain ⟨k, hk, hk'⟩ : ∃ k, (t.slashes ≤ k ∧ k ≤ t.slashes + t.moreSlashes ignoreCase) ∧
          ts.countP Token.isSlash ≤ n - k ∧
            n - k ≤ ts.countP Token.isSlash + ts.countP (!·.sparesSlash ignoreCase) ∧ k ≤ n :=
        ⟨min (t.slashes + t.moreSlashes ignoreCase) (n - ts.countP Token.isSlash), by omega⟩
      obtain ⟨a, ha, hcounta⟩ := (hfirst k).mpr hk
      obtain ⟨b, hb, hcountb⟩ := (hrest (n - k)).mpr ⟨hk'.1, hk'.2.1⟩
      refine ⟨a ++ b, Language.mem_mul.mpr ⟨a, ha, b, hb, rfl⟩, ?_⟩
      rw [List.count_append, hcounta, hcountb]
      omega

/-- Where no class admits a slash, a flat glob stands only for texts with its literal slashes. -/
theorem count_slash_of_flat {ts : Tokens} (hflat : ∀ t ∈ ts, t.IsFlat)
    (hspare : everywhere (·.sparesSlash ignoreCase) ts = true) {s : Bytes}
    (hs : s ∈ language ignoreCase ts) : s.count slash = ts.countP Token.isSlash := by
  have hnone : ts.countP (!·.sparesSlash ignoreCase) = 0 := by
    refine List.countP_eq_zero.mpr fun t ht => ?_
    have htoken := everywhere_eq_true.mp hspare t ht
    rw [(hflat t ht).everywhere_eq] at htoken
    simp [htoken]
  have hbounds := (exists_count_slash_iff hflat (s.count slash)).mp ⟨s, hs, rfl⟩
  omega

end LineLimit.Glob
