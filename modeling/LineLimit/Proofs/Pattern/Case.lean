import LineLimit.Proofs.Glob.Case
import LineLimit.Proofs.Pattern.Base

/-!
# Patterns that differ in case only

A pattern in another case has the same steps up to case (`steps_lower`), and
steps in small letters admit what the steps admit where case is ignored
(`Step.admits_lower`). Its parts are the same up to case, so the same of them are
literal and the depth that they allow is the same.

Only the base is taken as it is written: it is as long (`length_base`), but
not the same.
-/

namespace LineLimit

open Glob (Tokens Token Reader Recased)
open Glob.Reader (between initial Follows)

/-! ## Steps in small letters -/

namespace Step

/-- The step with the literals of its component in small letters. -/
def lower : Step → Step
  | .directories => .directories
  | .name glob dotted => .name (Glob.lower glob) dotted

variable {hidden : Bool} (steps : List Step)

/-- Only a `**` is passed without a name, and it has no case. -/
theorem reach_lower (i : Nat) : reach (steps.map lower) i = reach steps i := by
  induction steps generalizing i with
  | nil => rfl
  | cons step steps ih =>
    cases step with
    | directories =>
      show i :: reach (steps.map lower) (i + 1) = i :: reach steps (i + 1)
      rw [ih]
    | name glob dotted => rfl

/-- Positions are closed in the same way, whatever the case. -/
theorem close_lower (positions : List Nat) :
    close (steps.map lower) positions = close steps positions := by
  unfold close
  simp only [← List.map_drop, reach_lower]

/-- Without regard to case, a step in small letters takes the names that the step takes. -/
theorem take_lower (name : Bytes) (i : Nat) :
    take true hidden (steps.map lower) name i = take true hidden steps name i := by
  unfold take
  rw [List.getElem?_map]
  cases steps[i]? with
  | none => rfl
  | some step =>
    cases step with
    | directories => rfl
    | name glob dotted =>
      show (if (mayTake hidden dotted name && Glob.accepts true (Glob.lower glob) name) = true
        then _ else _) = _
      rw [Glob.accepts_lower]

/-- Where case is ignored, steps admit the same names in small letters. -/
theorem admits_lower (isDirectory : Bool) (names : List Bytes) :
    admits true hidden isDirectory (steps.map lower) names =
      admits true hidden isDirectory steps names := by
  have htake : ∀ name, take true hidden (steps.map lower) name = take true hidden steps name :=
    fun name => funext (take_lower steps name)
  unfold admits positions
  simp only [close_lower, htake, List.length_map]

/-! ## Components in another case -/

/-- Text without letters is no other text in small letters. -/
theorem map_toLower_eq_iff {text ds : Text}
    (hds : ds.all Glob.caseless = true) :
    text.map Char.toLower = ds ↔ text = ds := by
  induction ds generalizing text with
  | nil => exact List.map_eq_nil_iff
  | cons d ds ih =>
    cases text with
    | nil => simp
    | cons c text =>
      rw [List.all_cons, Bool.and_eq_true] at hds
      rw [List.map_cons, List.cons.injEq, List.cons.injEq, Glob.toLower_eq_iff hds.1, ih hds.2]

/-- A text starts with a character that is no letter if and only if it does so in small letters.
-/
theorem head?_map_toLower {text : Text} {d : Char}
    (hd : Glob.caseless d = true) :
    (text.map Char.toLower).head? = some d ↔ text.head? = some d := by
  cases text with
  | nil => exact Iff.rfl
  | cons c text =>
    rw [List.map_cons, List.head?_cons, List.head?_cons, Option.some.injEq, Option.some.injEq]
    exact Glob.toLower_eq_iff hd

/-- Texts that differ in case only start with such a character together. -/
theorem head?_toLower {part other : Text} (h : part.map Char.toLower = other.map Char.toLower)
    {d : Char} (hd : Glob.caseless d = true) :
    part.head? = some d ↔ other.head? = some d := by
  rw [← head?_map_toLower hd, h, head?_map_toLower hd]

/-- A component in another case is the same step up to case. -/
theorem read?_lower {part other : Text} (h : Recased initial part other) :
    (read? part).map lower = (read? other).map lower := by
  have hstars : part = ['*', '*'] ↔ other = ['*', '*'] := by
    have hcaseless : ['*', '*'].all Glob.caseless = true := rfl
    rw [← map_toLower_eq_iff hcaseless, h.map_toLower, map_toLower_eq_iff hcaseless]
  have hparse := h.parse_lower
  have hdot : decide (part.head? = some '.') = decide (other.head? = some '.') :=
    decide_eq_decide.mpr (head?_toLower h.map_toLower rfl)
  unfold read?
  by_cases hpart : part = ['*', '*']
  · rw [if_pos hpart, if_pos (hstars.mp hpart)]
  · rw [if_neg hpart, if_neg fun hother => hpart (hstars.mpr hother)]
    cases hg : Glob.parse part with
    | error e =>
      cases hg' : Glob.parse other with
      | error e' => rfl
      | ok glob' => exact absurd hparse (by simp [hg, hg', Except.map])
    | ok glob =>
      cases hg' : Glob.parse other with
      | error e' => exact absurd hparse (by simp [hg, hg', Except.map])
      | ok glob' =>
        rw [hg, hg'] at hparse
        have hlower : Glob.lower glob = Glob.lower glob' := Except.ok.inj hparse
        show some (Step.name (Glob.lower glob) _) = some (Step.name (Glob.lower glob') _)
        rw [hlower, hdot]

/-- Components that are the same steps up to case, one by one, up to the first
one that is no step. -/
inductive Alike : List Text → List Text → Prop
  | nil : Alike [] []
  | cons {part other : Text} {parts others : List Text} :
    (read? part).map lower = (read? other).map lower →
      ((read? part).isSome = true → Alike parts others) → Alike (part :: parts) (other :: others)

end Step

namespace Glob

variable {r q : Reader} {text other : Text}

/-- A text in another case is cut in two where the text is. -/
theorem Recased.split {rest : Text} (h : Recased r (text ++ rest) other) :
    ∃ first second q, other = first ++ second ∧ Recased r text first ∧
      text.foldlM Reader.step r = .ok q ∧ Recased q rest second := by
  induction text generalizing r other with
  | nil => exact ⟨[], other, r, rfl, .nil r, rfl, h⟩
  | cons c text ih =>
    cases h with
    | @cons _ r₁ _ d _ other hclass hlower hstep h =>
      obtain ⟨first, second, q, rfl, hfirst, hq, hsecond⟩ := ih h
      refine ⟨d :: first, second, q, rfl, .cons hclass hlower hstep hfirst, ?_, hsecond⟩
      rw [List.foldlM_cons, hstep]
      exact hq

/-- What is in another case where it stands is so when it stands alone. -/
theorem Recased.alone {base : Tokens} {prev : Option Char} {before : Text}
    (h : Recased q text other) (hfollows : Follows base prev before q r) (hslash : '/' ∉ text) :
    Recased r text other := by
  induction h generalizing r before with
  | nil => exact .nil r
  | @cons q q₁ c d text other hclass hlower hstep _ ih =>
    have hc : c ≠ '/' := fun heq => hslash (heq ▸ List.mem_cons_self ..)
    have hmode : r.mode.inBrackets = q.mode.inBrackets := by
      cases hfollows <;> rfl
    rcases hfollows.step hc with ⟨e, hq, -⟩ | ⟨q', r', hq, hr, hnext⟩
    · rw [hstep] at hq
      exact absurd hq (by simp)
    · obtain rfl : q₁ = q' := Except.ok.inj (hstep.symm.trans hq)
      exact .cons (hmode ▸ hclass) hlower hr
        (ih hnext fun hmem => hslash (List.mem_cons_of_mem _ hmem))

/-- A text in another case has no slash where the text has none. -/
theorem Recased.slash_not_mem (h : Recased r text other) (hslash : '/' ∉ text) : '/' ∉ other := by
  intro hmem
  have hlower : '/' ∈ other.map Char.toLower := List.mem_map.mpr ⟨'/', hmem, rfl⟩
  rw [← h.map_toLower] at hlower
  obtain ⟨c, hc, heq⟩ := List.mem_map.mp hlower
  rw [toLower_eq_iff rfl] at heq
  exact hslash (heq ▸ hc)

end Glob

/-- The components of a text in another case are the same steps up to case. -/
theorem Step.alike_splitOn {parts : List Text} (hne : parts ≠ [])
    (hslash : ∀ part ∈ parts, '/' ∉ part) {base : Tokens} {prev : Option Char}
    (hbase : base = [] ∨ prev = some '/') {other : Text}
    (h : Recased (between base prev) (['/'].intercalate parts) other) :
    Alike parts (other.splitOn '/') := by
  induction parts generalizing base prev other with
  | nil => exact absurd rfl hne
  | cons part parts ih =>
    have hpart : '/' ∉ part := hslash part (List.mem_cons_self ..)
    cases parts with
    | nil =>
      rw [List.intercalate_singleton] at h
      rw [List.splitOn_eq_singleton (h.slash_not_mem hpart)]
      exact .cons (read?_lower (h.alone .start hpart)) fun _ => .nil
    | cons next parts =>
      rw [List.intercalate_cons_cons, List.append_assoc] at h
      obtain ⟨first, second, q, rfl, hfirst, hq, hsecond⟩ := h.split
      cases hsecond with
      | @cons _ q₁ _ d _ rest _ hlower hstep hrest =>
        obtain rfl : d = '/' := (Glob.toLower_eq_iff rfl).mp hlower.symm
        rw [List.splitOn_append_cons_self_of_not_mem (hfirst.slash_not_mem hpart)]
        refine .cons (read?_lower (hfirst.alone .start hpart)) fun hread => ?_
        -- the rest is read where the component and its slash end
        obtain ⟨step, hread⟩ := Option.isSome_iff_exists.mp hread
        have hnext := foldlM_slash hread hpart hbase
        rw [List.foldlM_append, hq] at hnext
        obtain rfl : q₁ = between (step.below base) (some '/') := by
          have hq₁ : (['/'] : Text).foldlM Reader.step q = .ok q₁ := by
            rw [List.foldlM_cons, hstep]
            rfl
          exact Except.ok.inj (hq₁.symm.trans hnext)
        exact ih (List.cons_ne_nil _ _) (fun part hp => hslash part (List.mem_cons_of_mem _ hp))
          (.inr rfl) hrest

/-! ## Patterns in another case -/

/-- Steps in small letters are read one by one. -/
theorem Step.mapM_lower_cons (part : Text) (parts : List Text) :
    ((part :: parts).mapM read?).map (List.map lower) =
      ((read? part).map lower).bind fun step =>
        ((parts.mapM read?).map (List.map lower)).map (step :: ·) := by
  rw [List.mapM_cons]
  cases read? part with
  | none => rfl
  | some step => cases parts.mapM read? <;> rfl

/-- The components of alike parts are the same steps up to case. -/
theorem Step.Alike.mapM_filter {parts others : List Text} (h : Alike parts others)
    (hlower : parts.map (List.map Char.toLower) = others.map (List.map Char.toLower)) :
    ((parts.filter (!·.isEmpty)).mapM read?).map (List.map lower) =
      ((others.filter (!·.isEmpty)).mapM read?).map (List.map lower) := by
  induction h with
  | nil => rfl
  | @cons part other parts others hread _ ih =>
    obtain ⟨hpart, hrest⟩ := List.cons.inj hlower
    by_cases hnil : part = []
    · have hnil' : other = [] := by
        rw [hnil] at hpart
        exact List.map_eq_nil_iff.mp hpart.symm
      subst hnil hnil'
      exact ih rfl hrest
    · have hnil' : other ≠ [] := by
        intro hnil'
        rw [hnil'] at hpart
        exact hnil (List.map_eq_nil_iff.mp hpart)
      rw [List.filter_cons_of_pos (by simpa using hnil),
        List.filter_cons_of_pos (by simpa using hnil'), mapM_lower_cons, mapM_lower_cons, ← hread]
      -- the parts after one that is no step are not known to be alike, and not read
      cases hstep : read? part with
      | none => rfl
      | some step => rw [ih (by rw [hstep]; rfl) hrest]

theorem Pattern.isMeta_toLower (c : Char) : isMeta c.toLower = isMeta c :=
  decide_eq_decide.mpr (Glob.mem_toLower_iff rfl)

/-- No letter is a wildcard, so small letters make none. -/
theorem Pattern.any_isMeta_toLower (part : Text) :
    (part.map Char.toLower).any isMeta = part.any isMeta := by
  rw [List.any_map]
  exact List.any_congr rfl fun c => isMeta_toLower c

/-- Of alike parts, those from the first with a meaning on are alike. -/
theorem Step.Alike.dropWhile {parts others : List Text} (h : Alike parts others)
    (hlower : parts.map (List.map Char.toLower) = others.map (List.map Char.toLower)) :
    Alike (parts.dropWhile (!·.any Pattern.isMeta)) (others.dropWhile (!·.any Pattern.isMeta)) := by
  induction h with
  | nil => exact .nil
  | @cons part other parts others hread htail ih =>
    obtain ⟨hpart, hrest⟩ := List.cons.inj hlower
    have hmeta : part.any Pattern.isMeta = other.any Pattern.isMeta := by
      rw [← Pattern.any_isMeta_toLower, hpart, Pattern.any_isMeta_toLower]
    by_cases hliteral : part.any Pattern.isMeta = true
    · rw [List.dropWhile_cons_of_neg (by simp [hliteral]),
        List.dropWhile_cons_of_neg (by simp [← hmeta, hliteral])]
      exact .cons hread htail
    · rw [List.dropWhile_cons_of_pos (by simp [hliteral]),
        List.dropWhile_cons_of_pos (by simp [← hmeta, hliteral])]
      exact ih (by rw [read?_literal (Bool.eq_false_iff.mpr hliteral)]; rfl) hrest

/-- Small letters take as many bytes as capitals. -/
theorem utf8_length_toLower (text : Text) :
    (utf8 (text.map Char.toLower)).length = (utf8 text).length := by
  induction text with
  | nil => rfl
  | cons c text ih =>
    have hone : (utf8 [c.toLower]).length = (utf8 [c]).length := by
      rcases Glob.toLower_cases c with hc | ⟨hlow, hhigh, hc⟩
      · rw [hc]
      · rw [utf8_ascii (by omega), utf8_ascii (by omega)]
        rfl
    rw [List.map_cons, utf8_cons c.toLower, utf8_cons c text, List.length_append,
      List.length_append, hone, ih]

/-- Texts may be joined first or put in small letters first. -/
theorem intercalate_toLower (parts : List Text) :
    (['/'].intercalate parts).map Char.toLower =
      ['/'].intercalate (parts.map (List.map Char.toLower)) := by
  induction parts with
  | nil => rfl
  | cons part parts ih =>
    cases parts with
    | nil =>
      rw [List.intercalate_singleton, List.map_singleton, List.intercalate_singleton]
    | cons next parts =>
      simp only [List.intercalate_cons_cons, List.map_append, ih, List.map_cons, List.map_nil]
      rfl

namespace Pattern

/-- Small letters bring no two stars together. -/
theorem hasTwoStars_toLower (part : Text) :
    hasTwoStars (part.map Char.toLower) = hasTwoStars part := by
  induction part with
  | nil => rfl
  | cons c part ih =>
    have hhead : (part.map Char.toLower).head? = some '*' ↔ part.head? = some '*' :=
      Step.head?_map_toLower rfl
    rw [List.map_cons, hasTwoStars_cons, hasTwoStars_cons, ih]
    simp only [hhead, Glob.toLower_eq_iff (c := c) (d := '*') rfl]

variable {p q : Pattern}

/-- Patterns that differ in case only have components that do. -/
theorem alike_parts (h : Recased initial p.text q.text) : Step.Alike p.parts q.parts := by
  rw [text_eq p] at h
  exact Step.alike_splitOn (List.splitOn_ne_nil '/' p.text) (fun _ => slash_not_mem_part)
    (.inl rfl) h

/-- A text may be split at its slashes first or put in small letters first. -/
theorem splitOn_toLower (text : Text) :
    (text.map Char.toLower).splitOn '/' = (text.splitOn '/').map (List.map Char.toLower) := by
  induction text with
  | nil => rfl
  | cons c text ih =>
    have hc : (c.toLower == '/') = (c == '/') := by
      rw [Bool.eq_iff_iff, beq_iff_eq, beq_iff_eq]
      exact Glob.toLower_eq_iff rfl
    rw [List.map_cons, List.splitOn_cons_eq_if_modifyHead, List.splitOn_cons_eq_if_modifyHead,
      hc, ih]
    split
    · rfl
    · cases text.splitOn '/' <;> rfl

/-- Patterns that differ in case only have the same components in small letters. -/
theorem parts_toLower (h : Recased initial p.text q.text) :
    p.parts.map (List.map Char.toLower) = q.parts.map (List.map Char.toLower) := by
  unfold parts
  rw [← splitOn_toLower, ← splitOn_toLower, h.map_toLower]

/-- They have the same literal components in small letters, for a wildcard has no case. -/
theorem literalParts_toLower (h : Recased initial p.text q.text) :
    p.literalParts.map (List.map Char.toLower) = q.literalParts.map (List.map Char.toLower) := by
  have hlower : ∀ parts : List Text, (parts.takeWhile (!·.any isMeta)).map (List.map Char.toLower) =
      (parts.map (List.map Char.toLower)).takeWhile (!·.any isMeta) := by
    intro parts
    rw [List.takeWhile_map]
    simp only [Function.comp_def, any_isMeta_toLower]
  unfold literalParts
  rw [hlower, hlower, parts_toLower h]

/-- They have the same components in small letters from the first wildcard on. -/
theorem wildParts_toLower (h : Recased initial p.text q.text) :
    p.wildParts.map (List.map Char.toLower) = q.wildParts.map (List.map Char.toLower) := by
  have hlower : ∀ parts : List Text, (parts.dropWhile (!·.any isMeta)).map (List.map Char.toLower) =
      (parts.map (List.map Char.toLower)).dropWhile (!·.any isMeta) := by
    intro parts
    rw [List.dropWhile_map]
    simp only [Function.comp_def, any_isMeta_toLower]
  unfold wildParts
  rw [hlower, hlower, parts_toLower h]

/-- The components from the first wildcard on differ in case only. -/
theorem alike_wildParts (h : Recased initial p.text q.text) :
    Step.Alike p.wildParts q.wildParts :=
  (alike_parts h).dropWhile (parts_toLower h)

/-- A pattern in another case has the same steps up to case. -/
theorem steps_lower (h : Recased initial p.text q.text) :
    p.steps.map (List.map Step.lower) = q.steps.map (List.map Step.lower) :=
  (alike_wildParts h).mapM_filter (wildParts_toLower h)

/-- The depth to look down to is a matter of stars and slashes, not of case. -/
theorem maxDepth_eq (h : Recased initial p.text q.text) : p.maxDepth = q.maxDepth := by
  have hwild := wildParts_toLower h
  have hstars : ∀ parts : List Text, parts.any hasTwoStars =
      (parts.map (List.map Char.toLower)).any hasTwoStars := by
    intro parts
    rw [List.any_map]
    exact List.any_congr rfl fun part => (hasTwoStars_toLower part).symm
  have hlength : ∀ parts : List Text, (parts.filter (!·.isEmpty)).length =
      ((parts.map (List.map Char.toLower)).filter (!·.isEmpty)).length := by
    intro parts
    rw [List.filter_map, List.length_map]
    simp only [Function.comp_def, List.isEmpty_map]
  unfold maxDepth components
  rw [hstars, hlength, hwild, ← hstars, ← hlength]

/-- The base in another case is as long. -/
theorem length_base (h : Recased initial p.text q.text) : p.base.length = q.base.length := by
  have hjoined : (['/'].intercalate p.literalParts).map Char.toLower =
      (['/'].intercalate q.literalParts).map Char.toLower := by
    rw [intercalate_toLower, literalParts_toLower h, ← intercalate_toLower]
  have hslash : p.text.head? = some '/' ↔ q.text.head? = some '/' :=
    Step.head?_toLower h.map_toLower rfl
  unfold base
  generalize ['/'].intercalate p.literalParts = joined at hjoined
  generalize ['/'].intercalate q.literalParts = other at hjoined
  cases joined with
  | nil =>
    obtain rfl := List.map_eq_nil_iff.mp hjoined.symm
    simp only [hslash]
  | cons c joined =>
    cases other with
    | nil => exact absurd hjoined (by simp)
    | cons d other =>
      show (utf8 (c :: joined)).length = (utf8 (d :: other)).length
      rw [← utf8_length_toLower (c :: joined), hjoined, utf8_length_toLower]

end Pattern
end LineLimit
