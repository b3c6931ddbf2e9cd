import LineLimit.Proofs.Glob.Nesting
import LineLimit.Proofs.Pattern.Base

/-!
# When a pattern can be followed name by name

A pattern is split at every slash of its text, whatever the slash stands in. Its parts are globs
of their own only where this is a split between components:

> `steps_isSome_iff`: a pattern has steps if and only if none of its slashes lies in a class or in
> a group or is escaped.

So where a class or a group spans a slash, or a slash is escaped, there are no steps at all, and
no part of the class or group is ever taken for a component.
-/

namespace LineLimit

/-- A component can be read alone if and only if it is a glob. -/
theorem Step.isSome_read?_iff {part : Text} :
    (Step.read? part).isSome = true ↔ ∃ ts, Glob.parse part = .ok ts := by
  unfold Step.read?
  split
  · next hstars => exact ⟨fun _ => ⟨[.everything], hstars ▸ rfl⟩, fun _ => rfl⟩
  · split
    · next ts hparse => exact ⟨fun _ => ⟨ts, hparse⟩, fun _ => rfl⟩
    · next e hparse => exact ⟨nofun, fun ⟨ts, hts⟩ => nomatch hparse.symm.trans hts⟩

namespace Pattern

variable {p : Pattern}

/-- There are steps if every component is a glob. -/
theorem steps_isSome_iff_components :
    p.steps.isSome = true ↔ ∀ part ∈ p.components, ∃ ts, Glob.parse part = .ok ts := by
  unfold steps
  induction p.components with
  | nil => exact ⟨fun _ _ hpart => absurd hpart List.not_mem_nil, fun _ => rfl⟩
  | cons part parts ih =>
    rw [List.forall_mem_cons, ← ih, ← Step.isSome_read?_iff, List.mapM_cons]
    cases Step.read? part with
    | none => simp
    | some step => cases parts.mapM Step.read? <;> simp

/-- All parts are globs if the components are: literal text is a glob, and so is no text. -/
theorem parts_iff_components :
    (∀ part ∈ p.parts, ∃ ts, Glob.parse part = .ok ts) ↔
      ∀ part ∈ p.components, ∃ ts, Glob.parse part = .ok ts := by
  rw [parts_eq]
  constructor
  · intro h part hpart
    exact h part (List.mem_append_right _ (List.mem_filter.mp hpart).1)
  · intro h part hpart
    rcases List.mem_append.mp hpart with hliteral | hwild
    · have hchars : ∀ c ∈ part, isMeta c = false := by
        simpa using List.any_eq_false.mp (not_any_isMeta hliteral)
      exact ⟨_, parse_literals hchars⟩
    · by_cases hnil : part = []
      · exact ⟨[], hnil ▸ rfl⟩
      · exact h part (List.mem_filter.mpr ⟨hwild, by simpa using hnil⟩)

/-- A pattern can be followed name by name if and only if none of its slashes lies in a class or
in a group or is escaped; and so it is if and only if all parts of its text are globs. -/
theorem steps_isSome_iff (p : Pattern) :
    (p.steps.isSome = true ↔ Glob.SlashesOnTop p.text) ∧
      ((∀ part ∈ p.parts, ∃ ts, Glob.parse part = .ok ts) ↔ Glob.SlashesOnTop p.text) := by
  have hparts : (∀ part ∈ p.parts, ∃ ts, Glob.parse part = .ok ts) ↔ Glob.SlashesOnTop p.text := by
    obtain ⟨r, hr, hlevel⟩ := Glob.Reader.exists_parse_iff_level.mp ⟨p.glob, p.parsed⟩
    rw [text_eq] at hr ⊢
    have hread : (['/'].intercalate p.parts).foldlM Glob.Reader.step
        (Glob.Reader.between [] none) = .ok r := hr
    exact Glob.parse_parts_iff (List.splitOn_ne_nil '/' p.text) (fun _ => slash_not_mem_part)
      hread hlevel
  exact ⟨by rw [steps_isSome_iff_components, ← parts_iff_components, hparts], hparts⟩

end Pattern

end LineLimit
