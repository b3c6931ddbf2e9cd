import LineLimit.Platform
import LineLimit.Proofs.Glob.Depth

/-!
# Patterns whose matchers are built

The matchers of a pattern are those of globs that are read from the pattern's text or from a
component of it (`parsed_of_mem_matchers`), and a component has no more braces than the text.
Since braces bound how deeply a glob is nested, the engine as it comes builds every matcher of
a pattern with few of them:

> `refusal?_of_count_le`: nothing is refused of a pattern with at most `braceLimit` opening
> braces.
-/

namespace LineLimit

/-- What is joined by slashes has each of its parts in one piece. -/
theorem infix_intercalate {part : Text} {parts : List Text} (h : part ∈ parts) :
    part <:+: ['/'].intercalate parts := by
  induction parts with
  | nil => exact absurd h List.not_mem_nil
  | cons first rest ih =>
    cases rest with
    | nil =>
      obtain rfl := List.mem_singleton.mp h
      rw [List.intercalate_singleton]
    | cons next rest =>
      rw [List.intercalate_cons_cons]
      rcases List.mem_cons.mp h with rfl | h
      · exact (List.prefix_append part _).isInfix.trans (List.prefix_append _ _).isInfix
      · exact (ih h).trans (List.suffix_append _ _).isInfix

namespace Pattern

variable {p : Pattern}

/-- A component is a piece of the text. -/
theorem infix_of_mem_components {part : Text} (h : part ∈ p.components) : part <:+: p.text := by
  have hpart : part ∈ p.parts :=
    (List.dropWhile_suffix _).subset (List.mem_filter.mp h).1
  have hinfix := infix_intercalate hpart
  rwa [parts, List.intercalate_splitOn] at hinfix

/-- Each glob that is matched against a name was read from a component. -/
theorem parsed_of_mem_componentGlobs {parts : List Text} {glob : Glob.Tokens}
    (h : glob ∈ componentGlobs parts) : ∃ part ∈ parts, Glob.parse part = .ok glob := by
  induction parts with
  | nil => exact absurd h List.not_mem_nil
  | cons part parts ih =>
    have hlater : glob ∈ componentGlobs parts →
        ∃ part' ∈ part :: parts, Glob.parse part' = .ok glob := by
      intro h
      obtain ⟨part', hpart', hparse⟩ := ih h
      exact ⟨part', List.mem_cons_of_mem _ hpart', hparse⟩
    unfold componentGlobs at h
    split at h
    · exact hlater h
    · next first dotted hread =>
      rcases List.mem_cons.mp h with rfl | h
      · refine ⟨part, List.mem_cons_self .., ?_⟩
        unfold Step.read? at hread
        split at hread
        · exact absurd hread (by simp)
        · split at hread
          · next ts hparse =>
            obtain ⟨rfl, -⟩ := Step.name.inj (Option.some.inj hread)
            exact hparse
          · exact absurd hread (by simp)
      · exact hlater h
    · exact absurd h List.not_mem_nil

/-- Matchers are built of the text of a pattern and of pieces of it. -/
theorem parsed_of_mem_matchers {glob : Glob.Tokens} (h : glob ∈ p.matchers) :
    ∃ part, part <:+: p.text ∧ Glob.parse part = .ok glob := by
  rcases List.mem_append.mp h with h | h
  · obtain ⟨part, hpart, hparse⟩ := parsed_of_mem_componentGlobs h
    exact ⟨part, infix_of_mem_components hpart, hparse⟩
  · exact ⟨p.text, List.infix_refl p.text, List.mem_singleton.mp h ▸ p.parsed⟩

/-- A pattern keeps its text. -/
theorem text_of_compile {text : Text} {ignoreCase : Bool}
    (h : compile text ignoreCase = .ok p) : p.text = text := by
  unfold compile at h
  split at h
  · exact congrArg Pattern.text (Except.ok.inj h).symm
  · exact absurd h (by simp)

/-- So many opening braces do not nest too deeply, wherever they stand. -/
def braceLimit : Nat := 81

/-- The engine as it comes builds every matcher of a pattern with few opening braces. -/
theorem refusal?_of_count_le (h : p.text.count '{' ≤ braceLimit) :
    p.refusal? .standard = none := by
  apply List.findSome?_eq_none_iff.mpr
  intro glob hglob
  obtain ⟨part, hpart, hparse⟩ := parsed_of_mem_matchers hglob
  have hdepth : Glob.depth glob ≤ Glob.depthLimit :=
    calc Glob.depth glob
        ≤ 3 * part.count '{' + 5 := Glob.depth_le hparse
      _ ≤ 3 * braceLimit + 5 := by
        have hcount := hpart.sublist.count_le '{'
        omega
      _ ≤ Glob.depthLimit := by decide
  exact if_pos hdepth

end Pattern

end LineLimit
