import LineLimit.Proofs.Pattern.Case
import LineLimit.Proofs.Search.Found
import LineLimit.Tree.Working

/-!
# A search without regard to case

Where case is ignored, a pattern in another case asks the same of every path
and of every name on the way (`matchesPath_recased`, `walkSettings_recased`). But
the base of a pattern is where the walk starts, and a walk starts from the
name as it is written.

> `matchingFiles_recased`: a pattern in another case finds the same files if
> and only if it has the same base, or neither pattern finds any.

For what a pattern finds lies below its base (`prefix_of_mem`), so bases of one
length have no file in common unless they are the same.
-/

namespace LineLimit

open Glob (Recased)
open Glob.Reader (initial)

namespace Pattern

variable {p q : Pattern}

theorem glob_lower (h : Recased initial p.text q.text) : Glob.lower p.glob = Glob.lower q.glob := by
  have hparse := h.parse_lower
  rw [p.parsed, q.parsed] at hparse
  exact Except.ok.inj hparse

/-- A pattern in another case matches the same paths. -/
theorem matchesPath_recased (hp : p.ignoreCase = true) (hq : q.ignoreCase = true)
    (h : Recased initial p.text q.text) (path : Path) :
    p.matchesPath path = q.matchesPath path := by
  unfold matchesPath
  rw [hp, hq, ← Glob.accepts_lower, glob_lower h, Glob.accepts_lower]

/-- A pattern in another case is walked for in the same way. -/
theorem walkSettings_recased (hp : p.ignoreCase = true) (hq : q.ignoreCase = true)
    (h : Recased initial p.text q.text) (o : WalkOptions) :
    p.walkSettings o = q.walkSettings o := by
  have hsteps := steps_lower h
  unfold walkSettings
  rw [maxDepth_eq h, hp, hq]
  cases hps : p.steps with
  | none =>
    rw [hps] at hsteps
    rw [Option.map_eq_none_iff.mp hsteps.symm]
  | some steps =>
    rw [hps] at hsteps
    obtain ⟨steps', hqs, hsame⟩ := Option.map_eq_some_iff.mp hsteps.symm
    rw [hqs]
    have hadmits : ∀ isDirectory names, Step.admits true o.hidden isDirectory steps names =
        Step.admits true o.hidden isDirectory steps' names := by
      intro isDirectory names
      rw [← Step.admits_lower, ← hsame, Step.admits_lower]
    simp only [hadmits]

/-- Where the base is the same, so is the place where the walk starts. -/
theorem startsHere_recased (h : Recased initial p.text q.text) (hbase : p.base = q.base) :
    p.startsHere = q.startsHere := by
  have hwild : p.wildParts.isEmpty = q.wildParts.isEmpty := by
    rw [← List.isEmpty_map, wildParts_toLower h, List.isEmpty_map]
  unfold startsHere
  rw [hbase, hwild]

end Pattern

namespace TreeView

variable {p q : Pattern}

/-- With the same base, a pattern in another case finds the same, failures and
order included. -/
theorem matchingFiles_of_base (v : TreeView) (o : WalkOptions) (hp : p.ignoreCase = true)
    (hq : q.ignoreCase = true) (h : Recased initial p.text q.text) (hbase : p.base = q.base) :
    v.matchingFiles p o = v.matchingFiles q o := by
  have hhere := Pattern.startsHere_recased h hbase
  have hroot : p.root = q.root := by
    unfold Pattern.root
    rw [hhere, hbase]
  have hselect : p.select = q.select := by
    funext item
    cases item with
    | error e => rfl
    | ok e =>
      unfold Pattern.select Pattern.relative
      rw [hhere]
      simp only [Pattern.matchesPath_recased hp hq h]
  unfold matchingFiles lacksRoot Pattern.readsStandardInput
  rw [hroot, Pattern.walkSettings_recased hp hq h o, hselect]

/-- What a pattern finds lies below its base. -/
theorem prefix_of_mem {v : TreeView} {o : WalkOptions} {file : Path}
    (hfile : file ∈ successes (v.matchingFiles p o)) : p.base <+: file := by
  obtain ⟨-, e, -, -, rfl, -⟩ := mem_matchingFiles_iff.mp hfile
  exact Path.prefix_extend _ _

/-- Where case is ignored, a pattern in another case finds the same files if and
only if it has the same base, or neither finds any. -/
theorem matchingFiles_recased (v : TreeView) {p : Pattern} (o : WalkOptions)
    (hp : p.ignoreCase = true) {text : Text} (h : Recased initial p.text text) :
    ∃ q : Pattern, Pattern.compile text true = .ok q ∧
      ((∀ file, file ∈ successes (v.matchingFiles p o) ↔ file ∈ successes (v.matchingFiles q o)) ↔
        p.base = q.base ∨
          (successes (v.matchingFiles p o) = [] ∧ successes (v.matchingFiles q o) = [])) := by
  obtain ⟨glob, hglob⟩ : ∃ glob, Glob.parse text = .ok glob := by
    have hparse := h.parse_lower
    rw [p.parsed] at hparse
    cases htext : Glob.parse text with
    | error e => exact absurd hparse (by rw [htext]; simp [Except.map])
    | ok glob => exact ⟨glob, rfl⟩
  refine ⟨⟨text, true, glob, hglob⟩, Pattern.compile_of_parse hglob true, ?_⟩
  -- from here on, only that `q` ignores case and has its text from `p` matters
  generalize hq : (⟨text, true, glob, hglob⟩ : Pattern) = q
  have hcase : q.ignoreCase = true := by rw [← hq]
  have hrecased : Recased initial p.text q.text := by rw [← hq]; exact h
  constructor
  · intro hsame
    by_cases hbase : p.base = q.base
    · exact .inl hbase
    · -- a file that both find would have both bases before it
      have hnone : ∀ file, file ∉ successes (v.matchingFiles p o) := by
        intro file hp'
        have hlength := Pattern.length_base hrecased
        have hbelow : p.base <+: q.base := List.prefix_of_prefix_length_le
          (prefix_of_mem hp') (prefix_of_mem ((hsame file).mp hp')) hlength.le
        exact hbase (hbelow.eq_of_length hlength)
      exact .inr ⟨List.eq_nil_iff_forall_not_mem.mpr hnone,
        List.eq_nil_iff_forall_not_mem.mpr fun file hfile => hnone file ((hsame file).mpr hfile)⟩
  · intro hcases file
    rcases hcases with hbase | ⟨hp', hq'⟩
    · rw [matchingFiles_of_base v o hp hcase hrecased hbase]
    · rw [hp', hq']

/-- A single source file. -/
def rustTree : WorkingTree :=
  (WorkingTree.ofTree .empty).put (utf8 "src/a.rs".toList) (.file (.bytes []))

/-- The pattern `src/*.rs`, in any case. -/
def rustFiles : Pattern :=
  ⟨"src/*.rs".toList, true,
    [.literal 's', .literal 'r', .literal 'c', .literal '/', .star, .literal '.', .literal 'r',
      .literal 's'], rfl⟩

/-- The pattern `SRC/*.rs`, in any case. -/
def capitalRustFiles : Pattern :=
  ⟨"SRC/*.rs".toList, true,
    [.literal 'S', .literal 'R', .literal 'C', .literal '/', .star, .literal '.', .literal 'r',
      .literal 's'], rfl⟩

theorem matchingFiles_recased_suffix :
    rustFiles.ignoreCase = true ∧ Recased initial rustFiles.text "src/*.RS".toList ∧
      successes (rustTree.view.matchingFiles rustFiles {}) = [utf8 "src/a.rs".toList] ∧
      ∃ q : Pattern, Pattern.compile "src/*.RS".toList true = .ok q ∧
        ((∀ file, file ∈ successes (rustTree.view.matchingFiles rustFiles {}) ↔
            file ∈ successes (rustTree.view.matchingFiles q {})) ↔
          rustFiles.base = q.base ∨ (successes (rustTree.view.matchingFiles rustFiles {}) = [] ∧
            successes (rustTree.view.matchingFiles q {}) = [])) :=
  ⟨rfl, by decide +kernel, by decide +kernel,
    matchingFiles_recased rustTree.view {} rfl (by decide +kernel)⟩

/-- A pattern in another case need not find the same files: the base is looked
up as it is written. -/
theorem not_forall_matchingFiles_recased :
    ¬∀ (v : TreeView) (p q : Pattern) (o : WalkOptions), p.ignoreCase = true →
      q.ignoreCase = true → Recased initial p.text q.text →
        ∀ file, file ∈ successes (v.matchingFiles p o) ↔
          file ∈ successes (v.matchingFiles q o) := by
  intro h
  have hfound : utf8 "src/a.rs".toList ∈
      successes (rustTree.view.matchingFiles rustFiles {}) := by
    decide +kernel
  have hnone : successes (rustTree.view.matchingFiles capitalRustFiles {}) = [] := by
    decide +kernel
  have hsame := h rustTree.view rustFiles capitalRustFiles {} rfl rfl (by decide +kernel)
  rw [hsame, hnone] at hfound
  exact absurd hfound List.not_mem_nil

end TreeView
end LineLimit
