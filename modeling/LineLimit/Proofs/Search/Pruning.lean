import LineLimit.Proofs.Pattern.Parts
import LineLimit.Proofs.Pattern.Positions
import LineLimit.Proofs.Search.Found
import LineLimit.Proofs.Walk.Pruning
import LineLimit.Tree.Working

/-!
# A pruned search misses nothing

Where a pattern can be read component by component, its walk turns back at
directories that cannot be on the way to a match, and below the depth that a
match can have. Nothing is missed by that: what is found is what a walk through
everything would find if each file were tested by itself.

> `matchingFiles_eq_unbounded`: the files found are the files of the unbounded
> walk that match and whose names the steps of the pattern admit.

Two facts carry this. A directory on the way to an admitted file is admitted
(`Step.admits_above`). And the depth is bounded only where no component is `**`,
so that an admitted file lies exactly as deep as there are steps
(`maxDepth_eq_some`).
-/

namespace LineLimit

namespace Pattern

/-- Where the depth is bounded, it is the number of steps, none of which is `**`. -/
theorem maxDepth_eq_some {p : Pattern} {steps : List Step} {depth : Nat}
    (hsteps : p.steps = some steps) (hdepth : p.maxDepth = some depth) :
    .directories ∉ steps ∧ steps.length = depth := by
  unfold maxDepth at hdepth
  split at hdepth
  · exact absurd hdepth (by simp)
  · next hstars =>
    obtain rfl := Option.some.inj hdepth
    have hread := forall₂_steps hsteps
    refine ⟨fun hmem => hstars ?_, hread.length_eq.symm⟩
    -- a step that is `**` comes from a component with two stars
    obtain ⟨part, hpart, hdirs⟩ := Step.exists_read?_of_mem hread hmem
    refine List.any_eq_true.mpr ⟨part, (List.mem_filter.mp hpart).1, ?_⟩
    rw [Step.read?_eq_directories hdirs]
    rfl

/-- Whether an entry of a walk passes every test that a file has to pass by
itself: it is a file, it matches, and unless it is the place where the walk
starts, the steps of the pattern admit its names. -/
def passes (p : Pattern) (hidden : Bool) (e : WalkEntry) : Bool :=
  e.kind = .file && p.matchesPath (p.relative e.path) &&
    (e.names.isEmpty || p.admits hidden false (e.names.map Name.bytes))

/-- A pattern with steps admits what its steps do. -/
theorem admits_eq {p : Pattern} {steps : List Step} (hsteps : p.steps = some steps)
    (hidden isDirectory : Bool) (names : List Bytes) :
    p.admits hidden isDirectory names =
      Step.admits p.ignoreCase hidden isDirectory steps names := by
  unfold admits
  rw [hsteps]

/-- The walk for such a pattern wants the names that the pattern admits. -/
theorem walkSettings_admits {p : Pattern} {steps : List Step} (hsteps : p.steps = some steps)
    (o : WalkOptions) (isDirectory : Bool) (names : List Name) :
    (p.walkSettings o).admits isDirectory names =
      p.admits o.hidden isDirectory (names.map Name.bytes) := by
  rw [admits_eq hsteps]
  unfold walkSettings
  rw [hsteps]

/-- The walk of a pattern with steps can get to every file that passes. -/
theorem keepsReached {p : Pattern} {steps : List Step} (hsteps : p.steps = some steps)
    (o : WalkOptions) : (p.walkSettings o).KeepsReached (p.passes o.hidden) := by
  refine ⟨fun e hkeep => ?_, fun e hkeep hnames => ?_⟩
  · simp only [passes, Bool.and_eq_true, decide_eq_true_eq] at hkeep
    exact hkeep.1.1
  · have hadmits : p.admits o.hidden false (e.names.map Name.bytes) = true := by
      simp only [passes, Bool.and_eq_true, Bool.or_eq_true] at hkeep
      rcases hkeep.2 with hnil | hadmits
      · exact absurd (List.isEmpty_iff.mp hnil) hnames
      · exact hadmits
    refine ⟨?_, fun above below happend _ hbelow => ?_, fun depth hdepth => ?_⟩
    · rw [walkSettings_admits hsteps]
      exact hadmits
    · rw [happend, List.map_append, admits_eq hsteps] at hadmits
      rw [walkSettings_admits hsteps, admits_eq hsteps]
      exact Step.admits_above hadmits (by simpa using hbelow)
    · obtain ⟨hstars, hlength⟩ := maxDepth_eq_some hsteps hdepth
      rw [admits_eq hsteps] at hadmits
      have hdeep := Step.length_of_admits hadmits hstars
      rw [List.length_map] at hdeep
      omega

/-- Among the entries of its own walk, a pattern with steps need not ask whether
names are admitted. -/
theorem fileOf_of_walk {v : TreeView} {p : Pattern} {steps : List Step}
    (hsteps : p.steps = some steps) {o : WalkOptions} {e : WalkEntry}
    (he : e ∈ successes (v.walk (p.walkSettings o) p.root)) :
    p.fileOf e = if p.passes o.hidden e = true then some (p.relative e.path) else none := by
  unfold fileOf passes
  by_cases hfile : (decide (e.kind = .file) && p.matchesPath (p.relative e.path)) = true
  · rw [hfile, if_pos rfl, Bool.true_and]
    have hadmits :
        (e.names.isEmpty || p.admits o.hidden false (e.names.map Name.bytes)) = true := by
      rw [Bool.or_eq_true]
      by_cases hnames : e.names = []
      · exact Or.inl (List.isEmpty_iff.mpr hnames)
      · have hwanted := TreeView.walk_wanted he hnames
        rw [Bool.and_eq_true, decide_eq_true_eq] at hfile
        rw [walkSettings_admits hsteps, hfile.1] at hwanted
        exact Or.inr hwanted
    rw [if_pos hadmits]
  · rw [if_neg hfile, Bool.eq_false_iff.mpr hfile, Bool.false_and, if_neg (by simp)]

end Pattern

/-- The files found are the files of the unbounded walk that match and whose
names the steps of the pattern admit. -/
theorem TreeView.matchingFiles_eq_unbounded (v : TreeView) {p : Pattern} (o : WalkOptions)
    (hsteps : p.steps.isSome = true) (hroot : v.lacksRoot p = false)
    (hstdin : p.readsStandardInput = false) :
    successes (v.matchingFiles p o) =
      ((successes (v.walk (.unbounded o.followLinks) p.root)).filter (p.passes o.hidden)).map
        fun e => p.relative e.path := by
  obtain ⟨steps, hsteps⟩ := Option.isSome_iff_exists.mp hsteps
  have hfound : successes (v.matchingFiles p o) =
      (successes (v.walk (p.walkSettings o) p.root)).filterMap p.fileOf := by
    rw [matchingFiles_of_root o hroot hstdin, Pattern.successes_select]
  calc successes (v.matchingFiles p o)
      = (successes (v.walk (p.walkSettings o) p.root)).filterMap fun e =>
          if p.passes o.hidden e = true then some (p.relative e.path) else none := by
        rw [hfound]
        exact List.filterMap_congr fun e he => Pattern.fileOf_of_walk hsteps he
    _ = ((successes (v.walk (p.walkSettings o) p.root)).filter (p.passes o.hidden)).map
          fun e => p.relative e.path := by
        rw [← List.filterMap_eq_map, List.filterMap_filter]
        rfl
    _ = ((successes (v.walk (.unbounded o.followLinks) p.root)).filter (p.passes o.hidden)).map
          fun e => p.relative e.path := by
        rw [v.walk_filter_eq (Pattern.keepsReached hsteps o) p.root]
        rfl

/-- Sources at two levels, one of them in a directory that starts with a dot. -/
def sourceTree : WorkingTree :=
  (((WorkingTree.ofTree .empty).put (utf8 "src/a.rs".toList) (.file (.bytes []))).put
    (utf8 "src/.git/b.rs".toList) (.file (.bytes []))).put
    (utf8 "src/sub/c.rs".toList) (.file (.bytes []))

/-- The pattern `src/**/*.rs`. -/
def sourcePattern : Pattern :=
  ⟨"src/**/*.rs".toList, false,
    [.literal 's', .literal 'r', .literal 'c', .between, .star, .literal '.', .literal 'r',
      .literal 's'], rfl⟩

theorem matchingFiles_eq_unbounded_sources :
    sourcePattern.steps.isSome = true ∧ sourceTree.view.lacksRoot sourcePattern = false ∧
      sourcePattern.readsStandardInput = false ∧
      successes (sourceTree.view.matchingFiles sourcePattern {}) =
        ((successes (sourceTree.view.walk (.unbounded false) sourcePattern.root)).filter
          (sourcePattern.passes false)).map (fun e => sourcePattern.relative e.path) ∧
      successes (sourceTree.view.matchingFiles sourcePattern {}) =
        [utf8 "src/a.rs".toList, utf8 "src/sub/c.rs".toList] :=
  ⟨rfl, by decide +kernel, by decide +kernel,
    sourceTree.view.matchingFiles_eq_unbounded {} rfl (by decide +kernel) (by decide +kernel),
    by decide +kernel⟩

end LineLimit
