import LineLimit.Proofs.Pattern.Separators
import LineLimit.Proofs.Search.Case
import LineLimit.Proofs.Walk.Twins
import Mathlib.Data.List.Sort

/-!
# Searching with two slashes for one

A slash of a pattern is doubled: `src//*.rs` for `src/*.rs`. Empty components do not count where
the depth of the walk and its steps are concerned, so the walk is the same. But it reports its
files under the base, which ends before the slashes, and asks the pattern as a whole for both.

> `matchingFiles_doubled`: where both slashes are in the base, the same files are found, as long
> as no path reaches the limit because of the slash; anywhere else no file is found.
-/

namespace LineLimit

/-! ## Patterns whose bases lead to the same -/

namespace Pattern

variable {p q : Pattern} {x x' : Path}

/-- Two patterns are the same, but where the base of one starts with `x`, that of the other starts
with `x'`. This makes no difference to where the base leads, nor to what matches below it. -/
structure Respelled (x x' : Path) (p q : Pattern) : Prop where
  base : ∃ t, t ≠ [] ∧ p.base = x ++ t ∧ q.base = x' ++ t
  zero_mem : 0 ∈ q.base ↔ 0 ∈ p.base
  components : q.base.components = p.base.components
  lookupPieces : q.base.lookupPieces = p.base.lookupPieces
  head? : q.base.head? = p.base.head?
  walkSettings : ∀ o, q.walkSettings o = p.walkSettings o
  matchesPath : ∀ names, q.matchesPath (q.base.extend names) = p.matchesPath (p.base.extend names)

theorem Respelled.symm (h : p.Respelled x x' q) : q.Respelled x' x p where
  base := by
    obtain ⟨t, ht, hp, hq⟩ := h.base
    exact ⟨t, ht, hq, hp⟩
  zero_mem := h.zero_mem.symm
  components := h.components.symm
  lookupPieces := h.lookupPieces.symm
  head? := h.head?.symm
  walkSettings := fun o => (h.walkSettings o).symm
  matchesPath := fun names => (h.matchesPath names).symm

/-- A walk starts from a base that is not empty. -/
theorem root_of_base (h : p.base ≠ []) : p.root = p.base := by
  unfold root startsHere
  rw [List.isEmpty_eq_false_iff.mpr h, Bool.false_and, if_neg Bool.false_ne_true]

/-- The roots of patterns that are respelled differ as their bases do. -/
theorem Respelled.roots (h : p.Respelled x x' q) : ∃ t, t ≠ [] ∧ p.base = x ++ t ∧
    q.base = x' ++ t ∧ p.root = x ++ t ∧ q.root = x' ++ t := by
  obtain ⟨t, ht, hp, hq⟩ := h.base
  refine ⟨t, ht, hp, hq, ?_, ?_⟩
  · rw [root_of_base (by simp [hp, ht]), hp]
  · rw [root_of_base (by simp [hq, ht]), hq]

/-- The walk depends on the components from the first wildcard on only. -/
theorem walkSettings_of_wildParts (hwild : q.wildParts = p.wildParts)
    (hcase : q.ignoreCase = p.ignoreCase) (o : WalkOptions) :
    q.walkSettings o = p.walkSettings o := by
  have hsteps : q.steps = p.steps := by
    unfold steps components
    rw [hwild]
  have hdepth : q.maxDepth = p.maxDepth := by
    unfold maxDepth components
    rw [hwild]
  unfold walkSettings
  rw [hsteps, hdepth, hcase]

/-- A slash that is doubled in the base makes no difference but to the length of the base. -/
theorem respelled_doubled {before after : Text} (hp : p.text = before ++ '/' :: after)
    (hq : q.text = before ++ '/' :: '/' :: after) (hcase : q.ignoreCase = p.ignoreCase)
    (hnested : Glob.Unnested p.text) (hafter : after ≠ [] ∧ after.head? ≠ some '/')
    (h : InBase before after) : p.Respelled (utf8 before) (utf8 before ++ [slash]) q := by
  obtain ⟨hwild, r, hr, hpbase, hqbase⟩ := base_doubled hp hq hafter h
  refine ⟨⟨slash :: r, List.cons_ne_nil _ _, hpbase, ?_⟩, ?_, ?_, ?_, ?_,
    walkSettings_of_wildParts hwild.symm hcase,
    matchesPath_doubled hp hq hcase hnested h hr hpbase hqbase⟩
  · rw [hqbase, List.append_assoc]
    rfl
  · rw [hpbase, hqbase]
    simp
  · rw [hpbase, hqbase]
    exact Path.components_doubled _ _
  · rw [hpbase, hqbase]
    exact Path.lookupPieces_doubled _ hr
  · rw [hpbase, hqbase]
    exact Path.head?_doubled _ _

end Pattern

namespace TreeView

variable {v : TreeView} {p q : Pattern} {o : WalkOptions} {path : Path}

/-- The components of the paths that a pattern finds. -/
def found (v : TreeView) (p : Pattern) (o : WalkOptions) : List (List Bytes) :=
  (successes (v.matchingFiles p o)).map Path.components

/-- What a pattern finds, it finds with another spelling of its base, as long as the path does
not reach the limit. -/
theorem mem_found_of_respelled {x x' : Path} (h : p.Respelled x x' q)
    (hpath : path ∈ successes (v.matchingFiles p o)) (hfits : Path.Fits x x' path.length) :
    path.components ∈ v.found q o := by
  obtain ⟨hstdin, e, he, hkind, hbase, hmatch⟩ := mem_matchingFiles_iff.mp hpath
  obtain ⟨t, ht, hp, hq, hroot, hroot'⟩ := h.roots
  have hentry : e.path = path := by
    rw [walk_path (mem_successes.mpr he), hroot, ← hp, hbase]
  rw [hroot] at he
  obtain ⟨e', he', hkind', hnames⟩ := exists_file_of_walk ht he hkind (hentry ▸ hfits)
    fun r hr hlt => by
      rw [← hp] at hr
      rw [← hq] at hlt ⊢
      refine resolve_respelled hr ?_ h.zero_mem.mp h.lookupPieces h.head? hlt
      simp [hq, ht]
  have hstdin' : q.readsStandardInput = false := by
    rw [← hstdin]
    unfold Pattern.readsStandardInput
    rw [hroot, hroot', ← hp, ← hq, h.components]
  refine List.mem_map.mpr ⟨q.base.extend (e.names.map Name.bytes),
    mem_matchingFiles_iff.mpr ⟨hstdin', e', ?_, hkind', ?_, ?_⟩, ?_⟩
  · rw [h.walkSettings, hroot']
    exact he'
  · rw [hnames]
  · rw [h.matchesPath, ← hbase]
    exact hmatch
  · rw [hbase, Path.components_extend _ fun _ hn => Name.isName_of_mem hn,
      Path.components_extend _ fun _ hn => Name.isName_of_mem hn, h.components]

/-- The files found are in order, name by name. -/
theorem found_increasing (v : TreeView) (p : Pattern) (o : WalkOptions) :
    (v.found p o).Pairwise (· < ·) :=
  List.pairwise_map.mpr (v.matchingFiles_increasing p o)

/-- What is found of a set that is found in order is found in the same order. -/
theorem found_sublist (h : v.found q o ⊆ v.found p o) :
    (v.found q o).Sublist (v.found p o) :=
  List.sublist_of_subperm_of_pairwise
    (List.subperm_of_subset (v.found_increasing q o).nodup h)
    (v.found_increasing q o) (v.found_increasing p o)

/-! ## A doubled slash -/

/-- A pattern in which a slash is doubled finds, if both slashes are in the base, the same files,
in the same order, unless a path reaches the limit with one slash more. Otherwise it finds
none. -/
theorem matchingFiles_doubled (v : TreeView) {p : Pattern} (o : WalkOptions) {before after : Text}
    (htext : p.text = before ++ '/' :: after) (hnested : Glob.Unnested p.text)
    (hafter : after ≠ [] ∧ after.head? ≠ some '/') :
    ∃ q, Pattern.compile (before ++ '/' :: '/' :: after) p.ignoreCase = .ok q ∧
      (Pattern.InBase before after → (v.found q o).Sublist (v.found p o) ∧
        ∀ path ∈ successes (v.matchingFiles p o), path.length + 1 < pathLimit →
          path.components ∈ v.found q o) ∧
      (¬Pattern.InBase before after → v.found q o = []) ∧
      ((∀ path ∈ successes (v.matchingFiles p o), path.length + 1 < pathLimit) →
        (v.found q o = v.found p o ↔ Pattern.InBase before after ∨ v.found p o = [])) := by
  obtain ⟨q, hcompile, hq, hcase, hnested'⟩ := p.exists_doubled htext hnested
  have hinside (h : Pattern.InBase before after) : (v.found q o).Sublist (v.found p o) ∧
      ∀ path ∈ successes (v.matchingFiles p o), path.length + 1 < pathLimit →
        path.components ∈ v.found q o := by
    have hsame := Pattern.respelled_doubled htext hq hcase hnested hafter h
    constructor
    · refine found_sublist fun names hnames => ?_
      obtain ⟨path, hpath, rfl⟩ := List.mem_map.mp hnames
      exact mem_found_of_respelled hsame.symm hpath (.inl (by simp))
    · intro path hpath hlength
      refine mem_found_of_respelled hsame hpath (.inr ?_)
      rw [List.length_append, List.length_singleton]
      omega
  have houtside (h : ¬Pattern.InBase before after) : v.found q o = [] := by
    refine List.map_eq_nil_iff.mpr (List.eq_nil_iff_forall_not_mem.mpr fun path hpath => ?_)
    obtain ⟨-, e, -, -, rfl, hmatch⟩ := mem_matchingFiles_iff.mp hpath
    rw [Pattern.matchesPath_doubled_of_not_inBase hq hnested' h
      fun _ hn => Name.isName_of_mem hn] at hmatch
    exact nomatch hmatch
  refine ⟨q, hcompile, hinside, houtside, fun hfits => ?_⟩
  by_cases h : Pattern.InBase before after
  · refine iff_of_true ((hinside h).1.antisymm (found_sublist fun names hnames => ?_)) (.inl h)
    obtain ⟨path, hpath, rfl⟩ := List.mem_map.mp hnames
    exact (hinside h).2 path hpath (hfits path hpath)
  · rw [houtside h]
    exact ⟨fun hnone => .inr hnone.symm, fun hcases => (hcases.resolve_left h).symm⟩

/-- A source file in a directory of a directory. -/
def nestedTree : WorkingTree :=
  (WorkingTree.ofTree .empty).put (utf8 "lib/src/a.rs".toList) (.file (.bytes []))

/-- The pattern `lib/src/*.rs`. -/
def nestedFiles : Pattern :=
  ⟨"lib/src/*.rs".toList, false,
    [.literal 'l', .literal 'i', .literal 'b', .literal '/', .literal 's', .literal 'r',
      .literal 'c', .literal '/', .star, .literal '.', .literal 'r', .literal 's'], rfl⟩

/-- The first slash of the pattern is in its base, the second ends the base. -/
theorem matchingFiles_doubled_nested :
    nestedTree.view.found nestedFiles {} =
        [[utf8 "lib".toList, utf8 "src".toList, utf8 "a.rs".toList]] ∧
      Pattern.InBase "lib".toList "src/*.rs".toList ∧
      ¬Pattern.InBase "lib/src".toList "*.rs".toList ∧
      (∃ q, Pattern.compile "lib//src/*.rs".toList false = .ok q ∧
        nestedTree.view.found q {} = nestedTree.view.found nestedFiles {}) ∧
      ∃ q, Pattern.compile "lib/src//*.rs".toList false = .ok q ∧
        nestedTree.view.found q {} = [] := by
  have hfound : successes (nestedTree.view.matchingFiles nestedFiles {}) =
      [utf8 "lib/src/a.rs".toList] := by decide +kernel
  have hfits : ∀ path ∈ successes (nestedTree.view.matchingFiles nestedFiles {}),
      path.length + 1 < pathLimit := by
    rw [hfound]
    decide
  have hinside : Pattern.InBase "lib".toList "src/*.rs".toList := by decide
  have houtside : ¬Pattern.InBase "lib/src".toList "*.rs".toList := by decide
  refine ⟨?_, hinside, houtside, ?_, ?_⟩
  · unfold found
    rw [hfound]
    decide
  · obtain ⟨q, hcompile, -, -, hsame⟩ :=
      matchingFiles_doubled nestedTree.view {}
        (by decide : nestedFiles.text = "lib".toList ++ '/' :: "src/*.rs".toList)
        (by decide) (by decide)
    exact ⟨q, hcompile, (hsame hfits).mpr (.inl hinside)⟩
  · obtain ⟨q, hcompile, -, hnone, -⟩ :=
      matchingFiles_doubled nestedTree.view {}
        (by decide : nestedFiles.text = "lib/src".toList ++ '/' :: "*.rs".toList)
        (by decide) (by decide)
    exact ⟨q, hcompile, hnone houtside⟩

/-- The pattern `src//*.rs`, in any case. -/
def doubledFiles : Pattern :=
  ⟨"src//*.rs".toList, true,
    [.literal 's', .literal 'r', .literal 'c', .literal '/', .literal '/', .star, .literal '.',
      .literal 'r', .literal 's'], rfl⟩

/-- A slash that is doubled after the base does harm: `src//*.rs` finds nothing where `src/*.rs`
finds a file. -/
theorem not_forall_found_doubled :
    ¬∀ (v : TreeView) (p q : Pattern) (o : WalkOptions) (before after : Text),
      p.text = before ++ '/' :: after → Glob.Unnested p.text →
        before ≠ [] ∧ before.getLast? ≠ some '/' → after ≠ [] ∧ after.head? ≠ some '/' →
          Pattern.compile (before ++ '/' :: '/' :: after) p.ignoreCase = .ok q →
            v.found q o = v.found p o := by
  intro h
  have hsame := h rustTree.view rustFiles doubledFiles {} "src".toList "*.rs".toList (by decide)
    (by decide) (by decide) (by decide) rfl
  exact absurd hsame (by decide +kernel)

end TreeView

end LineLimit
