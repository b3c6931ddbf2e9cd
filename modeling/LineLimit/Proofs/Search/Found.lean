import LineLimit.Search
import LineLimit.Proofs.Tree.Presence
import LineLimit.Proofs.Walk.Order

/-!
# The files a search finds

A search passes on, in order, the entries of its walk that are files and match.
The path under which it reports an entry is the base of the pattern extended by
the names of the entry (`relative_of_walk`), whether or not the pattern names
the place where the walk starts. So the files are found in the order in which the
walk yields their entries:

> `matchingFiles_increasing`: the components of the files found strictly
> increase; in particular, no file is found twice (`matchingFiles_nodup`).
-/

namespace LineLimit

namespace Pattern

/-- The path of an entry, if it is a file that matches. -/
def fileOf (p : Pattern) (e : WalkEntry) : Option Path :=
  if e.kind = .file && p.matchesPath (p.relative e.path) then some (p.relative e.path) else none

theorem fileOf_eq_some {p : Pattern} {e : WalkEntry} {path : Path} :
    p.fileOf e = some path ↔
      e.kind = .file ∧ p.matchesPath path = true ∧ p.relative e.path = path := by
  unfold fileOf
  constructor
  · intro h
    split at h
    · next hfile =>
      obtain rfl := Option.some.inj h
      rw [Bool.and_eq_true, decide_eq_true_eq] at hfile
      exact ⟨hfile.1, hfile.2, rfl⟩
    · exact absurd h (by simp)
  · intro hexists
    obtain ⟨hkind, hmatch, rfl⟩ := hexists
    rw [if_pos (by simp [hkind, hmatch])]

theorem successes_select (p : Pattern) (items : List WalkItem) :
    successes (items.filterMap p.select) = (successes items).filterMap p.fileOf := by
  induction items with
  | nil => rfl
  | cons item items ih =>
    cases item with
    | error e =>
      rw [List.filterMap_cons_some (show p.select (.error e) = some (.error e) from rfl),
        successes_error, successes_error, ih]
    | ok e =>
      have hselect : p.select (.ok e) = (p.fileOf e).map .ok := by
        simp only [select, fileOf]
        split <;> rfl
      cases hfile : p.fileOf e with
      | none =>
        rw [hfile] at hselect
        rw [List.filterMap_cons_none hselect, successes_ok, List.filterMap_cons_none hfile, ih]
      | some path =>
        rw [hfile] at hselect
        rw [List.filterMap_cons_some hselect, successes_ok, successes_ok,
          List.filterMap_cons_some hfile, ih]

/-- The place that a walk starts from, but which the pattern does not name, is not its base. -/
theorem base_of_startsHere {p : Pattern} (h : p.startsHere = true) : p.base = [] := by
  unfold startsHere at h
  rw [Bool.and_eq_true] at h
  exact List.isEmpty_iff.mp h.1

/-- What is found under names below the root is reported as the base extended
by these names. -/
theorem relative_extend (p : Pattern) {names : List Bytes} (h : ∀ n ∈ names, Path.IsName n) :
    p.relative (p.root.extend names) = p.base.extend names := by
  unfold relative root
  by_cases hs : p.startsHere = true
  · rw [if_pos hs, if_pos hs, base_of_startsHere hs]
    exact Path.belowDot_extend h
  · rw [if_neg hs, if_neg hs]

/-- An entry is reported as the base extended by its names. -/
theorem relative_of_walk {v : TreeView} {s : WalkSettings} {p : Pattern} {e : WalkEntry}
    (h : e ∈ successes (v.walk s p.root)) :
    p.relative e.path = p.base.extend (e.names.map Name.bytes) := by
  rw [TreeView.walk_path h]
  exact p.relative_extend fun n hn => Name.isName_of_mem hn

/-- The components of the path of an entry are those of the base, and its names. -/
theorem components_relative {v : TreeView} {s : WalkSettings} {p : Pattern} {e : WalkEntry}
    (h : e ∈ successes (v.walk s p.root)) :
    (p.relative e.path).components = p.base.components ++ e.names.map Name.bytes := by
  rw [relative_of_walk h]
  exact Path.components_extend p.base fun n hn => Name.isName_of_mem hn

end Pattern

namespace TreeView

/-- A root that is there, and does not stand for the standard input, is walked. -/
theorem matchingFiles_of_root {v : TreeView} {p : Pattern} (o : WalkOptions)
    (hroot : v.lacksRoot p = false) (hstdin : p.readsStandardInput = false)
    {hides : Name → Bool} : v.matchingFiles p o hides =
      (v.walk (p.walkSettings o hides) p.root).filterMap p.select := by
  unfold matchingFiles
  rw [hroot, hstdin]
  rfl

/-- Nothing is found, or what is found are the matching files of a walk. -/
theorem successes_matchingFiles (v : TreeView) (p : Pattern) (o : WalkOptions) :
    successes (v.matchingFiles p o) = [] ∨
      successes (v.matchingFiles p o) =
        (successes (v.walk (p.walkSettings o) p.root)).filterMap p.fileOf := by
  unfold matchingFiles
  split
  · exact Or.inl rfl
  · exact Or.inr (p.successes_select _)

/-- A root that leads somewhere is there. -/
theorem lacksRoot_of_resolve {v : TreeView} {p : Pattern} {r : Target × Nat}
    (h : v.resolve p.root = .ok r) : v.lacksRoot p = false := by
  unfold lacksRoot
  cases hpresent : v.present p.root with
  | ok u => rfl
  | error e =>
    rw [resolve_of_present_error hpresent] at h
    exact absurd h (by simp)

/-- A path is found if it is that of a file of the walk, and matches. -/
theorem mem_matchingFiles_iff {v : TreeView} {p : Pattern} {o : WalkOptions} {path : Path} :
    path ∈ successes (v.matchingFiles p o) ↔ p.readsStandardInput = false ∧
      ∃ e, .ok e ∈ v.walk (p.walkSettings o) p.root ∧ e.kind = .file ∧
        path = p.base.extend (e.names.map Name.bytes) ∧ p.matchesPath path = true := by
  have hfiles : path ∈ successes ((v.walk (p.walkSettings o) p.root).filterMap p.select) ↔
      ∃ e, .ok e ∈ v.walk (p.walkSettings o) p.root ∧ e.kind = .file ∧
        path = p.base.extend (e.names.map Name.bytes) ∧ p.matchesPath path = true := by
    rw [Pattern.successes_select, List.mem_filterMap]
    refine exists_congr fun e => ?_
    rw [mem_successes, Pattern.fileOf_eq_some]
    refine and_congr_right fun he => and_congr_right fun _ => ?_
    rw [Pattern.relative_of_walk (mem_successes.mpr he), and_comm, eq_comm]
  constructor
  · intro h
    unfold matchingFiles at h
    split at h
    · exact absurd h List.not_mem_nil
    · next hsearch =>
      simp only [Bool.or_eq_true, not_or, Bool.not_eq_true] at hsearch
      exact ⟨hsearch.2, hfiles.mp h⟩
  · intro ⟨hstdin, e, he, hfile⟩
    obtain ⟨r, hresolve⟩ : ∃ r, v.resolve p.root = .ok r := by
      cases hresolve : v.resolve p.root with
      | error cause => simp [walk, hresolve] at he
      | ok r => exact ⟨r, rfl⟩
    rw [matchingFiles_of_root o (lacksRoot_of_resolve hresolve) hstdin]
    exact hfiles.mpr ⟨e, he, hfile⟩

/-- The files found strictly increase in the lexicographic order of their
components. -/
theorem matchingFiles_increasing (v : TreeView) (p : Pattern) (o : WalkOptions) :
    (successes (v.matchingFiles p o)).Pairwise fun a b => a.components < b.components := by
  rcases v.successes_matchingFiles p o with hnone | hfound
  · rw [hnone]
    exact List.Pairwise.nil
  · rw [hfound]
    have hentries : (successes (v.walk (p.walkSettings o) p.root)).Pairwise
        fun a b => (p.relative a.path).components < (p.relative b.path).components := by
      refine (v.walk_increasing (p.walkSettings o) p.root).imp_of_mem ?_
      intro a b ha hb hlt
      -- both are reported below the base, by the names that the walk orders
      rw [Pattern.components_relative ha, Pattern.components_relative hb]
      exact List.append_left_lt (Name.map_bytes_lt hlt)
    refine hentries.filterMap p.fileOf ?_
    intro a b hlt path hpath path' hpath'
    rw [← (Pattern.fileOf_eq_some.mp hpath).2.2, ← (Pattern.fileOf_eq_some.mp hpath').2.2]
    exact hlt

/-- The files found are all different. -/
theorem matchingFiles_nodup (v : TreeView) (p : Pattern) (o : WalkOptions) :
    (successes (v.matchingFiles p o)).Nodup := by
  refine (v.matchingFiles_increasing p o).imp ?_
  intro a b hlt heq
  rw [heq] at hlt
  exact List.lt_irrefl _ hlt

end TreeView

end LineLimit
