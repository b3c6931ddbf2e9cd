import LineLimit.Proofs.Check.Root
import LineLimit.Proofs.Search.Pruning
import LineLimit.Proofs.Walk.Errors

/-!
# Errors that do not concern a search

Where a pattern has steps, a search leaves out what can neither match nor lead to a
match. So one would expect its errors to concern it: to name the root, or something that
the steps admit (`Pattern.Concerns`). For what is entered they do, since a directory is
entered only if it is admitted, and only then told to be closed. But a link that is followed
is looked up before anyone asks whether it is admitted:

> `unconcerning_error_iff`: the errors that do not concern a search are told of links
> that fail, in the directories that the search goes through, if links are followed.

Such a link ends a strict check, although the check would never have read what it leads
to.
-/

namespace LineLimit

namespace Pattern

/-- The path is the root of the pattern, or that of something below it which can be part
of a match, as a file or as a directory. -/
def Concerns (p : Pattern) (hidden : Bool) (path : Path) : Prop :=
  ∃ names : List Name, path = p.root.extend (names.map Name.bytes) ∧
    (names = [] ∨ ∃ isDirectory, p.admits hidden isDirectory (names.map Name.bytes) = true)

/-- Of the names that lead to a path from the root, it can be said whether the path
concerns a search. -/
theorem concerns_extend_iff {p : Pattern} {hidden : Bool} {names : List Name} :
    p.Concerns hidden (p.root.extend (names.map Name.bytes)) ↔
      names = [] ∨ ∃ isDirectory, p.admits hidden isDirectory (names.map Name.bytes) = true := by
  constructor
  · intro ⟨names', hpath, hadmits⟩
    have hsame : names.map Name.bytes = names'.map Name.bytes :=
      Path.extend_injective p.root (fun _ hn => Name.isName_of_mem hn)
        (fun _ hn => Name.isName_of_mem hn) hpath
    rw [hsame]
    refine hadmits.imp_left fun hnil => ?_
    rw [hnil] at hsame
    exact List.map_eq_nil_iff.mp hsame
  · intro hadmits
    exact ⟨names, rfl, hadmits⟩

/-- Below a place that the walk of a pattern comes to, what is wanted as a directory concerns
the search; so the place itself does, with no names below it. -/
theorem concerns_of_visits {p : Pattern} {steps : List Step} (hsteps : p.steps = some steps)
    {o : WalkOptions} {root d : Directory} {links : Nat} {q : Place}
    (h : (p.walkSettings o).Visits root (.start d p.root links) q) (below : List Name)
    (hwanted : below ≠ [] → (p.walkSettings o).admits true (q.names ++ below) = true) :
    p.Concerns o.hidden (q.path.extend (below.map Name.bytes)) := by
  obtain ⟨names, hnames, hpath, habove⟩ := h.spec
  obtain rfl : q.names = names := hnames
  have hroot : (Place.start d p.root links).path = p.root := rfl
  have hextend : q.path.extend (below.map Name.bytes) =
      p.root.extend ((q.names ++ below).map Name.bytes) := by
    rw [hpath, hroot, List.map_append]
    exact (List.foldl_append ..).symm
  rw [hextend, concerns_extend_iff]
  by_cases hnil : q.names ++ below = []
  · exact .inl hnil
  · have hadmits : (p.walkSettings o).admits true (q.names ++ below) = true := by
      by_cases hbelow : below = []
      · rw [hbelow, List.append_nil] at hnil ⊢
        exact habove hnil
      · exact hwanted hbelow
    rw [walkSettings_admits hsteps] at hadmits
    exact .inr ⟨true, hadmits⟩

/-- A search tells every error of its walk. -/
theorem error_mem_select_iff {p : Pattern} {items : List WalkItem} {e : WalkError} :
    .error e ∈ items.filterMap p.select ↔ .error e ∈ items := by
  rw [List.mem_filterMap]
  constructor
  · intro ⟨item, hitem, hselect⟩
    cases item with
    | error e' =>
      obtain rfl : e' = e := by simpa [select] using hselect
      exact hitem
    | ok entry =>
      simp only [select] at hselect
      split at hselect <;> simp at hselect
  · intro herror
    exact ⟨_, herror, rfl⟩

end Pattern

namespace TreeView

variable {v : TreeView} {p : Pattern}

/-- A link that fails is met by a search of the tree: it is in a directory that the walk
comes to and lists, and looking it up gives the error. -/
inductive MeetsFailingLink (v : TreeView) (p : Pattern) (o : WalkOptions) (e : WalkError) : Prop
  | intro {d : Directory} {links : Nat} {q : Place} {n : Node} :
    p.readsStandardInput = false → v.resolve p.root = .ok (.directory d, links) →
    (p.walkSettings o).Visits v.root (.start d p.root links) q →
    (p.walkSettings o).lists q = true → n ∈ q.directory.entries →
    n.linkError? v.root q = some e → MeetsFailingLink v p o e

/-- A search that goes by steps tells an error that does not concern it if and only if it
follows links and the error is that of a link which it meets, whatever the link is
called. -/
theorem unconcerning_error_iff (v : TreeView) {p : Pattern} (o : WalkOptions)
    (hsteps : p.steps.isSome = true) {e : WalkError}
    (hunconcerning : ¬p.Concerns o.hidden e.path) :
    .error e ∈ v.matchingFiles p o ↔ o.followLinks = true ∧ v.MeetsFailingLink p o e := by
  obtain ⟨steps, hsteps⟩ := Option.isSome_iff_exists.mp hsteps
  constructor
  · intro herror
    obtain ⟨hstdin, hwalk⟩ : p.readsStandardInput = false ∧
        .error e ∈ v.walk (p.walkSettings o) p.root := by
      unfold matchingFiles at herror
      split at herror
      · exact absurd herror List.not_mem_nil
      · next hsearch =>
        simp only [Bool.or_eq_true, not_or, Bool.not_eq_true] at hsearch
        exact ⟨hsearch.2, Pattern.error_mem_select_iff.mp herror⟩
    rcases error_mem_walk_iff.mp hwalk with
      ⟨cause, -, rfl⟩ | ⟨links, -, hclosed⟩ | ⟨d, links, hresolve, q, hvisits, hfails⟩
    · -- the root itself
      exact absurd ⟨[], rfl, .inl rfl⟩ hunconcerning
    · exact absurd ⟨[], WalkSettings.path_of_error_mem_refusedRoot hclosed, .inl rfl⟩
        hunconcerning
    · cases hfails with
      | place =>
        exact absurd (Pattern.concerns_of_visits hsteps hvisits [] (absurd rfl)) hunconcerning
      | @closed name _ _ _ hclosed =>
        obtain ⟨hwanted, hpath⟩ := WalkSettings.wanted_of_error_mem_refused hclosed
        rw [hpath] at hunconcerning
        exact absurd (Pattern.concerns_of_visits hsteps hvisits [name] fun _ => hwanted)
          hunconcerning
      | link hlinks hlists hn herror =>
        exact ⟨hlinks, .intro hstdin hresolve hvisits hlists hn herror⟩
  · intro ⟨hlinks, .intro hstdin hresolve hvisits hlists hn herror⟩
    rw [matchingFiles_of_root o (lacksRoot_of_resolve hresolve) hstdin,
      Pattern.error_mem_select_iff]
    exact error_mem_walk_iff.mpr
      (.inr (.inr ⟨_, _, hresolve, _, hvisits, .link hlinks hlists hn herror⟩))

/-- A page, and a link beside it that leads nowhere. -/
def danglingTree : WorkingTree :=
  ((WorkingTree.ofTree .empty).put (utf8 "docs/a.md".toList) (.file (.bytes []))).put
    (utf8 "docs/drafts".toList) (.link (utf8 "gone".toList))

/-- The pattern `docs/*.md`. -/
def pages : Pattern :=
  ⟨"docs/*.md".toList, false,
    [.literal 'd', .literal 'o', .literal 'c', .literal 's', .literal '/', .star, .literal '.',
      .literal 'm', .literal 'd'], rfl⟩

/-- What is said of the link in the tree. -/
def danglingError : WalkError := .system (utf8 "docs/drafts".toList) .notFound

/-- No file or directory called `drafts` can be part of a match. -/
theorem not_concerns_dangling : ¬pages.Concerns false danglingError.path := by
  have hpath : danglingError.path =
      pages.root.extend ([⟨utf8 "drafts".toList, by decide +kernel⟩].map Name.bytes) := by
    decide +kernel
  rw [hpath, Pattern.concerns_extend_iff]
  simp only [List.cons_ne_nil, false_or, Bool.exists_bool]
  decide +kernel

/-- Where links are followed, something is said of the link all the same. -/
theorem error_mem_dangling : .error danglingError ∈
    danglingTree.view.matchingFiles pages { followLinks := true } := by
  decide +kernel

/-- The link is told where links are followed, and ends a strict check; it is not told
where they are not. -/
theorem unconcerning_error_dangling :
    pages.steps.isSome = true ∧ ¬pages.Concerns false danglingError.path ∧
      (.error danglingError ∈ danglingTree.view.matchingFiles pages { followLinks := true } ∧
        danglingTree.view.MeetsFailingLink pages { followLinks := true } danglingError) ∧
      .error danglingError ∉ danglingTree.view.matchingFiles pages {} ∧
      (danglingTree.view.check ⟨"docs/*.md".toList, 80, { followLinks := true }, true⟩).outcome =
        .error (.walk danglingError) := by
  have hsteps : pages.steps.isSome = true := rfl
  have hiff := fun o => unconcerning_error_iff danglingTree.view (p := pages) o hsteps
    (e := danglingError)
  have hmeets := (hiff { followLinks := true } not_concerns_dangling).mp error_mem_dangling
  refine ⟨hsteps, not_concerns_dangling, ⟨error_mem_dangling, hmeets.2⟩, ?_,
    by decide +kernel⟩
  intro hsilent
  exact absurd ((hiff {} not_concerns_dangling).mp hsilent).1 (by decide)

/-- An error of a search need not concern it. -/
theorem not_forall_error_concerns :
    ¬∀ (v : TreeView) (p : Pattern) (o : WalkOptions) (e : WalkError), p.steps.isSome = true →
      .error e ∈ v.matchingFiles p o → p.Concerns o.hidden e.path := by
  intro h
  exact not_concerns_dangling (h danglingTree.view pages { followLinks := true }
    danglingError rfl error_mem_dangling)

end TreeView

end LineLimit
