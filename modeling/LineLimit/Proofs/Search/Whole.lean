import LineLimit.Proofs.Pattern.Depth
import LineLimit.Proofs.Search.Pruning

/-!
# A search by whole paths misses nothing

Where some component of a pattern cannot be read alone, because a group or an escape
spans a slash, no name can be tested on the way. The walk of such a pattern only leaves
out hidden names and what lies too deep, and each file is tested by its whole path.
Nothing is missed by that either:

> `matchingFiles_eq_shown`: the files found are the files of the unbounded walk that
> match and, unless hidden names are asked for, have no hidden name below the root.

A hidden name on the way to a file is one of the names of the file, so the walk turns
back where every file would fail the test. And no match lies deeper than the walk goes
(`Pattern.length_le_maxDepth`). None of this depends on which names the walker hides; that
these are the names that start with a dot is asked for where it is needed and not before.
-/

namespace LineLimit

namespace Pattern

/-- Whether no name is one that the walker `hides`, or hidden names are asked for. -/
def shows (hides : Name → Bool) (hidden : Bool) (names : List Name) : Bool :=
  hidden || names.all (!hides ·)

/-- Whether an entry of a walk passes every test that a file has to pass by itself, where
names are not tested against the pattern: it is a file, its whole path matches, and none of
its names is hidden unless hidden names are asked for. -/
def passesWhole (p : Pattern) (hides : Name → Bool) (hidden : Bool) (e : WalkEntry) : Bool :=
  e.kind = .file && p.matchesPath (p.relative e.path) && shows hides hidden e.names

/-- The same test of an entry by its names alone. -/
def passesBelow (p : Pattern) (hides : Name → Bool) (hidden : Bool) (e : WalkEntry) : Bool :=
  e.kind = .file && p.matchesPath (p.base.extend (e.names.map Name.bytes)) &&
    shows hides hidden e.names

variable {p : Pattern} {hides : Name → Bool}

/-- The path of an entry says no more than its names. -/
theorem passesWhole_of_walk {v : TreeView} {s : WalkSettings} {e : WalkEntry} (hidden : Bool)
    (he : e ∈ successes (v.walk s p.root)) :
    p.passesWhole hides hidden e = p.passesBelow hides hidden e := by
  unfold passesWhole passesBelow
  rw [relative_of_walk he]

/-- Without steps, an entry is wanted if its last name is shown. -/
theorem walkSettings_shows (hsteps : p.steps = none) (o : WalkOptions) (isDirectory : Bool)
    (names : List Name) :
    (p.walkSettings o hides).admits isDirectory names =
      (o.hidden || !names.getLast?.any hides) := by
  unfold walkSettings
  rw [hsteps]

/-- Names are shown if and only if the last name is, at every place on the way down. -/
theorem shows_iff {hidden : Bool} {names : List Name} :
    shows hides hidden names = true ↔ ∀ above below, names = above ++ below →
      (hidden || !above.getLast?.any hides) = true := by
  unfold shows
  cases hidden with
  | true => simp
  | false =>
    simp only [Bool.false_or]
    constructor
    · intro hall above below happend
      rw [happend, List.all_append, Bool.and_eq_true, List.all_eq_true] at hall
      cases hlast : above.getLast? with
      | none => rfl
      | some name => exact hall.1 name (List.mem_of_getLast? hlast)
    · intro hlast
      apply List.all_eq_true.mpr
      intro name hname
      -- going down to the name, it is the last one
      obtain ⟨above, below, rfl⟩ := List.append_of_mem hname
      have hshown := hlast (above ++ [name]) below (List.append_cons above name below)
      rwa [List.getLast?_concat] at hshown

/-- The walk of a pattern without steps can get to every file that passes. -/
theorem keepsReached_passesBelow (hsteps : p.steps = none) (hclasses : p.classesSpareSlash = true)
    (o : WalkOptions) :
    (p.walkSettings o hides).KeepsReached (p.passesBelow hides o.hidden) := by
  constructor
  · intro e hkeep
    simp only [passesBelow, Bool.and_eq_true, decide_eq_true_eq] at hkeep
    exact hkeep.1.1
  · intro e hkeep hnames
    simp only [passesBelow, Bool.and_eq_true] at hkeep
    obtain ⟨⟨-, hmatch⟩, hshows⟩ := hkeep
    constructor
    · rw [walkSettings_shows hsteps]
      exact shows_iff.mp hshows e.names [] (List.append_nil _).symm
    · intro above below happend _ _
      rw [walkSettings_shows hsteps]
      exact shows_iff.mp hshows above below happend
    · intro depth hdepth
      have hdeep := length_le_maxDepth hdepth hclasses
        (Path.isPart_of_mem fun _ hn => Name.isName_of_mem hn) hmatch
      rwa [List.length_map] at hdeep

/-- The names of an entry of its own walk are shown. -/
theorem shows_of_walk {v : TreeView} (hsteps : p.steps = none) {o : WalkOptions} {e : WalkEntry}
    (he : e ∈ successes (v.walk (p.walkSettings o hides) p.root)) :
    shows hides o.hidden e.names = true := by
  apply shows_iff.mpr
  intro above below hnames
  by_cases habove : above = []
  · rw [habove]
    simp
  · by_cases hbelow : below = []
    · rw [hbelow, List.append_nil] at hnames
      have hwanted := TreeView.walk_wanted he (hnames ▸ habove)
      rwa [walkSettings_shows hsteps, hnames] at hwanted
    · have hwanted := TreeView.walk_above_wanted he hnames habove hbelow
      rwa [walkSettings_shows hsteps] at hwanted

/-- Of an entry of its own walk, the search asks the same. -/
theorem fileOf_eq_passesWhole {v : TreeView} (hsteps : p.steps = none) {o : WalkOptions}
    {e : WalkEntry} (he : e ∈ successes (v.walk (p.walkSettings o hides) p.root)) :
    p.fileOf e =
      if p.passesWhole hides o.hidden e = true then some (p.relative e.path) else none := by
  unfold fileOf passesWhole
  rw [shows_of_walk hsteps he, Bool.and_true]

end Pattern

namespace TreeView

variable {p : Pattern}

/-- Whatever the walker hides, the files found are the files of the unbounded walk that pass
by themselves. -/
theorem successes_matchingFiles_hiding (v : TreeView) (o : WalkOptions) (hides : Name → Bool)
    (hsteps : p.steps = none) (hclasses : p.classesSpareSlash = true)
    (hroot : v.lacksRoot p = false) (hstdin : p.readsStandardInput = false) :
    successes (v.matchingFiles p o hides) =
      ((successes (v.walk (.unbounded o.followLinks) p.root)).filter
        (p.passesWhole hides o.hidden)).map fun e => p.relative e.path := by
  have hfound : successes (v.matchingFiles p o hides) =
      (successes (v.walk (p.walkSettings o hides) p.root)).filterMap p.fileOf := by
    rw [matchingFiles_of_root o hroot hstdin, Pattern.successes_select]
  have hbelow : ∀ s : WalkSettings,
      (successes (v.walk s p.root)).filter (p.passesWhole hides o.hidden) =
        (successes (v.walk s p.root)).filter (p.passesBelow hides o.hidden) :=
    fun s => List.filter_congr fun e he => Pattern.passesWhole_of_walk o.hidden he
  calc successes (v.matchingFiles p o hides)
      = (successes (v.walk (p.walkSettings o hides) p.root)).filterMap fun e =>
          if p.passesWhole hides o.hidden e = true then some (p.relative e.path) else none := by
        rw [hfound]
        exact List.filterMap_congr fun e he => Pattern.fileOf_eq_passesWhole hsteps he
    _ = ((successes (v.walk (p.walkSettings o hides) p.root)).filter
          (p.passesWhole hides o.hidden)).map fun e => p.relative e.path := by
        rw [← List.filterMap_eq_map, List.filterMap_filter]
        rfl
    _ = ((successes (v.walk (.unbounded o.followLinks) p.root)).filter
          (p.passesWhole hides o.hidden)).map fun e => p.relative e.path := by
        rw [hbelow, hbelow, v.walk_filter_eq
          (Pattern.keepsReached_passesBelow hsteps hclasses o) p.root]
        rfl

/-- Whatever the walker hides, the files found are the files of the unbounded walk that
match and, unless hidden names are asked for, have none of the names it hides below the
root. So with the walker's rule, by which a name is hidden if and only if it starts with a
dot, they are those that have no name that starts with a dot. -/
theorem matchingFiles_eq_shown (v : TreeView) (o : WalkOptions) (hides : Name → Bool)
    (hsteps : p.steps = none) (hclasses : p.classesSpareSlash = true)
    (hroot : v.lacksRoot p = false) (hstdin : p.readsStandardInput = false) :
    let files := (successes (v.walk (.unbounded o.followLinks) p.root)).filter fun e =>
      e.kind = .file && p.matchesPath (p.relative e.path)
    successes (v.matchingFiles p o hides) =
        (files.filter fun e => o.hidden || e.names.all (!hides ·)).map
          (fun e => p.relative e.path) ∧
      ((∀ name, hides name = Path.isDotName name.bytes) →
        successes (v.matchingFiles p o hides) =
          (files.filter fun e => o.hidden || e.names.all (!Path.isDotName ·.bytes)).map
            fun e => p.relative e.path) := by
  intro files
  have hshown : successes (v.matchingFiles p o hides) =
      (files.filter fun e => o.hidden || e.names.all (!hides ·)).map
        fun e => p.relative e.path := by
    rw [successes_matchingFiles_hiding v o hides hsteps hclasses hroot hstdin, List.filter_filter]
    congr 2
    funext e
    exact Bool.and_comm ..
  refine ⟨hshown, fun hdots => ?_⟩
  rw [hshown]
  simp only [hdots]

end TreeView

/-- The pattern `{*,*/*}`, in which a group spans a slash. -/
def spanningPattern : Pattern :=
  ⟨"\x7b*,*/*\x7d".toList, false, [.group [[.star], [.star, .literal '/', .star]]], rfl⟩

/-- Two files and two directories with a file in each, with dots at one end of their names
or at both. -/
def dottedTree : WorkingTree :=
  ["....", ".a./x", "a", "b./x"].foldl
    (fun w path => w.put (utf8 path.toList) (.file (.bytes []))) (.ofTree .empty)

/-- A dot at the start of a name hides it, whether or not there is one at its end. -/
theorem matchingFiles_eq_shown_dotted :
    spanningPattern.steps = none ∧ spanningPattern.classesSpareSlash = true ∧
      dottedTree.view.lacksRoot spanningPattern = false ∧
      spanningPattern.readsStandardInput = false ∧
      (∀ name, Name.isHidden name = Path.isDotName name.bytes) ∧
      successes (dottedTree.view.matchingFiles spanningPattern {}) =
        (((successes (dottedTree.view.walk (.unbounded false) spanningPattern.root)).filter
            fun e => e.kind = .file &&
              spanningPattern.matchesPath (spanningPattern.relative e.path)).filter
          fun e => e.names.all (!Path.isDotName ·.bytes)).map
            (fun e => spanningPattern.relative e.path) ∧
      successes (dottedTree.view.matchingFiles spanningPattern {}) =
        [utf8 "a".toList, utf8 "b./x".toList] :=
  ⟨rfl, by decide +kernel, by decide +kernel, by decide +kernel, fun _ => rfl,
    (dottedTree.view.matchingFiles_eq_shown {} Name.isHidden rfl (by decide +kernel)
      (by decide +kernel) (by decide +kernel)).2 fun _ => rfl,
    by decide +kernel⟩

end LineLimit
