import LineLimit.Proofs.Tree.Entries
import LineLimit.Proofs.Walk.Files

/-!
# Walks from two spellings of a path

Where two paths lead to the same directory, a walk comes from both to the same places, but with
paths that start differently (`Place.Twin`). What it sees there is the same as long as these paths
are short enough to be looked up. So it yields the same files:

> `exists_file_of_walk`: a file yielded below `x ++ t` is yielded below `x' ++ t` under the same
> names, unless its path there reaches the limit.
-/

namespace LineLimit

/-- Up to some length, no path reaches the limit because it starts with `x'` instead of `x`. -/
def Path.Fits (x x' : Path) (length : Nat) : Prop :=
  x'.length ≤ x.length ∨ length + x'.length < pathLimit + x.length

/-- Two places are the same, but where the path of one starts with `x`, that of the other
starts with `x'`. -/
structure Place.Twin (x x' : Path) (p p' : Place) : Prop where
  directory : p'.directory = p.directory
  names : p'.names = p.names
  links : p'.links = p.links
  ancestors : p'.ancestors.map Prod.fst = p.ancestors.map Prod.fst
  path : ∃ t, t ≠ [] ∧ p.path = x ++ t ∧ p'.path = x' ++ t

namespace Place.Twin

variable {x x' : Path} {p p' : Place} {root : Directory} {bound : Nat}

/-- Twins have twins for children. -/
theorem child (h : p.Twin x x' p') (name : Name) (d : Directory) (links : Nat) :
    (p.child name d links).Twin x x' (p'.child name d links) where
  directory := rfl
  names := congrArg (· ++ [name]) h.names
  links := rfl
  ancestors := congrArg (d.location :: ·) h.ancestors
  path := by
    obtain ⟨t, ht, hp, hp'⟩ := h.path
    refine ⟨Path.child t name.bytes, ?_, ?_, ?_⟩
    · rw [Path.child_eq]
      exact fun hnil => name.isName.ne_nil (List.append_eq_nil_iff.mp hnil).2
    · show p.path.child name.bytes = _
      rw [hp]
      exact Path.child_append x ht name.bytes
    · show p'.path.child name.bytes = _
      rw [hp']
      exact Path.child_append x' ht name.bytes

/-- Twins are as far below the one path as below the other. -/
theorem length_eq (h : p.Twin x x' p') : p'.path.length + x.length = p.path.length + x'.length := by
  obtain ⟨t, -, hp, hp'⟩ := h.path
  rw [hp, hp', List.length_append, List.length_append]
  omega

/-- Where the paths fit alike, the limit on their length cuts both twins off or none. -/
theorem length_lt (h : p.Twin x x' p') {length : Nat} (hfits : Path.Fits x x' length)
    (hle : p.path.length ≤ length) (hlt : p.path.length < pathLimit) :
    p'.path.length < pathLimit := by
  have hlength := h.length_eq
  unfold Path.Fits at hfits
  omega

/-- What a link of a place leads to, it leads to in the other. -/
theorem target (h : p.Twin x x' p') {name : Name} {link : Path} {r : Target × Nat}
    {length : Nat} (hfits : Path.Fits x x' length) (hle : (p.path.child name.bytes).length ≤ length)
    (htarget : p.target root name link = .ok r) : p'.target root name link = .ok r := by
  unfold Place.target at htarget ⊢
  split at htarget
  · exact absurd htarget (by simp)
  · next hshort =>
    have hshort' : (p'.path.child name.bytes).length < pathLimit :=
      (h.child name p.directory p.links).length_lt hfits hle (Nat.lt_of_not_le hshort)
    rw [if_neg (Nat.not_le.mpr hshort'), h.directory, h.links]
    exact htarget

/-- Twins are inside of the same directories. -/
theorem ancestor?_isNone (h : p.Twin x x' p') (d : Directory) :
    (p'.ancestor? d).isNone = (p.ancestor? d).isNone := by
  have hnone (q : Place) :
      (q.ancestor? d).isNone = true ↔ d.location ∉ q.ancestors.map Prod.fst := by
    rw [Place.ancestor?, Option.isNone_iff_eq_none, List.find?_eq_none]
    simp only [List.mem_map, not_exists, not_and, decide_eq_true_eq]
  rw [Bool.eq_iff_iff, hnone, hnone, h.ancestors]

/-- What is a file in a place is one in the other. -/
theorem isFileIn (h : p.Twin x x' p') {n : Node} {length : Nat} (hfits : Path.Fits x x' length)
    (hle : (p.path.child n.name.bytes).length ≤ length) (hfile : n.isFileIn root p = true) :
    n.isFileIn root p' = true := by
  cases n with
  | directory name entries => exact hfile
  | leaf name leaf =>
    cases leaf with
    | file content => exact hfile
    | device => exact hfile
    | closed => exact hfile
    | link link =>
      simp only [Node.isFileIn] at hfile ⊢
      split at hfile
      · next htarget =>
        have htarget' := h.target hfits hle htarget
        rw [show (Node.leaf name (.link link)).name = name from rfl] at htarget'
        rw [htarget']
      · exact absurd hfile (by simp)

/-- The place that an entry leads to in one place has a twin, to which it leads in the other. -/
theorem inner? (h : p.Twin x x' p') {followLinks : Bool} {n : Node} {q : Place} {length : Nat}
    (hfits : Path.Fits x x' length) (hle : q.path.length ≤ length)
    (hinner : n.inner? followLinks root p = some q) :
    ∃ q', n.inner? followLinks root p' = some q' ∧ q.Twin x x' q' := by
  cases n with
  | directory name entries =>
    obtain rfl := Option.some.inj hinner
    refine ⟨_, rfl, ?_⟩
    rw [h.directory, h.links]
    exact h.child name _ _
  | leaf name leaf =>
    cases leaf with
    | file content => exact absurd hinner (by simp [Node.inner?])
    | device => exact absurd hinner (by simp [Node.inner?])
    | closed => exact absurd hinner (by simp [Node.inner?])
    | link link =>
      simp only [Node.inner?] at hinner ⊢
      split at hinner
      · next d links htarget =>
        rw [Option.ite_none_right_eq_some] at hinner
        obtain ⟨hopen, hq⟩ := hinner
        obtain rfl := Option.some.inj hq
        rw [h.target hfits hle htarget]
        refine ⟨_, if_pos ?_, h.child name d links⟩
        rw [h.ancestor?_isNone]
        exact hopen
      · exact absurd hinner (by simp)

end Place.Twin

namespace WalkSettings

variable {s : WalkSettings} {root : Directory} {x x' : Path} {p p' r : Place}

/-- The places visited lie deeper and deeper. -/
theorem Visits.length_le (h : s.Visits root p r) : p.path.length ≤ r.path.length := by
  obtain ⟨names, -, hpath, -⟩ := h.spec
  rw [hpath]
  exact (Path.prefix_extend _ _).length_le

/-- What is listed of a place is listed of its twin. -/
theorem lists_of_twin (h : p.Twin x x' p') {length : Nat} (hfits : Path.Fits x x' length)
    (hle : p.path.length ≤ length) (hlists : s.lists p = true) : s.lists p' = true := by
  unfold lists tooDeep at hlists ⊢
  rw [Bool.and_eq_true, decide_eq_true_eq] at hlists ⊢
  rw [h.names]
  exact ⟨hlists.1, h.length_lt hfits hle hlists.2⟩

/-- Where the walk comes from a place, it comes from the other to a twin. -/
theorem Visits.twin (h : s.Visits root p r) (htwin : p.Twin x x' p') {length : Nat}
    (hfits : Path.Fits x x' length) (hle : r.path.length ≤ length) :
    ∃ r', s.Visits root p' r' ∧ r.Twin x x' r' := by
  induction h generalizing p' with
  | here p => exact ⟨p', .here p', htwin⟩
  | @further p q r n hlists hn hinner hwanted hrest ih =>
    have hq : q.path.length ≤ length := Nat.le_trans hrest.length_le hle
    have hp : p.path.length ≤ length := by
      obtain ⟨d, links, rfl⟩ := exists_child_of_inner? hinner
      exact Nat.le_trans (Path.prefix_extend p.path [n.name.bytes]).length_le hq
    obtain ⟨q', hinner', htwin'⟩ := htwin.inner? hfits hq hinner
    obtain ⟨r', hvisits, hr⟩ := ih htwin' hle
    refine ⟨r', .further (lists_of_twin htwin hfits hp hlists) ?_ hinner' ?_ hvisits, hr⟩
    · rw [htwin.directory]
      exact hn
    · rw [htwin'.names]
      exact hwanted

/-- A file that is found from a place is found from the other under the same names. -/
theorem Finds.twin {e : WalkEntry} (h : s.Finds root p e) (htwin : p.Twin x x' p')
    (hfits : Path.Fits x x' e.path.length) : ∃ e', s.Finds root p' e' ∧ e'.names = e.names := by
  obtain @⟨r, n, hvisits, hlists, hn, hfile, hwanted⟩ := h
  have hle : r.path.length ≤ (r.path.child n.name.bytes).length :=
    (Path.prefix_extend r.path [n.name.bytes]).length_le
  obtain ⟨r', hvisits', hr⟩ := hvisits.twin htwin hfits hle
  have hn' : n ∈ r'.directory.entries := hr.directory.symm ▸ hn
  have hwanted' : s.admits false (r'.names ++ [n.name]) = true := hr.names.symm ▸ hwanted
  exact ⟨_, .intro hvisits' (lists_of_twin hr hfits hle hlists) hn'
    (hr.isFileIn hfits (Nat.le_refl _) hfile) hwanted', congrArg (· ++ [n.name]) hr.names⟩

end WalkSettings

/-- A file that a walk yields below `x ++ t` is yielded below `x' ++ t` under the same names, if
both lead to the same, and the path of the file does not reach the limit. -/
theorem TreeView.exists_file_of_walk {v : TreeView} {s : WalkSettings} {x x' t : Path}
    (ht : t ≠ []) {e : WalkEntry} (he : .ok e ∈ v.walk s (x ++ t)) (hkind : e.kind = .file)
    (hfits : Path.Fits x x' e.path.length)
    (hresolve : ∀ r, v.resolve (x ++ t) = .ok r → (x' ++ t).length < pathLimit →
      v.resolve (x' ++ t) = .ok r) :
    ∃ e', .ok e' ∈ v.walk s (x' ++ t) ∧ e'.kind = .file ∧ e'.names = e.names := by
  have hle : (x ++ t).length ≤ e.path.length := by
    rw [walk_path (mem_successes.mpr he)]
    exact (Path.prefix_extend _ _).length_le
  have hfound {r : Target × Nat} (h : v.resolve (x ++ t) = .ok r) :
      v.resolve (x' ++ t) = .ok r := by
    have hlt := length_lt_of_resolve h
    refine hresolve r h ?_
    unfold Path.Fits at hfits
    rw [List.length_append] at hle hlt ⊢
    omega
  rcases (file_mem_walk_iff hkind).mp he with ⟨content, links, h, rfl⟩ | ⟨d, links, h, hfinds⟩
  · exact ⟨_, (file_mem_walk_iff rfl).mpr (.inl ⟨content, links, hfound h, rfl⟩), rfl, rfl⟩
  · have htwin : (Place.start d (x ++ t) links).Twin x x' (.start d (x' ++ t) links) :=
      ⟨rfl, rfl, rfl, rfl, t, ht, rfl, rfl⟩
    obtain ⟨e', hfinds', hnames⟩ := hfinds.twin htwin hfits
    have hkind' : e'.kind = .file := by
      cases hfinds'
      rfl
    exact ⟨e', (file_mem_walk_iff hkind').mpr (.inr ⟨d, links, hfound h, hfinds'⟩), hkind', hnames⟩

end LineLimit
