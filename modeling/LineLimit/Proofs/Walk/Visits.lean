import LineLimit.Proofs.Tree.Presence
import LineLimit.Proofs.Walk.Names

/-!
# What a walk meets in which place

A walk goes from place to place: into a directory of a place, or through a link
to a directory, as long as the directory is wanted and its place can be listed
(`WalkSettings.Visits`). Each item that it yields is met in one of these places
(`WalkSettings.Meets`): it tells that the path of the place is too long to be
opened, or stands for one entry of the place.

> `mem_below_descend_iff`: the items below a place are those met in the places
> that are visited from there.

What a walk visits is said without a bound on the links entered. The bound that
the walk itself has is never met, since behind a link that was followed there
are fewer links left to follow.
-/

namespace LineLimit

/-- What a link of a place leads to. -/
def Place.target (root : Directory) (p : Place) (name : Name) (link : Path) :
    Except SystemError (Target × Nat) :=
  if pathLimit ≤ (p.path.child name.bytes).length then .error .nameTooLong
  else followLink root p.directory p.links link

theorem Place.followLink_of_target {root : Directory} {p : Place} {name : Name} {link : Path}
    {r : Target × Nat} (h : p.target root name link = .ok r) :
    followLink root p.directory p.links link = .ok r := by
  unfold target at h
  split at h
  · exact absurd h (by simp)
  · exact h

/-- A directory that the walk is inside of in a place, with its path. -/
def Place.ancestor? (p : Place) (d : Directory) : Option (List Name × Path) :=
  p.ancestors.find? (·.1 = d.location)

/-- The place that an entry of a place leads to, if it is a directory or, where
links are followed, a link to one that the walk is not inside of. -/
def Node.inner? (followLinks : Bool) (root : Directory) (p : Place) : Node → Option Place
  | .directory name entries => some (p.child name (p.directory.child name entries) p.links)
  | .leaf name (.link link) =>
    match p.target root name link with
    | .ok (.directory d, links) =>
      if followLinks && (p.ancestor? d).isNone then some (p.child name d links) else none
    | _ => none
  | _ => none

namespace WalkSettings

/-- Entries are not listed below this place, because it lies too deep. -/
def tooDeep (s : WalkSettings) (p : Place) : Bool := s.maxDepth.any (· ≤ p.names.length)

/-- The entries of a place are listed: it lies not too deep, and its path can be
opened. -/
def lists (s : WalkSettings) (p : Place) : Bool := !s.tooDeep p && p.path.length < pathLimit

/-- The walk comes from one place to another. -/
inductive Visits (s : WalkSettings) (root : Directory) : Place → Place → Prop
  | here (p : Place) : Visits s root p p
  | further {p q r : Place} {n : Node} : s.lists p = true → n ∈ p.directory.entries →
    n.inner? s.followLinks root p = some q → s.admits true q.names = true →
      Visits s root q r → Visits s root p r

/-- The item for a directory, if it is wanted. -/
def announce (s : WalkSettings) (q : Place) : List WalkItem :=
  if s.admits true q.names then [.ok q.entry] else []

/-- The items for an entry of a place, without those below it. Below a closed directory there
are none, so that the place of it is not one that the walk comes to. -/
def own (s : WalkSettings) (root : Directory) (p : Place) : Node → List WalkItem
  | .leaf name (.file _) => s.report p name .file
  | .leaf name .device => s.report p name .other
  | .leaf name .closed => s.refused (p.child name .unseen p.links)
  | .leaf name (.link link) =>
    match p.target root name link with
    | .ok (.file _, _) => s.report p name .file
    | .ok (.device, _) => s.report p name .other
    | .ok (.closed, _) =>
      if s.followLinks then [.error (.closed (p.path.child name.bytes))]
      else s.report p name .other
    | .ok (.directory d, links) =>
      if s.followLinks then
        match p.ancestor? d with
        | some (_, ancestor) => [.error (.loop (p.path.child name.bytes) ancestor)]
        | none => s.announce (p.child name d links)
      else s.report p name .other
    | .error cause =>
      if s.followLinks then [.error (.system (p.path.child name.bytes) cause)]
      else s.report p name .other
  | .directory name entries => s.announce (p.child name (p.directory.child name entries) p.links)

/-- The item is met in the place. -/
inductive Meets (s : WalkSettings) (root : Directory) (p : Place) : WalkItem → Prop
  /-- The path of the place is too long. -/
  | place : s.tooDeep p = false → pathLimit ≤ p.path.length →
    Meets s root p (.error (.system p.path .nameTooLong))
  /-- The item is that of an entry. -/
  | entry {n : Node} {item : WalkItem} : s.lists p = true → n ∈ p.directory.entries →
    item ∈ s.own root p n → Meets s root p item

/-- The item is met in some place that the walk comes to. -/
def Brings (s : WalkSettings) (root : Directory) (p : Place) (item : WalkItem) : Prop :=
  ∃ q, s.Visits root p q ∧ s.Meets root q item

/-- The item is met for an entry of a place: it is that of the entry, or is met
in the place that the entry leads to, or further on. -/
def BringsFor (s : WalkSettings) (root : Directory) (p : Place) (n : Node) (item : WalkItem) :
    Prop :=
  item ∈ s.own root p n ∨
    ∃ q, n.inner? s.followLinks root p = some q ∧ s.admits true q.names = true ∧
      s.Brings root q item

variable {s : WalkSettings} {root : Directory} {descend : Place → List WalkItem} {p : Place}
  {name : Name} {item : WalkItem}

/-- What is met in a place or further on is met for the place itself or, if its
entries are listed, for one of them. -/
theorem brings_iff :
    s.Brings root p item ↔
      (s.tooDeep p = false ∧ pathLimit ≤ p.path.length ∧
          item = .error (.system p.path .nameTooLong)) ∨
        s.lists p = true ∧ ∃ n ∈ p.directory.entries, s.BringsFor root p n item := by
  constructor
  · intro ⟨r, hvisits, hmeets⟩
    cases hvisits with
    | here =>
      cases hmeets with
      | place hdeep hlong => exact .inl ⟨hdeep, hlong, rfl⟩
      | entry hlists hn hitem => exact .inr ⟨hlists, _, hn, .inl hitem⟩
    | further hlists hn hinner hwanted hrest =>
      exact .inr ⟨hlists, _, hn, .inr ⟨_, hinner, hwanted, r, hrest, hmeets⟩⟩
  · intro hcases
    rcases hcases with ⟨hdeep, hlong, rfl⟩ | ⟨hlists, n, hn, hitem | hinner⟩
    · exact ⟨p, .here p, .place hdeep hlong⟩
    · exact ⟨p, .here p, .entry hlists hn hitem⟩
    · obtain ⟨q, hinner, hwanted, r, hrest, hmeets⟩ := hinner
      exact ⟨r, .further hlists hn hinner hwanted hrest, hmeets⟩

/-! ## The items of a walk -/

/-- An item below a place is the error of its path, if that is too long, or an item of the
listing. -/
theorem mem_below_iff {items : Unit → List WalkItem} :
    item ∈ s.below p items ↔
      (s.tooDeep p = false ∧ pathLimit ≤ p.path.length ∧
          item = .error (.system p.path .nameTooLong)) ∨
        s.lists p = true ∧ item ∈ items () := by
  have hbelow : s.below p items = if s.tooDeep p then []
      else if pathLimit ≤ p.path.length then [.error (.system p.path .nameTooLong)]
      else items () := rfl
  rw [hbelow, lists]
  by_cases hdeep : s.tooDeep p = true
  · simp [hdeep]
  · rw [Bool.not_eq_true] at hdeep
    by_cases hlong : pathLimit ≤ p.path.length
    · simp [hdeep, hlong, Nat.not_lt.mpr hlong]
    · simp [hdeep, hlong, Nat.lt_of_not_le hlong]

/-- An item of a directory is its own entry, or below it if it is wanted. -/
theorem mem_enter_iff {items : Unit → List WalkItem} :
    item ∈ s.enter p items ↔
      item ∈ s.announce p ∨ s.admits true p.names = true ∧ item ∈ s.below p items := by
  unfold enter announce
  by_cases hwanted : s.admits true p.names = true
  · simp [hwanted]
  · simp [hwanted]

/-- An item of a link is its own, or stands among the items of a directory that
the link leads to. -/
theorem mem_visitLink_iff {link : Path} :
    item ∈ s.visitLink root descend p name link ↔
      item ∈ s.own root p (.leaf name (.link link)) ∨
        ∃ q, Node.inner? s.followLinks root p (.leaf name (.link link)) = some q ∧
          s.admits true q.names = true ∧ item ∈ s.below q fun _ => descend q := by
  simp only [visitLink, own, Node.inner?, Place.ancestor?]
  rw [← Place.target]
  cases p.target root name link with
  | error cause => simp
  | ok found =>
    obtain ⟨t, links⟩ := found
    cases t with
    | file content => simp
    | device => simp
    | closed => simp
    | directory d =>
      by_cases hlinks : s.followLinks = true
      · cases hancestor : p.ancestors.find? (·.1 = d.location) with
        | none => simp [hlinks, hancestor, mem_enter_iff]
        | some ancestor => simp [hlinks, hancestor]
      · simp [hlinks]

/-- Behind a link that was followed, fewer links may be. -/
theorem links_lt_of_inner? {followLinks : Bool} {link : Path} {q : Place}
    (h : Node.inner? followLinks root p (.leaf name (.link link)) = some q) :
    q.links < p.links := by
  simp only [Node.inner?] at h
  split at h
  · next d links htarget =>
    rw [Option.ite_none_right_eq_some] at h
    obtain rfl := Option.some.inj h.2
    exact followLink_links_lt (Place.followLink_of_target htarget)
  · exact absurd h (by simp)

/-! Below, the items of a place with less than `bound` links left are taken to be those met
there or further on. Then those of an entry of a place with no more links left are those met
for the entry. -/

mutual

/-- The items of a name are its own, and those of the place that it leads to. -/
theorem mem_visit_iff {bound : Nat}
    (hdescend : ∀ q : Place, q.links < bound →
      (item ∈ s.below q (fun _ => descend q) ↔ s.Brings root q item)) :
    ∀ (n : Node) (p : Place), p.links ≤ bound →
      (item ∈ visit s root descend p n ↔ s.BringsFor root p n item)
  | .leaf name (.file content), p, _ => by
    simp [visit, BringsFor, own, Node.inner?]
  | .leaf name .device, p, _ => by
    simp [visit, BringsFor, own, Node.inner?]
  | .leaf name .closed, p, _ => by
    simp [visit, BringsFor, own, Node.inner?]
  | .leaf name (.link path), p, hp => by
    rw [visit, mem_visitLink_iff, BringsFor]
    refine or_congr_right (exists_congr fun q => and_congr_right fun hinner => ?_)
    rw [hdescend q (Nat.lt_of_lt_of_le (links_lt_of_inner? hinner) hp)]
  | .directory name entries, p, hp => by
    have hentries := mem_visitAll_iff hdescend entries
      (p.child name (p.directory.child name entries) p.links) hp
    rw [visit, mem_enter_iff, mem_below_iff, hentries, BringsFor]
    refine or_congr_right ?_
    simp only [Node.inner?, Option.some.injEq, exists_eq_left']
    rw [brings_iff]
    rfl

theorem mem_visitAll_iff {bound : Nat}
    (hdescend : ∀ q : Place, q.links < bound →
      (item ∈ s.below q (fun _ => descend q) ↔ s.Brings root q item)) :
    ∀ (ns : List Node) (p : Place), p.links ≤ bound →
      (item ∈ visitAll s root descend p ns ↔ ∃ n ∈ ns, s.BringsFor root p n item)
  | [], p, _ => by simp [visitAll]
  | n :: ns, p, hp => by
    rw [visitAll, List.mem_append, mem_visit_iff hdescend n p hp,
      mem_visitAll_iff hdescend ns p hp, List.exists_mem_cons_iff]

end

/-- The items below a place are those met in the places visited from there. -/
theorem mem_below_descend_iff (links : Nat) (p : Place) (hp : p.links ≤ links) :
    item ∈ s.below p (fun _ => s.descend root links p) ↔ s.Brings root p item := by
  -- below a link that was followed, fewer links may be
  induction links generalizing p with
  | zero =>
    rw [mem_below_iff, brings_iff, WalkSettings.descend,
      mem_visitAll_iff (fun q hq => absurd hq (Nat.not_lt_zero _)) _ p hp]
  | succ links ih =>
    rw [mem_below_iff, brings_iff, WalkSettings.descend,
      mem_visitAll_iff (fun q hq => ih q (Nat.le_of_lt_succ hq)) _ p hp]

/-! ## Where the places visited lie -/

theorem exists_child_of_inner? {followLinks : Bool} {n : Node} {q : Place}
    (h : n.inner? followLinks root p = some q) : ∃ d links, q = p.child n.name d links := by
  cases n with
  | directory name entries => exact ⟨_, _, (Option.some.inj h).symm⟩
  | leaf name leaf =>
    cases leaf with
    | file content => exact absurd h (by simp [Node.inner?])
    | device => exact absurd h (by simp [Node.inner?])
    | closed => exact absurd h (by simp [Node.inner?])
    | link link =>
      simp only [Node.inner?] at h
      split at h
      · rw [Option.ite_none_right_eq_some] at h
        exact ⟨_, _, (Option.some.inj h.2).symm⟩
      · exact absurd h (by simp)

/-- A place visited lies below the place that the walk comes from, and is wanted
if it is another one. -/
theorem Visits.spec {q : Place} (h : s.Visits root p q) :
    ∃ names, q.names = p.names ++ names ∧ q.path = p.path.extend (names.map Name.bytes) ∧
      (names ≠ [] → s.admits true q.names = true) := by
  induction h with
  | here p => exact ⟨[], (List.append_nil _).symm, rfl, fun hne => absurd rfl hne⟩
  | @further p q r n hlists hn hinner hwanted hrest ih =>
    obtain ⟨names, hnames, hpath, hadmits⟩ := ih
    obtain ⟨d, links, rfl⟩ := exists_child_of_inner? hinner
    refine ⟨n.name :: names, ?_, hpath, fun _ => ?_⟩
    · rw [hnames]
      exact (List.append_cons ..).symm
    · by_cases hnil : names = []
      · rw [hnames, hnil, List.append_nil]
        exact hwanted
      · exact hadmits hnil

end WalkSettings

/-- A walk from a directory yields the directory, and what is met from there. -/
theorem TreeView.mem_walk_of_directory {v : TreeView} {s : WalkSettings} {path : Path}
    {d : Directory} {links : Nat} (h : v.resolve path = .ok (.directory d, links))
    {item : WalkItem} :
    item ∈ v.walk s path ↔ item = .ok (Place.start d path links).entry ∨
      s.Brings v.root (.start d path links) item := by
  unfold TreeView.walk
  rw [h]
  rw [← WalkSettings.mem_below_descend_iff linkLimit _ (resolve_links_le h)]
  exact List.mem_cons

end LineLimit
