import LineLimit.Proofs.Tree.Order
import LineLimit.Proofs.Walk.Names

/-!
# The order in which a walk yields its entries

The entries of a directory are in the order of their names, and everything that
a walk yields for one of them lies below it. So a walk yields its entries in
the lexicographic order of their names below the path walked from, whatever
errors and left out entries stand between them.

> `walk_increasing`: the entries of a walk strictly increase in that order; in
> particular, no entry is yielded twice.
-/

namespace LineLimit

/-- The entries among the items strictly increase in the order of their names. -/
def Increasing (items : List WalkItem) : Prop :=
  (successes items).Pairwise fun a b => a.names < b.names

theorem increasing_nil : Increasing [] := List.Pairwise.nil

/-- Below an earlier entry of a place everything comes earlier. -/
theorem Place.names_lt {p : Place} {m n : Name} {a b : WalkEntry} (ha : p.Leads m a)
    (hb : p.Leads n b) (h : m < n) : a.names < b.names := by
  obtain ⟨as, hnames, -⟩ := ha
  obtain ⟨bs, hnames', -⟩ := hb
  rw [hnames, hnames']
  exact List.append_left_lt (List.cons_lt_cons_iff.mpr (Or.inl h))

/-- A directory comes before everything below it. -/
theorem Place.entry_lt {p : Place} {n : Name} {e : WalkEntry} (h : p.Leads n e) :
    p.entry.names < e.names := by
  obtain ⟨rest, hnames, -⟩ := h
  rw [hnames]
  have hlt : p.names ++ [] < p.names ++ n :: rest := List.append_left_lt (List.nil_lt_cons n rest)
  rwa [List.append_nil] at hlt

namespace WalkSettings

variable {s : WalkSettings} {root : Directory} {descend : Place → List WalkItem} {p : Place}
  {name : Name}

/-- One entry at most is in order. -/
theorem increasing_report {kind : EntryKind} : Increasing (s.report p name kind) := by
  simp only [report]
  split
  · exact List.pairwise_singleton _ _
  · exact increasing_nil

/-- A place comes before what is below it, as far as that is listed. -/
theorem increasing_cons_below {items : Unit → List WalkItem} (hitems : Increasing (items ()))
    (hyields : ∀ e ∈ successes (items ()), ∃ next, s.Yields p next e) :
    Increasing (.ok p.entry :: s.below p items) := by
  refine List.Pairwise.cons (fun e he => ?_) ?_
  · obtain ⟨next, hnext⟩ := hyields e (mem_of_mem_below he)
    exact Place.entry_lt hnext.leads
  · show Increasing (s.below p items)
    unfold below
    split
    · exact increasing_nil
    · split
      · exact increasing_nil
      · exact hitems

/-- A directory comes before what is in it. -/
theorem increasing_enter {items : Unit → List WalkItem} (hitems : Increasing (items ()))
    (hyields : ∀ e ∈ successes (items ()), ∃ next, s.Yields p next e) :
    Increasing (s.enter p items) := by
  unfold enter
  split
  · exact increasing_cons_below hitems hyields
  · exact increasing_nil

theorem increasing_refusedRoot {isLink : Bool} : Increasing (s.refusedRoot isLink p) := by
  unfold refusedRoot
  split
  · exact increasing_nil
  · exact increasing_cons_below increasing_nil fun e he => absurd he (by simp)

/-- What is at the end of a link is listed in its place, in the order there. -/
theorem increasing_visitLink (hroot : root.Ordered) (hp : p.directory.Ordered)
    (hdescend : ∀ q, q.directory.Ordered → Increasing (descend q))
    (hyields : ∀ q, ∀ e ∈ successes (descend q), ∃ next, s.Yields q next e) (link : Path) :
    Increasing (s.visitLink root descend p name link) := by
  simp only [visitLink]
  split
  · exact increasing_report
  · exact increasing_report
  · split
    · exact increasing_nil
    · exact increasing_report
  · next d links htarget =>
    split
    · split
      · exact increasing_nil
      · refine increasing_enter (hdescend _ ?_) (hyields _)
        split at htarget
        · exact absurd htarget (by simp)
        · exact followLink_ordered hroot hp htarget
    · exact increasing_report
  · split
    · exact increasing_nil
    · exact increasing_report

mutual

/-- The items of a name are in order, if those of the directories entered are. -/
theorem visit_increasing (hroot : root.Ordered)
    (hdescend : ∀ q, q.directory.Ordered → Increasing (descend q))
    (hyields : ∀ q, ∀ e ∈ successes (descend q), ∃ next, s.Yields q next e) :
    ∀ (n : Node) (p : Place), n.Ordered → p.directory.Ordered →
      Increasing (visit s root descend p n)
  | .leaf name (.file content), p, _, _ => increasing_report
  | .leaf name .device, p, _, _ => increasing_report
  | .leaf name .closed, p, _, _ => by
    rw [visit]
    exact increasing_enter increasing_nil fun e he => absurd he (by simp)
  | .leaf name (.link path), p, _, hp => by
    rw [visit]
    exact increasing_visitLink hroot hp hdescend hyields path
  | .directory name entries, p, hn, hp => by
    rw [visit]
    refine increasing_enter ?_ (fun e he => ?_)
    · exact visitAll_increasing hroot hdescend hyields entries _ hn (Directory.ordered_child hp hn)
    · obtain ⟨n, -, hn⟩ := visitAll_yields hyields entries _ he
      exact ⟨n.name, hn⟩

/-- The items of a directory are in order: what is below a name comes before all later names. -/
theorem visitAll_increasing (hroot : root.Ordered)
    (hdescend : ∀ q, q.directory.Ordered → Increasing (descend q))
    (hyields : ∀ q, ∀ e ∈ successes (descend q), ∃ next, s.Yields q next e) :
    ∀ (ns : List Node) (p : Place), Ordered ns → p.directory.Ordered →
      Increasing (visitAll s root descend p ns)
  | [], p, _, _ => by
    rw [visitAll]
    exact increasing_nil
  | n :: ns, p, hns, hp => by
    obtain ⟨hn, hlt, hrest⟩ := hns
    unfold Increasing
    rw [visitAll, successes_append]
    refine List.pairwise_append.mpr ⟨visit_increasing hroot hdescend hyields n p hn hp,
      visitAll_increasing hroot hdescend hyields ns p hrest hp, ?_⟩
    intro a ha b hb
    -- `b` lies below a later entry `m` of the place than `a` does
    obtain ⟨m, hm, hb⟩ := visitAll_yields hyields ns p hb
    exact Place.names_lt (visit_yields hyields n p ha).leads hb.leads (hlt m hm)

end

theorem descend_increasing (hroot : root.Ordered) (links : Nat) (p : Place)
    (hp : p.directory.Ordered) : Increasing (s.descend root links p) := by
  induction links generalizing p with
  | zero =>
    rw [WalkSettings.descend]
    exact visitAll_increasing hroot (fun _ _ => increasing_nil)
      (fun q e he => absurd he (by simp)) _ p hp.1 hp
  | succ links ih =>
    rw [WalkSettings.descend]
    exact visitAll_increasing hroot ih (fun q => descend_yields links q) _ p hp.1 hp

end WalkSettings

namespace TreeView

/-- The entries of a walk strictly increase in the order of their names. -/
theorem walk_increasing (v : TreeView) (s : WalkSettings) (path : Path) :
    Increasing (v.walk s path) := by
  unfold TreeView.walk
  split
  · exact increasing_nil
  · exact List.pairwise_singleton _ _
  · exact List.pairwise_singleton _ _
  · exact WalkSettings.increasing_refusedRoot
  · next d links hresolve =>
    have hd : d.Ordered := resolve_ordered hresolve
    exact WalkSettings.increasing_cons_below
      (WalkSettings.descend_increasing v.tree.ordered_root linkLimit _ hd)
      (WalkSettings.descend_yields linkLimit _)

end TreeView

end LineLimit
