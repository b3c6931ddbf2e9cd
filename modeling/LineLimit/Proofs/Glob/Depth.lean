import LineLimit.Glob.Depth
import LineLimit.Proofs.Glob.Components

/-!
# The text of a glob bounds its nesting

Levels come from groups. A token that is none adds four at most, and a group adds three to
the tokens inside it at most: itself, the choice between its branches, and the row that a
branch is. Each group has a brace that opens it, so the braces of a text bound the levels of
the glob that it is:

> `depth_le`: a glob is nested at most three levels for each opening brace of its text, and
> five more.

While the glob is read, what an open group will add is charged in advance: the tokens inside
`k` open groups leave room for `3 * k` levels (`Reader.Shallow`).
-/

namespace LineLimit.Glob

/-- A row is nested as deep as the deepest of its tokens. -/
theorem levels_le {ts : Tokens} {bound : Nat} (h : ∀ t ∈ ts, t.levels ≤ bound) :
    levels ts ≤ bound := by
  induction ts with
  | nil => exact Nat.zero_le _
  | cons t ts ih =>
    rw [levels]
    exact Nat.max_le.mpr
      ⟨h t (List.mem_cons_self ..), ih fun u hu => h u (List.mem_cons_of_mem _ hu)⟩

/-- A branch adds its row to the levels of its tokens. -/
theorem levelsOfSome_le {branches : List Tokens} {bound : Nat}
    (h : ∀ ts ∈ branches, ∀ t ∈ ts, t.levels ≤ bound) : levelsOfSome branches ≤ bound + 1 := by
  induction branches with
  | nil => exact Nat.zero_le _
  | cons ts branches ih =>
    have hts : levels ts ≤ bound := levels_le (h ts (List.mem_cons_self ..))
    have hrest := ih fun us hus => h us (List.mem_cons_of_mem _ hus)
    rw [levelsOfSome]
    split <;> omega

/-- A group adds three levels to the tokens inside it at most. -/
theorem levels_ofBranches_le {branches : List Tokens} {bound : Nat}
    (h : ∀ ts ∈ branches, ∀ t ∈ ts, t.levels ≤ bound) :
    (Token.ofBranches branches).levels ≤ bound + 3 := by
  unfold Token.ofBranches
  have hinside : levelsOfSome (branches.filter (!·.all Token.isBlank)) ≤ bound + 1 :=
    levelsOfSome_le fun ts hts => h ts (List.mem_filter.mp hts).1
  rw [Token.levels]
  exact (Nat.add_le_add (Nat.min_le_right _ 2) hinside).trans (by omega)

namespace Reader

variable {r r' : Reader} {n : Nat} {c : Char}

/-- The tokens around and in the open groups, the innermost group first, leave room below
`bound` for the levels of the groups that they are in. -/
def Roomy (bound : Nat) : List OpenGroup → Prop
  | [] => True
  | g :: gs =>
    (∀ t ∈ g.before, t.levels + 3 * gs.length ≤ bound) ∧
      (∀ ts ∈ g.branches, ∀ t ∈ ts, t.levels + 3 * (gs.length + 1) ≤ bound) ∧ Roomy bound gs

/-- A higher bound leaves more room. -/
theorem Roomy.mono {bound bound' : Nat} {gs : List OpenGroup} (h : Roomy bound gs)
    (hle : bound ≤ bound') : Roomy bound' gs := by
  induction gs with
  | nil => trivial
  | cons g gs ih =>
    obtain ⟨hbefore, hbranches, hgs⟩ := h
    exact ⟨fun t ht => (hbefore t ht).trans hle,
      fun ts hts t ht => (hbranches ts hts t ht).trans hle, ih hgs⟩

/-- Of a text with `n` opening braces, all that has been read leaves room for the levels of the
groups that are open. -/
structure Shallow (r : Reader) (n : Nat) : Prop where
  groups : r.groups.length ≤ n
  branch : ∀ t ∈ r.branch, t.levels + 3 * r.groups.length ≤ 3 * n + 4
  roomy : Roomy (3 * n + 4) r.groups

/-- More braces leave more room. -/
theorem Shallow.mono (h : r.Shallow n) {m : Nat} (hle : n ≤ m) : r.Shallow m :=
  ⟨h.groups.trans hle, fun t ht => (h.branch t ht).trans (by omega), h.roomy.mono (by omega)⟩

/-- Only the tokens that have been read take room. -/
theorem Shallow.congr (h : r.Shallow n) (hbranch : r'.branch = r.branch)
    (hgroups : r'.groups = r.groups) : r'.Shallow n :=
  ⟨hgroups ▸ h.groups, by rw [hbranch, hgroups]; exact h.branch, hgroups ▸ h.roomy⟩

/-- The room left is enough for any token that is no group. -/
theorem Shallow.push (h : r.Shallow n) {t : Token} (ht : t.levels ≤ 4) : (r.push t).Shallow n where
  groups := h.groups
  branch u hu := by
    rcases List.mem_cons.mp hu with rfl | hu
    · have hgroups : (r.push u).groups.length ≤ n := h.groups
      omega
    · exact h.branch u hu
  roomy := h.roomy

theorem Shallow.twoStars (h : r.Shallow n) : r.twoStars.Shallow n :=
  (h.push (t := .star) (by decide)).push (by decide)

/-- A `**` comes to stand beside the tokens of the branch, or in the place of one. -/
theorem Shallow.spanning (h : r.Shallow n) {t : Token} (ht : t.levels ≤ 4) :
    (r.spanning t).Shallow n := by
  obtain ⟨branch, groups, last, mode⟩ := r
  unfold Reader.spanning
  split
  · exact h.push (Nat.le_refl 4)
  · exact h
  · exact h
  · next before rest _ _ hbranch =>
    obtain rfl : branch = before :: rest := hbranch
    have hrest : Shallow ⟨rest, groups, last, mode⟩ n :=
      ⟨h.groups, fun u hu => h.branch u (List.mem_cons_of_mem _ hu), h.roomy⟩
    exact hrest.push ht

/-- An opening brace makes room for the group that it opens. -/
theorem Shallow.open (h : r.Shallow n) (last : Option Char) :
    Shallow ⟨[], ⟨r.branch, []⟩ :: r.groups, last, .plain⟩ (n + 1) where
  groups := Nat.succ_le_succ h.groups
  branch t ht := absurd ht List.not_mem_nil
  roomy :=
    ⟨fun t ht => (h.branch t ht).trans (by omega), fun ts hts => absurd hts List.not_mem_nil,
      h.roomy.mono (by omega)⟩

/-- The branch that ends at a comma has left the same room as those before it. -/
theorem Shallow.part {g : OpenGroup} {gs : List OpenGroup} (h : r.Shallow n)
    (hopen : r.groups = g :: gs) (last : Option Char) :
    Shallow ⟨[], { g with branches := r.branch.reverse :: g.branches } :: gs, last, .plain⟩ n := by
  obtain ⟨hgroups, hbranch, hroomy⟩ := h
  rw [hopen] at hgroups hbranch hroomy
  obtain ⟨hbefore, hbranches, hgs⟩ := hroomy
  refine ⟨hgroups, fun t ht => absurd ht List.not_mem_nil, hbefore, fun ts hts t ht => ?_, hgs⟩
  rcases List.mem_cons.mp hts with rfl | hts
  · exact hbranch t (List.mem_reverse.mp ht)
  · exact hbranches ts hts t ht

/-- A group takes the room that the tokens inside it have left. -/
theorem Shallow.close {g : OpenGroup} {gs : List OpenGroup} (h : r.Shallow n)
    (hopen : r.groups = g :: gs) (last : Option Char) :
    Shallow ⟨Token.ofBranches (r.branch.reverse :: g.branches).reverse :: g.before, gs, last,
      .plain⟩ n := by
  obtain ⟨hgroups, hbranch, hroomy⟩ := h
  rw [hopen] at hgroups hbranch hroomy
  rw [List.length_cons] at hgroups hbranch
  obtain ⟨hbefore, hbranches, hgs⟩ := hroomy
  have hgroup : (Token.ofBranches (r.branch.reverse :: g.branches).reverse).levels ≤
      3 * n + 4 - 3 * (gs.length + 1) + 3 := by
    apply levels_ofBranches_le
    intro ts hts t ht
    rcases List.mem_cons.mp (List.mem_reverse.mp hts) with rfl | hts
    · have hroom := hbranch t (List.mem_reverse.mp ht)
      omega
    · have hroom := hbranches ts hts t ht
      omega
  refine ⟨Nat.le_of_succ_le hgroups, fun t ht => ?_, hgs⟩
  rcases List.mem_cons.mp ht with rfl | ht
  · exact (Nat.add_le_add_right hgroup (3 * gs.length)).trans (by omega)
  · exact hbefore t ht

/-- An opening brace is counted, and any other character finds its room. -/
theorem Shallow.plain (h : r.Shallow n) (hr : r.plain c = .ok r') :
    r'.Shallow (n + [c].count '{') := by
  have hmore : r.Shallow (n + [c].count '{') := h.mono (Nat.le_add_right _ _)
  cases reads_of_plain hr with
  | @token t ht =>
    have hlevels : t.levels ≤ 4 := by
      rcases ht with ⟨-, rfl⟩ | ⟨-, -, rfl⟩ <;> simp [Token.levels]
    exact (hmore.push hlevels).congr rfl rfl
  | begins => exact hmore.congr rfl rfl
  | opens hc =>
    subst hc
    exact h.open (some '{')
  | parts hc hopen => exact hmore.part hopen (some c)
  | closes hc hopen => exact hmore.close hopen (some c)

/-- A class is one token, however long it is. -/
theorem Shallow.classChar {k : OpenClass} (h : r.Shallow n) (hr : r.classChar k c = .ok r') :
    r'.Shallow n := by
  rcases classChar_cases hr with ⟨-, -, rfl⟩ | ⟨-, k', -, rfl⟩
  · have hclass (ranges : List (Char × Char)) : (Token.oneOf k.negated ranges).levels ≤ 4 := by
      rw [Token.levels]
      omega
    exact (h.push (hclass _)).congr rfl rfl
  · exact h.congr rfl rfl

/-- Two stars find their room, whichever token they become. -/
theorem Shallow.afterStars {before : Option Char} (h : r.Shallow n)
    (hr : r.afterStars before c = .ok r') : r'.Shallow (n + [c].count '{') := by
  unfold Reader.afterStars at hr
  split at hr
  · obtain rfl := Except.ok.inj hr
    exact ((h.spanning (t := .between) (by decide)).mono (Nat.le_add_right _ _)).congr rfl rfl
  · split at hr
    · exact (h.spanning (t := .trailing) (by decide)).plain hr
    · exact h.twoStars.plain hr

/-- What is read of a text leaves room as long as its braces are counted. -/
theorem Shallow.step (h : r.Shallow n) (hr : r.step c = .ok r') :
    r'.Shallow (n + [c].count '{') := by
  have hmore : r.Shallow (n + [c].count '{') := h.mono (Nat.le_add_right _ _)
  cases steps_of_step hr with
  | plain hmode hr => exact h.plain hr
  | escaped hmode hr =>
    exact hr ▸ (hmore.push (t := .literal c) (by simp [Token.levels])).congr rfl rfl
  | secondStar hmode hc hr => exact hr ▸ hmore.congr rfl rfl
  | oneStar hmode hc hr => exact (h.push (t := .star) (by decide)).plain hr
  | afterStars hmode hr => exact h.afterStars hr
  | negates hmode hc hr => exact hr ▸ hmore.congr rfl rfl
  | classChar hmode hr => exact hmore.classChar hr

/-- What the end of a glob settles is stars, for which there is room. -/
theorem Shallow.settle (h : r.Shallow n) (hr : r.settle = .ok r') : r'.Shallow n := by
  cases settles_of_settle hr with
  | plain hmode hr => exact hr ▸ h
  | oneStar hmode hr => exact hr ▸ h.push (t := .star) (by decide)
  | stars hmode hr =>
    subst hr
    split
    · exact h.spanning (by decide)
    · exact h.twoStars

end Reader

/-- A glob is nested at most three levels for each opening brace of its text, and five more. -/
theorem depth_le {text : Text} {ts : Tokens} (hts : parse text = .ok ts) :
    depth ts ≤ 3 * text.count '{' + 5 := by
  obtain ⟨r, hr, hfinish⟩ := exists_of_bind_eq_ok hts
  have hread : r.Shallow (text.count '{') := by
    refine foldlM_keeps (I := fun taken r => r.Shallow (taken.count '{')) []
      ⟨Nat.zero_le _, fun t ht => absurd ht List.not_mem_nil, trivial⟩ ?_ hr
    intro taken c r r' _ h hstep
    rw [List.count_append]
    exact h.step hstep
  obtain ⟨q, hq, hgroups, hbranch⟩ := Reader.finish_spec hfinish
  have hsettled := hread.settle hq
  have hlevels : levels ts ≤ 3 * text.count '{' + 4 := by
    rcases hbranch with rfl | ⟨-, rfl⟩
    · refine levels_le fun t ht => ?_
      have hroom := hsettled.branch t (List.mem_reverse.mp ht)
      omega
    · exact (show levels [.everything] = 1 from rfl).trans_le (by omega)
  unfold depth
  omega

end LineLimit.Glob
