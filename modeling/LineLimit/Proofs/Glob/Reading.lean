import LineLimit.Pattern

/-!
# A component is read as if it stood alone

What has been read before a component of a glob has no part in how the
component is read. Once a component is under way, and as long as no slash
comes, the reader does the same steps whatever came before:

> `step_within`: a character other than a slash is read the same way, with
> `base` before all that the reader holds, as without it.
-/

namespace LineLimit.Glob

/-- The groups, with `base` before the outermost of them. -/
def OpenGroup.onto (base : Tokens) : List OpenGroup → List OpenGroup
  | [] => []
  | [g] => [{ g with before := g.before ++ base }]
  | g :: gs => g :: onto base gs

namespace Reader

/-- The reader that, besides what `r` has read, has `base` before it. -/
def within (base : Tokens) (r : Reader) : Reader :=
  { r with
    branch := if r.groups.isEmpty then r.branch ++ base else r.branch
    groups := OpenGroup.onto base r.groups }

variable (base : Tokens) (r : Reader)

theorem isEmpty_onto (groups : List OpenGroup) :
    (OpenGroup.onto base groups).isEmpty = groups.isEmpty := by
  rcases groups with _ | ⟨g, _ | ⟨g', gs⟩⟩ <;> rfl

/-- Nothing before a reader is the reader alone. -/
theorem within_nil : r.within [] = r := by
  obtain ⟨branch, groups, last, mode⟩ := r
  have honto : ∀ gs, OpenGroup.onto [] gs = gs := by
    intro gs
    induction gs with
    | nil => rfl
    | cons g gs ih =>
      cases gs with
      | nil => simp [OpenGroup.onto]
      | cons g' gs => exact congrArg (g :: ·) ih
  unfold within
  rw [honto]
  cases groups <;> simp

theorem within_push (t : Token) : (r.within base).push t = (r.push t).within base := by
  obtain ⟨branch, groups, last, mode⟩ := r
  cases groups <;> rfl

/-- A comma ends a branch of an open group, and what stands before all groups stays there. -/
theorem within_comma : (r.within base).comma = r.comma.within base := by
  obtain ⟨branch, groups, last, mode⟩ := r
  rcases groups with _ | ⟨g, _ | ⟨g', gs⟩⟩ <;> rfl

/-- A brace closes the same group, which then comes after `base`. -/
theorem within_close : (r.within base).close = r.close.map (within base) := by
  obtain ⟨branch, groups, last, mode⟩ := r
  rcases groups with _ | ⟨g, _ | ⟨g', gs⟩⟩ <;> rfl

/-- The reader that has just read `c` outside classes and escapes. -/
theorem within_plain (c : Char) : (r.within base).plain c = (r.plain c).map (within base) := by
  have hset : ∀ m, ({ r.within base with last := some c, mode := m } : Reader) =
      ({ r with last := some c, mode := m } : Reader).within base := fun _ => rfl
  unfold plain
  split
  · exact congrArg Except.ok (within_push base { r with last := some '?', mode := .plain } _)
  · rfl
  · rfl
  · obtain ⟨branch, groups, last, mode⟩ := r
    rcases groups with _ | ⟨g, gs⟩ <;> rfl
  · exact within_close base { r with last := some '}', mode := .plain }
  · exact congrArg Except.ok (within_comma base { r with last := some ',', mode := .plain })
  · rfl
  · exact congrArg Except.ok (within_push base { r with last := some c, mode := .plain } _)

theorem within_twoStars : (r.within base).twoStars = r.twoStars.within base := by
  unfold twoStars
  rw [within_push, within_push]

/-- In a group, what stands before the group is out of reach of two stars. -/
theorem within_spanning (t : Token) (h : r.groups ≠ []) :
    (r.within base).spanning t = (r.spanning t).within base := by
  obtain ⟨branch, groups, last, mode⟩ := r
  obtain ⟨g, gs, rfl⟩ := List.exists_cons_of_ne_nil h
  cases branch with
  | nil => rfl
  | cons t branch => cases t <;> rfl

/-- In a component that is under way, what two stars become does not depend on what came before
it. -/
theorem within_afterStars (before : Option Char) {c : Char} (hc : c ≠ '/') :
    (r.within base).afterStars before c = (r.afterStars before c).map (within base) := by
  have hslash : ∀ q : Reader, ¬((decide (c = '/') && q.maySpan before) = true) := by
    intro q
    simp [hc]
  unfold afterStars
  rw [if_neg (hslash _), if_neg (hslash _), within_twoStars]
  by_cases hgroups : r.groups = []
  · -- outside groups a `,` or `}` ends nothing
    have hempty : (r.within base).groups.isEmpty = true := by
      show (OpenGroup.onto base r.groups).isEmpty = true
      rw [isEmpty_onto, hgroups]
      rfl
    rw [hempty, hgroups]
    simp only [List.isEmpty_nil, Bool.not_true, Bool.and_false, Bool.false_and]
    exact within_plain base r.twoStars c
  · have hbranch : (r.within base).branch = r.branch := if_neg (by simpa using hgroups)
    have hempty : (r.within base).groups.isEmpty = r.groups.isEmpty := isEmpty_onto base r.groups
    unfold maySpan
    rw [hbranch, hempty, within_spanning base r _ hgroups]
    split
    · exact within_plain base _ c
    · exact within_plain base _ c

theorem within_classChar (k : OpenClass) (c : Char) :
    (r.within base).classChar k c = (r.classChar k c).map (within base) := by
  unfold classChar
  split
  · exact congrArg Except.ok (congrArg (fun q : Reader => { q with mode := .plain })
      (within_push base { r with last := some c } _))
  · cases k.read c <;> rfl

/-- A character other than a slash is read the same way after `base`. -/
theorem step_within {c : Char} (hc : c ≠ '/') :
    (r.within base).step c = (r.step c).map (within base) := by
  have hmode : (r.within base).mode = r.mode := rfl
  unfold step
  rw [hmode]
  split
  · exact within_plain base r c
  · exact congrArg Except.ok (congrArg (fun q : Reader => { q with last := some c, mode := .plain })
      (within_push base r _))
  · split
    · rfl
    · unfold oneStar
      rw [within_push]
      exact within_plain base _ c
  · exact within_afterStars base r _ hc
  · split
    · rfl
    · exact within_classChar base r _ c
  · exact within_classChar base r _ c

end Reader
end LineLimit.Glob
