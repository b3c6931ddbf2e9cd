import LineLimit.Proofs.Glob.Crossings
import LineLimit.Proofs.Glob.Nesting

/-!
# Globs without groups

A text in which no group is ever open (`Ungrouped`) is read as a row of tokens outside groups. That
none is open can be told by the text, which has no opening brace at all, or by the glob, since a
group that is opened stays in sight:

> `ungrouped_of_parse`: if no token of a glob is a group, no group was open while it was read.

Braces may then still stand in classes and after backslashes.
-/

namespace LineLimit.Glob

/-- No group is open anywhere in the text. -/
def Ungrouped (text : Text) : Prop :=
  ∀ before after r, text = before ++ after →
    before.foldlM Reader.step Reader.initial = .ok r → r.groups = []

variable {text : Text}

/-- A character other than `{` opens no group. -/
theorem Nesting.groups_next_le {n : Nesting} {c : Char} (hc : c ≠ '{') :
    (n.next c).groups ≤ n.groups := by
  obtain ⟨groups, place⟩ := n
  cases place with
  | plain =>
    unfold next
    by_cases hclose : c = '}'
    · subst hclose
      exact Nat.sub_le _ _
    · simp only [if_neg hc, if_neg hclose]
      split
      · exact Nat.le_refl _
      · split <;> exact Nat.le_refl _
  | _ => exact Nat.le_refl _

/-- A text without opening braces opens no group. -/
theorem Nesting.groups_foldl_le {n : Nesting} (h : '{' ∉ text) :
    (text.foldl next n).groups ≤ n.groups := by
  induction text generalizing n with
  | nil => exact Nat.le_refl _
  | cons c text ih =>
    rw [List.mem_cons, not_or] at h
    exact (ih h.2).trans (groups_next_le (Ne.symm h.1))

theorem ungrouped_of_not_mem (h : '{' ∉ text) : Ungrouped text := by
  intro before after r htext hr
  have hbefore : '{' ∉ before := fun hmem => h (htext ▸ List.mem_append_left _ hmem)
  have hgroups : r.groups.length = (before.foldl Nesting.next .top).groups :=
    congrArg Nesting.groups (Reader.nesting_of_foldlM hr)
  have hle : (before.foldl Nesting.next .top).groups ≤ 0 := Nesting.groups_foldl_le hbefore
  exact List.length_eq_zero_iff.mp (by omega)

namespace Reader

variable {r r' : Reader} {c : Char}

/-- A group is open, or there is one among the tokens. -/
def Grouped (r : Reader) : Prop := r.groups = [] → ∃ branches, .group branches ∈ r.branch

/-- A token more takes no group away. -/
theorem Grouped.push (h : r.Grouped) (t : Token) : (r.push t).Grouped := by
  intro hgroups
  obtain ⟨branches, hmem⟩ := h hgroups
  exact ⟨branches, List.mem_cons_of_mem t hmem⟩

/-- The brace that closes the last open group puts it among the tokens. -/
theorem Grouped.plain (h : r.Grouped) (hr : r.plain c = .ok r') : r'.Grouped := by
  cases reads_of_plain hr with
  | @token t => exact h.push t
  | begins => exact h
  | opens => exact fun hnone => absurd hnone (List.cons_ne_nil _ _)
  | parts => exact fun hnone => absurd hnone (List.cons_ne_nil _ _)
  | closes => exact fun _ => ⟨_, List.mem_cons_self ..⟩

/-- A class takes no group away. -/
theorem Grouped.classChar {k : OpenClass} (h : r.Grouped) (hr : r.classChar k c = .ok r') :
    r'.Grouped := by
  rcases classChar_cases hr with ⟨-, -, rfl⟩ | ⟨-, k', -, rfl⟩
  · exact h.push (.oneOf k.negated _)
  · exact h

/-- Where no `**` takes the place of a token, a group stays in sight. -/
theorem Grouped.step (h : r.Grouped) (hstars : ∀ b, r.mode ≠ .stars b)
    (hr : r.step c = .ok r') : r'.Grouped := by
  cases steps_of_step hr with
  | plain hmode hr => exact h.plain hr
  | escaped hmode hr => exact hr ▸ h.push (.literal c)
  | secondStar hmode hc hr => exact hr ▸ h
  | oneStar hmode hc hr => exact (h.push .star).plain hr
  | afterStars hmode hr => exact absurd hmode (hstars _)
  | negates hmode hc hr => exact hr ▸ h
  | classChar hmode hr => exact h.classChar hr

/-- A text that adds no two stars in a row keeps a group in sight. -/
theorem Grouped.foldlM {rest : Text} (h : r.Grouped) (hcounted : r.Counted 0 text)
    (hstars : ¬['*', '*'] <:+: text ++ rest) (hr : rest.foldlM Reader.step r = .ok r') :
    r'.Grouped :=
  (foldlM_keeps (I := fun taken q => q.Grouped ∧ q.Counted 0 taken) text ⟨h, hcounted⟩
    (fun _ _ _ _ htaken hq hstep =>
      ⟨hq.1.step hq.2.stars hstep,
        hq.2.step (fun hstarred => hstars (hstarred.trans htaken.isInfix)) hstep⟩)
    hr).1

/-- A group that was opened in a text is in its glob. -/
theorem Grouped.finish {ts : Tokens} (h : r.Grouped) (hstars : ∀ b, r.mode ≠ .stars b)
    (hr : r.finish = .ok ts) : ∃ branches, .group branches ∈ ts := by
  obtain ⟨q, hq, hgroups, hbranch⟩ := finish_spec hr
  have hgrouped : q.Grouped := by
    cases settles_of_settle hq with
    | plain hmode hr => exact hr ▸ h
    | oneStar hmode hr => exact hr ▸ h.push .star
    | stars hmode hr => exact absurd hmode (hstars _)
  obtain ⟨branches, hmem⟩ := hgrouped hgroups
  rcases hbranch with rfl | ⟨hlone, -⟩
  · exact ⟨branches, List.mem_reverse.mpr hmem⟩
  · rw [hlone, List.mem_singleton] at hmem
    exact nomatch hmem

end Reader

/-- Where no token of a glob is a group, and without two stars in a row, no group was open while
the glob was read. -/
theorem ungrouped_of_parse {ts : Tokens} (hstars : ¬['*', '*'] <:+: text)
    (hts : parse text = .ok ts) (hgroups : ∀ branches, .group branches ∉ ts) :
    Ungrouped text := by
  intro before after r htext hr
  by_contra hopen
  obtain ⟨r', hr', hfinish⟩ := exists_of_bind_eq_ok hts
  subst htext
  rw [List.foldlM_append, hr] at hr'
  have hprefix : ¬['*', '*'] <:+: before := fun hstarred =>
    hstars (hstarred.trans (List.prefix_append before after).isInfix)
  have hcounted : r.Counted 0 before := Reader.counted_initial.foldlM hprefix hr
  have hgrouped : r.Grouped := fun hnone => absurd hnone hopen
  obtain ⟨branches, hmem⟩ := (hgrouped.foldlM hcounted hstars hr').finish
    (hcounted.foldlM hstars hr').stars hfinish
  exact hgroups branches hmem

end LineLimit.Glob
