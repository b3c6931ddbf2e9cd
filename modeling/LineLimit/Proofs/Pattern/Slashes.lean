import LineLimit.Proofs.Glob.Flat
import LineLimit.Proofs.Glob.Match

/-!
# Which wildcards cross a slash

In a pattern without `**` and without groups, `*` and `?` stay inside a component. A class does
so only if it does not admit the slash, which it may do without naming it: `[!b]` and `[+-9]`
admit one.

> `count_slash_of_matches`: the paths that such a pattern matches have at least the slashes of
> its text, and may have one more for each class that admits a slash. So they all have those of
> the text if and only if no class admits a slash.
-/

namespace LineLimit.Pattern

open Glob (ClassesSpareSlash)

/-- What a pattern without groups and without `**` matches has the slashes of its text, and at
most one more for each class that admits a slash; each number of slashes in between is that of
some path. -/
theorem count_slash_of_matches (p : Pattern) (hstars : ¬['*', '*'] <:+: p.text)
    (hgroups : '{' ∉ p.text) (hclass : ClassesSpareSlash p.text) :
    (∀ n, (∃ path, p.matchesPath path = true ∧ path.count slash = n) ↔
      p.text.count '/' ≤ n ∧
        n ≤ p.text.count '/' + p.glob.countP (!·.sparesSlash p.ignoreCase)) ∧
    ((∀ path, p.matchesPath path = true → path.count slash = p.text.count '/') ↔
      ∀ t ∈ p.glob, t.sparesSlash p.ignoreCase = true) := by
  obtain ⟨hflat, hcount⟩ := Glob.flat_of_parse hstars hgroups hclass p.parsed
  have hall : ∀ n, (∃ path, p.matchesPath path = true ∧ path.count slash = n) ↔
      p.text.count '/' ≤ n ∧
        n ≤ p.text.count '/' + p.glob.countP (!·.sparesSlash p.ignoreCase) := by
    intro n
    rw [← hcount, ← Glob.exists_count_slash_iff hflat n]
    simp only [matchesPath, Glob.accepts_iff]
  refine ⟨hall, ?_⟩
  have hnone : (∀ t ∈ p.glob, t.sparesSlash p.ignoreCase = true) ↔
      p.glob.countP (!·.sparesSlash p.ignoreCase) = 0 := by
    simp [List.countP_eq_zero]
  rw [hnone]
  constructor
  · intro hlaw
    obtain ⟨path, hpath, hmost⟩ := (hall _).mpr ⟨Nat.le_add_right _ _, Nat.le_refl _⟩
    have hsame := hlaw path hpath
    omega
  · intro hzero path hpath
    have hbounds := (hall _).mp ⟨path, hpath, rfl⟩
    omega

/-- A pattern with a slash and with a class that admits one. -/
def belowA : Pattern :=
  ⟨"a/[!b]*".toList, false, [.literal 'a', .literal '/', .oneOf true [('b', 'b')], .star], rfl⟩

/-- Its matches have one slash or two. -/
theorem count_slash_of_matches_belowA :
    Pattern.compile "a/[!b]*".toList false = .ok belowA ∧
      ∀ n, (∃ path, belowA.matchesPath path = true ∧ path.count slash = n) ↔ 1 ≤ n ∧ n ≤ 2 := by
  have hclass : ClassesSpareSlash belowA.text := by
    rintro (_ | ⟨x, _ | ⟨y, before⟩⟩) after r htext hr
    · exact absurd (List.cons.inj htext).1 (by decide)
    · obtain rfl := (List.cons.inj htext).1
      obtain rfl := Except.ok.inj hr
      rfl
    · have hrest : "[!b]*".toList = before ++ '/' :: after :=
        (List.cons.inj (List.cons.inj htext).2).2
      have hmem : '/' ∈ "[!b]*".toList := by rw [hrest]; simp
      exact absurd hmem (by decide)
  exact ⟨rfl, (count_slash_of_matches belowA (by decide) (by decide) hclass).1⟩

/-- A pattern with a class that admits a slash without naming it. -/
def notB : Pattern :=
  ⟨"a[!b]c".toList, false, [.literal 'a', .oneOf true [('b', 'b')], .literal 'c'], rfl⟩

/-- A class can take a slash: `a[!b]c` matches `a/c`. -/
theorem not_forall_count_slash_eq :
    ¬∀ p : Pattern, ¬['*', '*'] <:+: p.text → '{' ∉ p.text → ClassesSpareSlash p.text →
      ∀ path, p.matchesPath path = true → path.count slash = p.text.count '/' := by
  intro h
  have hclass : ClassesSpareSlash notB.text := by
    intro before after r htext _
    have hmem : '/' ∈ notB.text := by rw [htext]; simp
    exact absurd hmem (by decide)
  have hsame := h notB (by decide) (by decide) hclass (utf8 "a/c".toList) (by decide +kernel)
  exact absurd hsame (by decide)

end LineLimit.Pattern
