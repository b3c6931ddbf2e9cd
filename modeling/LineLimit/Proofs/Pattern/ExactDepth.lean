import LineLimit.Proofs.Glob.Spare
import LineLimit.Proofs.Pattern.Depth

/-!
# When the depth of a match is known

The components of a pattern bound how deep it matches (`length_le_maxDepth`). In a pattern with
groups this is all that can be said, since the slashes of the branches that are not taken are
counted as well. In a pattern without groups, every slash of the text is one of the path, unless
it is written in a class:

> `depth_of_matchesPath`: below the base, a match of a pattern without groups has as many names as
> the pattern has components if and only if no slash is part of a class; otherwise it has fewer.

The slashes of text and path are the same in number (`count_slash_eq`), so a match has at least as
many names as there are wild parts, and these are at least as many as the components.
-/

namespace LineLimit

open Glob (Token ClassesSpareSlash)

/-- Names below a path have a slash between each two, besides those of the path. -/
theorem Path.count_extend (p : Path) {names : List Bytes} (hne : names ≠ [])
    (hnames : ∀ n ∈ names, Path.IsPart n) :
    (p.extend names).count slash + 1 = p.stem.count slash + names.length := by
  obtain ⟨n, ns, rfl⟩ := List.exists_cons_of_ne_nil hne
  have hlength := length_splitOn slash ([slash].intercalate (n :: ns))
  rw [show List.splitOn slash _ = _ from
    Path.pieces_intercalate hne fun m hm => (hnames m hm).slash_not_mem] at hlength
  rw [Path.extend_cons p hnames, List.count_append]
  omega

/-- In a text without a meaning there are no classes. -/
theorem Glob.classesSpareSlash_of_literal {text : Text}
    (h : ∀ c ∈ text, Pattern.isMeta c = false) : ClassesSpareSlash text := by
  intro before after r htext hr
  have hbefore : ∀ c ∈ before, Pattern.isMeta c = false := fun c hc =>
    h c (htext ▸ List.mem_append_left _ hc)
  obtain ⟨last, hread⟩ := foldlM_literals hbefore [] none
  obtain rfl := Except.ok.inj (hread.symm.trans hr)
  rfl

namespace Pattern

variable {p : Pattern}

/-- The text has a slash between each two of its parts. -/
theorem count_text (p : Pattern) :
    p.text.count '/' + 1 = p.literalParts.length + p.wildParts.length := by
  rw [← List.length_append, ← parts_eq, parts, length_splitOn]

/-- The base has at most one slash for each literal part, with the one that a name needs. -/
theorem count_stem_le (hwild : p.wildParts ≠ []) :
    p.base.stem.count slash ≤ p.literalParts.length := by
  rcases base_eq hwild with ⟨-, hbase⟩ | ⟨hliteral, hbase⟩ | ⟨hne, hbase⟩
  · rw [hbase]
    exact Nat.zero_le _
  · rw [hbase, hliteral]
    exact Nat.le_refl 1
  · have hliteral : p.literalParts.map utf8 ≠ [] := by
      intro hnil
      rw [hnil] at hbase
      exact hne hbase
    have hparts : ∀ n ∈ p.literalParts.map utf8, slash ∉ n := by
      intro n hn hslash
      obtain ⟨part, hpart, rfl⟩ := List.mem_map.mp hn
      refine slash_not_mem_part (p := p) ?_ (Glob.slash_mem_utf8.mp hslash)
      rw [parts_eq]
      exact List.mem_append_left _ hpart
    have hlength := length_splitOn slash p.base
    rw [hbase, show List.splitOn slash _ = _ from Path.pieces_intercalate hliteral hparts,
      List.length_map, ← hbase] at hlength
    have hstem : p.base.stem.count slash ≤ p.base.count slash + 1 := by
      unfold Path.stem
      split
      · exact Nat.le_succ _
      · rw [List.count_append]
        exact Nat.le_refl _
    omega

/-- Where no class admits a slash and none is written in one, a match of a pattern without groups
and without `**` has the slashes of its text. -/
theorem count_slash_eq (hstars : ¬['*', '*'] <:+: p.text) (hclasses : p.classesSpareSlash = true)
    (hgroups : ∀ branches, .group branches ∉ p.glob) (hclass : ClassesSpareSlash p.text)
    {path : Path} (h : p.matchesPath path = true) : path.count slash = p.text.count '/' := by
  have hungrouped := Glob.ungrouped_of_parse hstars p.parsed hgroups
  obtain ⟨hflat, hcount⟩ := Glob.flat_of_ungrouped hstars hungrouped hclass p.parsed
  rw [← hcount]
  exact Glob.count_slash_of_flat hflat hclasses ((Glob.accepts_iff p.glob path).mp h)

/-- A match below the base has at most as many names as the pattern has components. Where the
pattern has no groups, it has as many if and only if no slash is part of a class, and if there are
names at all or the pattern is its base. -/
theorem depth_of_matchesPath {depth : Nat} (hdepth : p.maxDepth = some depth)
    (hclasses : p.classesSpareSlash = true) {names : List Bytes}
    (hnames : ∀ n ∈ names, Path.IsPart n) (h : p.matchesPath (p.base.extend names) = true) :
    names.length ≤ depth ∧
      ((∀ branches, Token.group branches ∉ p.glob) →
        (names.length = depth ↔
          ClassesSpareSlash p.text ∧ (names = [] → p.wildParts = []))) := by
  have hle := length_le_maxDepth hdepth hclasses hnames h
  refine ⟨hle, fun hgroups => ?_⟩
  obtain ⟨hcomponents, hstars⟩ := maxDepth_spec hdepth
  by_cases hwild : p.wildParts = []
  · -- a pattern that is its base matches nothing below it
    have hzero : depth = 0 := by
      rw [hcomponents, components, hwild]
      rfl
    have hclass := Glob.classesSpareSlash_of_literal (wildParts_eq_nil_iff.mp hwild)
    exact ⟨fun _ => ⟨hclass, fun _ => hwild⟩, fun _ => by omega⟩
  · constructor
    · intro heq
      have hne : names ≠ [] := by
        rintro rfl
        obtain ⟨part, rest, hparts⟩ := List.exists_cons_of_ne_nil hwild
        have hpart : part ∈ p.components := List.mem_filter.mpr
          ⟨hparts ▸ List.mem_cons_self .., by simpa using first_ne_nil hparts⟩
        have hpos : 0 < p.components.length := List.length_pos_of_mem hpart
        rw [List.length_nil] at heq
        omega
      refine ⟨?_, fun hnil => absurd hnil hne⟩
      by_contra hclass
      have hspare : Glob.crossings p.glob + 1 ≤ runs (· == '/') p.text :=
        Glob.crossings_lt_of_parse hstars hclass p.parsed
      have hless := length_add_le_maxDepth hdepth hclasses hspare hne hnames h
      omega
    · rintro ⟨hclass, hne⟩
      have hpath := Path.count_extend p.base (fun hnil => hwild (hne hnil)) hnames
      have hslashes := count_slash_eq hstars hclasses hgroups hclass h
      have htext := p.count_text
      have hbase := count_stem_le hwild
      have hfilter : p.components.length ≤ p.wildParts.length := List.length_filter_le _ _
      omega

/-- A pattern with an escaped slash. -/
def escapedSlash : Pattern :=
  ⟨"src/*\\/[ab].c".toList, false,
    [.literal 's', .literal 'r', .literal 'c', .literal '/', .star, .literal '/',
      .oneOf false [('a', 'a'), ('b', 'b')], .literal '.', .literal 'c'], rfl⟩

theorem depth_of_matchesPath_escapedSlash :
    escapedSlash.maxDepth = some 2 ∧ escapedSlash.classesSpareSlash = true ∧
      (∀ n ∈ ["x".toList, "a.c".toList].map utf8, Path.IsPart n) ∧
      escapedSlash.matchesPath (escapedSlash.base.extend (["x".toList, "a.c".toList].map utf8)) =
        true ∧
      (["x".toList, "a.c".toList].map utf8).length ≤ 2 :=
  ⟨by decide +kernel, by decide +kernel, by decide +kernel, by decide +kernel,
    (depth_of_matchesPath (p := escapedSlash) (by decide +kernel) (by decide +kernel)
      (by decide +kernel) (by decide +kernel)).1⟩

/-- A pattern with a slash that is part of a class. -/
def notSlash : Pattern :=
  ⟨"a[!/]c".toList, false, [.literal 'a', .oneOf true [('/', '/')], .literal 'c'], rfl⟩

/-- A slash in a class parts the text, but not the path: `a[!/]c` has two components and matches
`axc`. -/
theorem not_forall_length_eq_maxDepth :
    ¬∀ (p : Pattern) (depth : Nat) (names : List Bytes), p.ignoreCase = false →
      p.maxDepth = some depth → p.classesSpareSlash = true →
      (∀ n ∈ names, Path.IsPart n) → [] ∉ Path.pieces (p.base.extend names) →
      p.matchesPath (p.base.extend names) = true →
        names.length ≤ depth ∧
          ((∀ branches, Token.group branches ∉ p.glob) → names.length = depth) := by
  intro h
  have hgroups (branches) :
      Token.group branches ∉ [Token.literal 'a', .oneOf true [('/', '/')], .literal 'c'] := by
    simp
  have hexact := (h notSlash 2 [utf8 "axc".toList] rfl (by decide +kernel) (by decide +kernel)
    (by decide +kernel) (by decide +kernel) (by decide +kernel)).2 hgroups
  exact absurd hexact (by decide)

end Pattern
end LineLimit
