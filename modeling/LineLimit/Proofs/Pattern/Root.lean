import LineLimit.Proofs.Glob.Rooted
import LineLimit.Proofs.Pattern.Base

/-!
# Nothing matches outside the root

A walk looks only below the root of a pattern, which is a stretch of its text. What the pattern
matches is decided by its glob. The two agree, whatever comes after the base:

> `root_prefix_of_matchesPath`: every path that the pattern matches has the components of the
> root in front, and is the root if no character of the pattern has a meaning.

The base is read as itself, the slash after it as a token that starts with a slash, and nothing
that is read later changes that (`Glob.Reader.Rooted`). Where the case of letters is ignored a
match may spell the base in another way; here it is not.
-/

namespace LineLimit

open Glob (Token Tokens Reader alike sameByte language)

/-- Where the case of letters matters, only the bytes themselves are alike. -/
theorem Glob.mem_alike_exact {bs s : Bytes} : s ∈ alike (sameByte false) bs ↔ s = bs := by
  show List.Forall₂ (fun a b => sameByte false a b = true) bs s ↔ _
  simp only [sameByte, Bool.false_eq_true, if_false, decide_eq_true_eq]
  rw [List.forall₂_eq_eq_eq, eq_comm]

namespace Pattern

variable {p : Pattern}

/-- The root is one that the pattern names if there is a part before the first wild one, also
an empty part before a slash. -/
theorem startsHere_eq_false_iff :
    p.startsHere = false ↔ p.literalParts ≠ [] ∨ p.text.head? = some '/' := by
  unfold startsHere
  by_cases hwild : p.wildParts = []
  · have hliteral : p.literalParts ≠ [] := by
      intro hnil
      have hparts := p.parts_eq
      rw [hnil, hwild] at hparts
      exact List.splitOn_ne_nil '/' p.text hparts
    simp [hwild, hliteral]
  · rcases base_eq hwild with ⟨hliteral, hbase⟩ | ⟨hliteral, hbase⟩ | ⟨hne, hbase⟩
    · simp [hwild, hliteral, hbase, head?_text hliteral hwild]
    · simp [hliteral, hbase]
    · have hliteral : p.literalParts ≠ [] := by
        intro hnil
        rw [hnil] at hbase
        exact hne hbase
      simp [hliteral, hne]

/-- The glob starts with the literal parts as they are written, and goes on with a token that
opens with a slash. -/
theorem exists_glob_eq (hliteral : p.literalParts ≠ []) (hwild : p.wildParts ≠ []) :
    ∃ t more, p.glob = (['/'].intercalate p.literalParts).map Token.literal ++ t :: more ∧
      t.opensWithSlash = true := by
  let literal : Text := ['/'].intercalate p.literalParts
  have htext : p.text = literal ++ '/' :: ['/'].intercalate p.wildParts := by
    rw [text_eq, parts_eq, intercalate_append hliteral hwild]
  have hchars : ∀ c ∈ literal, isMeta c = false := by
    have hnone : literal.any isMeta = false := by
      rw [any_intercalate (by decide), List.any_eq_false]
      intro part hpart
      rw [not_any_isMeta hpart]
      exact Bool.false_ne_true
    simpa using hnone
  obtain ⟨r, hr, hglob⟩ := exists_of_bind_eq_ok p.parsed
  obtain ⟨last, hread⟩ := foldlM_literals hchars [] none
  rw [htext, List.foldlM_append, show Reader.initial = ⟨[], [], none, .plain⟩ from rfl,
    hread] at hr
  let base : Tokens := (literal.map Token.literal).reverse
  have hslash : (Reader.between (.literal '/' :: base) (some '/')).Rooted base :=
    ⟨[], .literal '/', rfl, rfl⟩
  have hrest : (['/'].intercalate p.wildParts).foldlM Reader.step
      (Reader.between (.literal '/' :: base) (some '/')) = .ok r := by
    rw [← hr, List.append_nil]
    rfl
  obtain ⟨t, more, hts, ht⟩ := (hslash.foldlM hrest).finish hglob
  exact ⟨t, more, by rw [hts, List.reverse_reverse], ht⟩

/-- What the pattern matches starts with the literal parts, up to case if the case is ignored,
and goes on with a slash. -/
theorem exists_literal_slash (hliteral : p.literalParts ≠ []) (hwild : p.wildParts ≠ [])
    {path : Path} (h : p.matchesPath path = true) :
    ∃ start rest, path = start ++ slash :: rest ∧
      start ∈ alike (sameByte p.ignoreCase) (utf8 (['/'].intercalate p.literalParts)) := by
  obtain ⟨t, more, hglob, ht⟩ := exists_glob_eq hliteral hwild
  have hmem := (Glob.accepts_iff p.glob path).mp h
  rw [hglob, Glob.language_append, Glob.language_cons, language_literals, Language.mem_mul] at hmem
  obtain ⟨start, hstart, below, hbelow, rfl⟩ := hmem
  obtain ⟨a, ha, b, -, rfl⟩ := Language.mem_mul.mp hbelow
  obtain ⟨a, rfl⟩ := List.head?_eq_some_iff.mp (Token.head?_of_opensWithSlash ht ha)
  exact ⟨start, a ++ b, rfl, hstart⟩

/-- A path that starts with the literal parts and a slash lies below the base. -/
theorem base_prefix_append (hliteral : p.literalParts ≠ []) (hwild : p.wildParts ≠ [])
    (rest : Bytes) :
    p.base.components <+:
      Path.components (utf8 (['/'].intercalate p.literalParts) ++ slash :: rest) := by
  rcases base_eq hwild with ⟨hnone, -⟩ | ⟨hroot, hbase⟩ | ⟨hne, hbase⟩
  · exact absurd hnone hliteral
  · -- a lone empty part is what stands before the slash of an absolute path
    have hpieces : Path.pieces (slash :: rest) = [] :: Path.pieces rest :=
      List.splitOn_append_cons_self [] rest
    have hcomponents := Path.components_of_pieces (List.cons_ne_nil slash rest) hpieces
    rw [hroot, hbase]
    show [[slash]] <+: Path.components (slash :: rest)
    rw [hcomponents]
    exact ⟨_, rfl⟩
  · rw [utf8_intercalate, ← hbase]
    exact Path.components_prefix_append hne rest

/-- Where the case of letters matters and the pattern names its root, every path that it matches
has the components of the root in front; and it is the root if no character of the pattern has a
meaning. -/
theorem root_prefix_of_matchesPath (hcase : p.ignoreCase = false) (hroot : p.startsHere = false)
    {path : Path} (h : p.matchesPath path = true) :
    p.root.components <+: path.components ∧
      ((∀ c ∈ p.text, isMeta c = false) → path = p.root) := by
  have hbase : p.root = p.base := by
    unfold root
    rw [hroot, if_neg Bool.false_ne_true]
  rw [hbase, ← wildParts_eq_nil_iff]
  by_cases hwild : p.wildParts = []
  · have hsame := mem_alike_base hwild h
    rw [hcase, Glob.mem_alike_exact] at hsame
    exact ⟨hsame ▸ List.prefix_refl _, fun _ => hsame⟩
  · have hliteral : p.literalParts ≠ [] := by
      rcases startsHere_eq_false_iff.mp hroot with hliteral | hhead
      · exact hliteral
      · exact fun hnil => head?_text hnil hwild hhead
    obtain ⟨start, rest, rfl, hstart⟩ := exists_literal_slash hliteral hwild h
    rw [hcase, Glob.mem_alike_exact] at hstart
    subst hstart
    exact ⟨base_prefix_append hliteral hwild rest, fun hnone => absurd hnone hwild⟩

/-- A pattern whose base is followed by `**` and by a group that spans slashes. -/
def generated : Pattern :=
  ⟨"gen//src/**/\x7ba/b,c\x7d".toList, false,
    [.literal 'g', .literal 'e', .literal 'n', .literal '/', .literal '/', .literal 's',
      .literal 'r', .literal 'c', .between,
      .group [[.literal 'a', .literal '/', .literal 'b'], [.literal 'c']]], rfl⟩

/-- Its base has an empty part, which the components of a path leave out. -/
theorem root_prefix_of_matchesPath_generated :
    generated.ignoreCase = false ∧ generated.startsHere = false ∧
      generated.matchesPath (utf8 "gen//src/x/a/b".toList) = true ∧
      generated.root.components <+: Path.components (utf8 "gen//src/x/a/b".toList) :=
  ⟨rfl, by decide +kernel, by decide +kernel,
    (root_prefix_of_matchesPath (p := generated) rfl (by decide +kernel)
      (by decide +kernel)).1⟩

end Pattern
end LineLimit
