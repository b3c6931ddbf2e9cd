import LineLimit.Proofs.Glob.Match
import LineLimit.Proofs.Pattern.Base
import LineLimit.Proofs.Search.Errors
import LineLimit.Proofs.Walk.Resolving
import Mathlib.Data.List.TakeWhile

/-!
# Patterns that name a file

A text without a character that has a meaning in globs is a pattern that stands for itself. It
is all base, so the search looks at its root only, and finds it if it is a file:

> `matchingFiles_literal`: a literal finds what it leads to if that is a file, and nothing
> otherwise; and a path that any search reports is found again when it is given back as a
> literal.

Two kinds of paths cannot be given back. The file `-` is taken for the standard input, although
wildcards find it, and so does a literal that names it below `.`. And a path that is too long
for a look-up leads nowhere, although a walk can come to it name by name.
-/

namespace LineLimit

/-! ## Look-ups that ask for a directory -/

namespace Path

/-- The last piece of the path asks for a directory. -/
def AsksForDirectory (path : Path) : Prop :=
  ∃ piece, path.lookupPieces.getLast? = some piece ∧ (piece = [] ∨ piece = [dot])

theorem asksForDirectory_of_slash {path : Path} (h : path.getLast? = some slash) :
    path.AsksForDirectory := by
  unfold AsksForDirectory lookupPieces
  rw [if_pos h, List.getLast?_concat]
  exact ⟨[], rfl, .inl rfl⟩

/-- A path with a name as its only component is written as that name, or with something after
it that asks for a directory. -/
theorem eq_or_asksForDirectory {path : Path} {name : Bytes} (hname : IsName name)
    (h : path.components = [name]) : path = name ∨ path.AsksForDirectory := by
  have hne : path ≠ [] := by
    intro hnil
    rw [hnil] at h
    exact nomatch h
  obtain ⟨first, rest, hpieces⟩ := List.exists_cons_of_ne_nil (List.splitOn_ne_nil slash path)
  have hpath : [slash].intercalate (first :: rest) = path :=
    hpieces ▸ List.intercalate_splitOn slash
  obtain ⟨hfirst, hrest⟩ := List.cons.inj ((components_of_pieces hne hpieces).symm.trans h)
  obtain rfl : first = name := by
    split at hfirst
    · exact absurd (hfirst ▸ List.mem_singleton_self slash) hname.slash_not_mem
    · exact hfirst
  rcases List.eq_nil_or_concat' rest with rfl | ⟨init, last, rfl⟩
  · exact .inl (hpath.symm.trans (List.intercalate_singleton ..))
  · right
    by_cases hslash : path.getLast? = some slash
    · exact asksForDirectory_of_slash hslash
    · -- the last piece moves nowhere, and is not empty, since no slash ends the path
      have hlast : isStep last = false := by
        have hnone := List.filter_eq_nil_iff.mp hrest last (by simp)
        simpa using hnone
      have hnil : last ≠ [] := by
        rintro rfl
        rw [← List.cons_append, intercalate_append (by simp) (by simp),
          List.intercalate_singleton] at hpath
        exact hslash (hpath ▸ List.getLast?_concat)
      obtain rfl : last = [dot] := by simpa [isStep, hnil] using hlast
      have hsplit : path.pieces = (first :: init) ++ [[dot]] := hpieces
      refine ⟨[dot], ?_, .inr rfl⟩
      unfold lookupPieces
      rw [if_neg hslash, List.append_nil, hsplit, List.filter_append]
      exact List.getLast?_concat

end Path

/-! ## What a search reports -/

namespace TreeView

variable {v : TreeView} {p : Pattern} {o : WalkOptions} {path : Path}

/-- A path that a search reports leads to a file, unless it is too long to be looked up. -/
theorem isFile_of_mem_matchingFiles (h : path ∈ successes (v.matchingFiles p o))
    (hlength : path.length < pathLimit) : v.isFile path = true := by
  obtain ⟨-, e, he, hkind, rfl, -⟩ := mem_matchingFiles_iff.mp h
  have hhere : v.resolve [dot] = .ok (.directory v.here, linkLimit) := rfl
  rcases walk_follow (mem_successes.mpr he) hkind with
    ⟨hnames, hroot⟩ | ⟨d, links, hresolve, hnames, c, k, hleads⟩
  · rw [hnames]
    unfold Pattern.root at hroot
    split at hroot
    · exact absurd hroot (by simp [isFile, hhere])
    · exact hroot
  · unfold Pattern.root at hresolve
    split at hresolve
    · next hstarts =>
      -- the walk starts from `.`, which the pattern does not name
      obtain ⟨rfl, rfl⟩ : v.here = d ∧ linkLimit = links := by
        simpa [hhere] using hresolve
      rw [Pattern.base_of_startsHere hstarts] at hlength ⊢
      exact isFile_iff.mpr ⟨c, k, (resolve_extend_nil hnames hlength).trans hleads⟩
    · exact isFile_iff.mpr ⟨c, k, (resolve_extend hresolve hnames hlength).trans hleads⟩

end TreeView

/-! ## Literals -/

namespace Pattern

variable {p : Pattern}

/-- No character of the pattern has a meaning. -/
def IsLiteral (p : Pattern) : Prop := ∀ c ∈ p.text, isMeta c = false

namespace IsLiteral

theorem wildParts_eq (h : p.IsLiteral) : p.wildParts = [] := wildParts_eq_nil_iff.mpr h

/-- A literal has no wildcards, so its search starts where it says. -/
theorem startsHere_eq (h : p.IsLiteral) : p.startsHere = false := by
  unfold startsHere
  rw [h.wildParts_eq]
  simp

/-- A literal is the place that its search starts from. -/
theorem root_eq (h : p.IsLiteral) : p.root = utf8 p.text := by
  unfold root
  rw [h.startsHere_eq, if_neg Bool.false_ne_true, base_of_literal h.wildParts_eq]

theorem maxDepth_eq (h : p.IsLiteral) : p.maxDepth = some 0 := by
  unfold maxDepth components
  rw [h.wildParts_eq]
  rfl

/-- Nothing is stripped off the paths that a literal finds. -/
theorem relative_eq (h : p.IsLiteral) (path : Path) : p.relative path = path := by
  unfold relative
  rw [h.startsHere_eq, if_neg Bool.false_ne_true]

/-- A literal matches itself. -/
theorem matchesPath_self (h : p.IsLiteral) : p.matchesPath (utf8 p.text) = true := by
  have hglob : p.glob = p.text.map .literal :=
    Except.ok.inj (p.parsed.symm.trans (parse_literals h))
  unfold matchesPath
  rw [Glob.accepts_iff, hglob, language_literals]
  exact Glob.mem_alike_self _

end IsLiteral

/-- Every text without wildcards is a pattern. -/
theorem compile_of_literal {text : Text} (h : ∀ c ∈ text, isMeta c = false) (ignoreCase : Bool) :
    ∃ p, compile text ignoreCase = .ok p ∧ p.IsLiteral ∧ p.text = text :=
  ⟨_, compile_of_parse (parse_literals h) ignoreCase, h, rfl⟩

end Pattern

namespace TreeView

variable {v : TreeView} {p : Pattern}

/-- The search of a literal looks at its root only. -/
theorem filterMap_walk_of_isLiteral (h : p.IsLiteral) (v : TreeView) (o : WalkOptions) :
    (successes (v.walk (p.walkSettings o) p.root)).filterMap p.fileOf =
      if v.isFile p.root = true then [p.root] else [] := by
  have hfile : p.fileOf ⟨p.root, [], .file⟩ = some p.root := by
    refine Pattern.fileOf_eq_some.mpr ⟨rfl, ?_, h.relative_eq _⟩
    rw [h.root_eq]
    exact h.matchesPath_self
  cases hresolve : v.resolve p.root with
  | error e =>
    unfold walk isFile
    rw [hresolve]
    rfl
  | ok r =>
    obtain ⟨t, k⟩ := r
    unfold walk isFile
    rw [hresolve]
    cases t with
    | file c => simp [hfile]
    | device => rfl
    | closed =>
      have hnone : (successes ((p.walkSettings o).refusedRoot (v.isLink p.root)
          (.start .unseen p.root k))).filterMap p.fileOf = [] := by
        rw [List.filterMap_eq_nil_iff]
        intro e he
        rw [WalkSettings.eq_of_mem_refusedRoot he]
        rfl
      exact hnone
    | directory d =>
      have hbelow : (p.walkSettings o).maxDepth = some 0 := h.maxDepth_eq
      simp [WalkSettings.below, hbelow, Place.start, Place.entry, Pattern.fileOf]

/-- Only the name `-` is taken for the standard input, where the root is a file. -/
theorem readsStandardInput_iff (hfile : v.isFile p.root = true) :
    p.readsStandardInput = true ↔ p.root = [0x2D] := by
  unfold Pattern.readsStandardInput
  rw [decide_eq_true_eq]
  constructor
  · intro hcomponents
    rcases Path.eq_or_asksForDirectory (by decide) hcomponents with hroot | hasks
    · exact hroot
    · obtain ⟨piece, hlast, hpiece⟩ := hasks
      exact absurd hfile (by simp [isFile_of_getLast? hlast hpiece])
  · intro hroot
    rw [hroot]
    rfl

/-- What a literal finds. -/
theorem successes_matchingFiles_of_isLiteral (h : p.IsLiteral) (v : TreeView) (o : WalkOptions) :
    successes (v.matchingFiles p o) =
      if v.isFile (utf8 p.text) = true ∧ p.text ≠ ['-'] then [utf8 p.text] else [] := by
  have hwalk := filterMap_walk_of_isLiteral h v o
  rw [← h.root_eq]
  by_cases hfile : v.isFile p.root = true
  · obtain ⟨c, links, hresolve⟩ := isFile_iff.mp hfile
    have hdash : p.root = [0x2D] ↔ p.text = ['-'] := by
      rw [h.root_eq, show ([0x2D] : Path) = utf8 ['-'] from rfl]
      exact ⟨fun heq => utf8_injective heq, congrArg utf8⟩
    by_cases htext : p.text = ['-']
    · have hstdin := (readsStandardInput_iff hfile).mpr (hdash.mpr htext)
      rw [if_neg fun hboth => hboth.2 htext]
      unfold matchingFiles
      rw [hstdin, Bool.or_true, if_pos rfl]
      rfl
    · have hstdin : p.readsStandardInput = false := by
        rw [Bool.eq_false_iff, ne_eq, readsStandardInput_iff hfile, hdash]
        exact htext
      rw [matchingFiles_of_root o (lacksRoot_of_resolve hresolve) hstdin,
        Pattern.successes_select, hwalk, if_pos hfile, if_pos ⟨hfile, htext⟩]
  · rw [if_neg hfile] at hwalk
    rw [if_neg fun hboth => hfile hboth.1]
    rcases v.successes_matchingFiles p o with hnone | hfound
    · exact hnone
    · exact hfound.trans hwalk

/-- A text without a character that has a meaning is a pattern, under any options. It finds the
path that it is, if that leads to a file and is not `-`, and nothing otherwise; and it finds
that path where any search reports it, unless it is `-` or too long to be looked up. -/
theorem matchingFiles_literal (v : TreeView) {text : Text}
    (hliteral : ∀ c ∈ text, Pattern.isMeta c = false) (ignoreCase : Bool) (o : WalkOptions) :
    ∃ p, Pattern.compile text ignoreCase = .ok p ∧
      successes (v.matchingFiles p o) =
        (if v.isFile (utf8 text) = true ∧ text ≠ ['-'] then [utf8 text] else []) ∧
      ∀ (q : Pattern) (o' : WalkOptions), utf8 text ∈ successes (v.matchingFiles q o') →
        successes (v.matchingFiles p o) =
          if text = ['-'] ∨ pathLimit ≤ (utf8 text).length then [] else [utf8 text] := by
  obtain ⟨p, hcompile, hp, rfl⟩ := Pattern.compile_of_literal hliteral ignoreCase
  have hfinds := successes_matchingFiles_of_isLiteral hp v o
  refine ⟨p, hcompile, hfinds, fun q o' hreported => ?_⟩
  have hfile : v.isFile (utf8 p.text) = true ↔ (utf8 p.text).length < pathLimit :=
    ⟨length_lt_of_isFile, isFile_of_mem_matchingFiles hreported⟩
  rw [hfinds]
  simp only [hfile]
  by_cases htext : p.text = ['-']
  · rw [if_neg fun hboth => hboth.2 htext, if_pos (.inl htext)]
  · by_cases hlength : (utf8 p.text).length < pathLimit
    · rw [if_pos ⟨hlength, htext⟩, if_neg (by simp [htext, hlength])]
    · rw [if_neg fun hboth => hlength hboth.1, if_pos (.inr (Nat.not_lt.mp hlength))]

/-- A file that is called like the standard input. -/
def dashTree : WorkingTree := (WorkingTree.ofTree .empty).put (utf8 "-".toList) (.file (.bytes []))

/-- The pattern `*`. -/
def everyName : Pattern := ⟨"*".toList, false, [.star], rfl⟩

/-- The file is found under any name, and by the literal that names it below `.`. The literal
that is its name leads to it, and does not find it. -/
theorem matchingFiles_literal_dash :
    ((∀ c ∈ "-".toList, Pattern.isMeta c = false) ∧
      utf8 "-".toList ∈ successes (dashTree.view.matchingFiles everyName {}) ∧
      dashTree.view.isFile (utf8 "-".toList) = true ∧
      ∃ p, Pattern.compile "-".toList false = .ok p ∧
        successes (dashTree.view.matchingFiles p {}) = []) ∧
    (∀ c ∈ "./-".toList, Pattern.isMeta c = false) ∧
      ∃ p, Pattern.compile "./-".toList false = .ok p ∧
        successes (dashTree.view.matchingFiles p {}) = [utf8 "./-".toList] := by
  have hdash : ∀ c ∈ "-".toList, Pattern.isMeta c = false := by simp [Pattern.isMeta]
  have hbelow : ∀ c ∈ "./-".toList, Pattern.isMeta c = false := by simp [Pattern.isMeta]
  have hstar : utf8 "-".toList ∈ successes (dashTree.view.matchingFiles everyName {}) := by
    decide +kernel
  refine ⟨⟨hdash, hstar, by decide +kernel, ?_⟩, hbelow, ?_⟩
  · obtain ⟨p, hcompile, -, hagain⟩ := dashTree.view.matchingFiles_literal hdash false {}
    exact ⟨p, hcompile, hagain everyName {} hstar⟩
  · obtain ⟨p, hcompile, hfinds, -⟩ := dashTree.view.matchingFiles_literal hbelow false {}
    refine ⟨p, hcompile, hfinds.trans (if_pos ⟨by decide +kernel, by decide⟩)⟩

/-- A literal need not find the file that it leads to. -/
theorem not_forall_matchingFiles_literal :
    ¬∀ (v : TreeView) (p : Pattern) (o : WalkOptions), p.text ≠ [] → p.IsLiteral →
      successes (v.matchingFiles p o) =
        if v.isFile (utf8 p.text) = true then [utf8 p.text] else [] := by
  intro h
  have hfinds := h dashTree.view ⟨"-".toList, false, [.literal '-'], rfl⟩ {} (by decide)
    (by simp [Pattern.IsLiteral, Pattern.isMeta])
  exact absurd hfinds (by decide +kernel)

end TreeView

end LineLimit
