import LineLimit.Proofs.Path
import LineLimit.Proofs.Pattern.PathLanguage
import Mathlib.Data.List.TakeWhile

/-!
# The literal beginning of a pattern

Characters without a meaning stand for themselves (`parse_literals`). The parts
of a pattern that hold no others are its base, and going down names from the
base is the same as setting out the literal parts and the names in one path:

> `base_extend`: `p.base.extend names` is the literal parts and the names, with
> a slash between each two.
-/

namespace LineLimit

open Glob (Token Tokens Reader alike sameByte language)

variable {ignoreCase : Bool}

/-! ## Characters that stand for themselves -/

/-- Characters that have no meaning of their own are read as literals, whatever came before them.
-/
theorem foldlM_literals {text : Text} (h : ∀ c ∈ text, Pattern.isMeta c = false) (base : Tokens)
    (last : Option Char) :
    ∃ last', text.foldlM Reader.step ⟨base, [], last, .plain⟩ =
      .ok ⟨(text.map Token.literal).reverse ++ base, [], last', .plain⟩ := by
  induction text generalizing base last with
  | nil => exact ⟨last, rfl⟩
  | cons c text ih =>
    have hc : Reader.step ⟨base, [], last, .plain⟩ c =
        .ok ⟨.literal c :: base, [], some c, .plain⟩ := by
      have hmeta := h c (List.mem_cons_self ..)
      show Reader.plain _ c = _
      unfold Reader.plain
      split <;> first | rfl | exact absurd hmeta (by decide)
    obtain ⟨last', hrest⟩ :=
      ih (fun d hd => h d (List.mem_cons_of_mem _ hd)) (.literal c :: base) (some c)
    refine ⟨last', ?_⟩
    rw [List.foldlM_cons, hc]
    refine hrest.trans ?_
    rw [List.map_cons, List.reverse_cons, List.append_assoc]
    rfl

/-- A text without wildcards is a glob of its own characters. -/
theorem parse_literals {text : Text} (h : ∀ c ∈ text, Pattern.isMeta c = false) :
    Glob.parse text = .ok (text.map Token.literal) := by
  obtain ⟨last, hread⟩ := foldlM_literals h [] none
  rw [List.append_nil] at hread
  have hbranch : (text.map Token.literal).reverse ≠ [Token.leading] := by
    intro hlone
    have hmem : Token.leading ∈ (text.map Token.literal).reverse :=
      hlone ▸ List.mem_singleton_self _
    simp at hmem
  have hfinish := Reader.finish_of_settle
    (r := ⟨(text.map Token.literal).reverse, [], last, .plain⟩) rfl rfl hbranch
  rw [List.reverse_reverse] at hfinish
  unfold Glob.parse
  rw [show Reader.initial = ⟨[], [], none, .plain⟩ from rfl, hread]
  exact hfinish

/-- Literals stand for the bytes of their text, each up to case if the case is
ignored. -/
theorem language_literals (text : Text) :
    language ignoreCase (text.map Token.literal) = alike (sameByte ignoreCase) (utf8 text) := by
  induction text with
  | nil =>
    rw [List.map_nil, Glob.language_nil]
    exact Language.ext fun s => List.forall₂_nil_left_iff.symm
  | cons c text ih =>
    rw [List.map_cons, Glob.language_cons, ih, Glob.language_literal, ← Glob.alike_append,
      ← utf8_append]
    rfl

/-- A component without a meaning is a name. -/
def Step.ofLiteral (part : Text) : Step :=
  .name (part.map Token.literal) (part.head? = some '.')

/-- A component without wildcards is a step that takes its own name. -/
theorem Step.read?_literal {part : Text} (h : part.any Pattern.isMeta = false) :
    Step.read? part = some (.ofLiteral part) := by
  have hchars : ∀ c ∈ part, Pattern.isMeta c = false := by simpa using h
  have hstars : part ≠ ['*', '*'] := by
    intro heq
    subst heq
    exact absurd h (by decide)
  unfold Step.read?
  rw [if_neg hstars, parse_literals hchars]
  rfl

/-! ## The base -/

/-- Of a text, its slashes aside, holds what holds of its components. -/
theorem any_intercalate {q : Char → Bool} (hq : q '/' = false) (parts : List Text) :
    (['/'].intercalate parts).any q = parts.any (·.any q) := by
  induction parts with
  | nil => rfl
  | cons part parts ih =>
    cases parts with
    | nil => simp
    | cons next parts =>
      rw [List.intercalate_cons_cons, List.any_append, List.any_append, ih, List.any_cons]
      simp [hq]

/-- The bytes of joined texts are the joined bytes of the texts. -/
theorem utf8_intercalate (parts : List Text) :
    utf8 (['/'].intercalate parts) = [slash].intercalate (parts.map utf8) := by
  induction parts with
  | nil => rfl
  | cons part parts ih =>
    cases parts with
    | nil => rw [List.intercalate_singleton, List.map_singleton, List.intercalate_singleton]
    | cons next parts =>
      rw [List.intercalate_cons_cons, List.map_cons, List.map_cons, List.intercalate_cons_cons,
        utf8_append, utf8_append, ih, List.map_cons]
      rfl

namespace Pattern

/-- A text that is a glob compiles to a pattern with that glob. -/
theorem compile_of_parse {text : Text} {glob : Glob.Tokens} (h : Glob.parse text = .ok glob)
    (ignoreCase : Bool) : compile text ignoreCase = .ok ⟨text, ignoreCase, glob, h⟩ := by
  unfold compile
  split
  · next glob' h' =>
    obtain rfl : glob = glob' := Except.ok.inj (h.symm.trans h')
    rfl
  · next e h' =>
    rw [h] at h'
    exact absurd h' (by simp)

variable {p : Pattern}

/-- Two stars in a row stand at the start of a text or later. -/
theorem hasTwoStars_cons (c : Char) (part : Text) :
    hasTwoStars (c :: part) = ((c = '*' ∧ part.head? = some '*') || hasTwoStars part) := by
  cases part with
  | nil => simp [hasTwoStars]
  | cons d part =>
    by_cases hc : c = '*'
    · by_cases hd : d = '*'
      · subst hc hd
        rfl
      · rw [hasTwoStars]
        · simp [hd]
        · intro _ _ heq
          exact absurd (List.cons.inj heq).1 hd
    · rw [hasTwoStars]
      · simp [hc]
      · intro _ heq
        exact absurd heq hc

/-- The components are those before the first wildcard and those from it on. -/
theorem parts_eq (p : Pattern) : p.parts = p.literalParts ++ p.wildParts :=
  List.takeWhile_append_dropWhile.symm

/-- The text is its components with slashes between them. -/
theorem text_eq (p : Pattern) : p.text = ['/'].intercalate p.parts :=
  (List.intercalate_splitOn '/').symm

theorem not_any_isMeta {part : Text} (h : part ∈ p.literalParts) : part.any isMeta = false := by
  have hall : p.literalParts.all (!·.any isMeta) = true := List.all_takeWhile
  simpa using List.all_eq_true.mp hall part h

theorem slash_not_mem_part {part : Text} (h : part ∈ p.parts) : '/' ∉ part :=
  not_mem_of_mem_splitOn h

/-- The first wild part has a character with a meaning. -/
theorem any_isMeta {part : Text} {rest : List Text} (h : p.wildParts = part :: rest) :
    part.any isMeta = true := by
  have hhead := List.head?_dropWhile_not (fun part : Text => !part.any isMeta) p.parts
  rw [show p.parts.dropWhile _ = p.wildParts from rfl, h] at hhead
  simpa using hhead

/-- The first component with a wildcard is not empty. -/
theorem first_ne_nil {part : Text} {rest : List Text} (h : p.wildParts = part :: rest) :
    part ≠ [] := by
  intro hnil
  have hmeta := any_isMeta h
  rw [hnil] at hmeta
  exact absurd hmeta (by simp)

/-- A pattern without a literal beginning does not start with a slash. -/
theorem head?_text (hliteral : p.literalParts = []) (hwild : p.wildParts ≠ []) :
    p.text.head? ≠ some '/' := by
  obtain ⟨part, rest, hparts⟩ := List.exists_cons_of_ne_nil hwild
  have hmeta := any_isMeta hparts
  have hall : p.parts = part :: rest := by rw [parts_eq, hliteral, hparts, List.nil_append]
  cases part with
  | nil => exact absurd hmeta (by simp)
  | cons c part =>
    have hc : '/' ∉ c :: part := slash_not_mem_part (hall ▸ List.mem_cons_self ..)
    have htext : p.text.head? = some c := by
      rw [text_eq, hall]
      cases rest with
      | nil => rw [List.intercalate_singleton]; rfl
      | cons next rest => rw [List.intercalate_cons_cons]; rfl
    rw [htext]
    intro heq
    exact hc (Option.some.inj heq ▸ List.mem_cons_self ..)

/-- A part with a meaning, if there are none before it, ends the literal parts. -/
theorem literalParts_of_parts {literals rest : List Text} {part : Text}
    (hparts : p.parts = literals ++ part :: rest)
    (hliterals : ∀ literal ∈ literals, literal.any isMeta = false)
    (hpart : part.any isMeta = true) : p.literalParts = literals ∧ p.wildParts = part :: rest := by
  have hall : ∀ literal ∈ literals, (!literal.any isMeta) = true := by simpa using hliterals
  unfold literalParts wildParts
  rw [hparts, List.takeWhile_append_of_pos hall, List.dropWhile_append_of_pos hall,
    List.takeWhile_cons, List.dropWhile_cons, hpart]
  exact ⟨List.append_nil _, rfl⟩

/-- The base is the literal components with slashes between them, if that is not empty. -/
theorem base_of_joined (h : ['/'].intercalate p.literalParts ≠ []) :
    p.base = utf8 (['/'].intercalate p.literalParts) := by
  unfold base
  split
  · next hnil => exact absurd hnil h
  · rfl

/-- Nothing in a pattern is wild if none of its characters has a meaning. -/
theorem wildParts_eq_nil_iff : p.wildParts = [] ↔ ∀ c ∈ p.text, isMeta c = false := by
  have hany : p.text.any isMeta = p.parts.any (·.any isMeta) :=
    (congrArg (·.any isMeta) p.text_eq).trans (any_intercalate (by decide) _)
  rw [show (∀ c ∈ p.text, isMeta c = false) ↔ p.text.any isMeta = false by simp, hany]
  unfold wildParts
  rw [List.dropWhile_eq_nil_iff]
  simp

/-- Such a pattern is all base. -/
theorem base_of_literal (hwild : p.wildParts = []) : p.base = utf8 p.text := by
  have hliteral : p.literalParts = p.parts := by rw [parts_eq p, hwild, List.append_nil]
  unfold base
  rw [hliteral, ← text_eq]
  split
  · next hnil => rw [hnil]; rfl
  · rfl

/-- Such a pattern matches its base only, up to case if the case is ignored. -/
theorem mem_alike_base (hwild : p.wildParts = []) {path : Path} (h : p.matchesPath path = true) :
    path ∈ alike (sameByte p.ignoreCase) p.base := by
  have hglob : p.glob = p.text.map Token.literal :=
    Except.ok.inj (p.parsed.symm.trans (parse_literals (wildParts_eq_nil_iff.mp hwild)))
  rw [base_of_literal hwild, ← language_literals, ← hglob]
  exact (Glob.accepts_iff p.glob path).mp h

/-- The base is empty, or the root, or the literal parts set out in a path. -/
theorem base_eq (hwild : p.wildParts ≠ []) :
    (p.literalParts = [] ∧ p.base = []) ∨
      (p.literalParts = [[]] ∧ p.base = [slash]) ∨
        (p.base ≠ [] ∧ p.base = [slash].intercalate (p.literalParts.map utf8)) := by
  by_cases hjoined : ['/'].intercalate p.literalParts = []
  · have hbase : p.base = if p.text.head? = some '/' then [slash] else [] := by
      unfold base
      rw [hjoined]
    rcases hliteral : p.literalParts with _ | ⟨first, _ | ⟨second, rest⟩⟩
    · rw [if_neg (head?_text hliteral hwild)] at hbase
      exact Or.inl ⟨rfl, hbase⟩
    · -- a single part that is empty comes before a slash
      rw [hliteral, List.intercalate_singleton] at hjoined
      subst hjoined
      obtain ⟨wild, rest, hrest⟩ := List.exists_cons_of_ne_nil hwild
      have htext : p.text.head? = some '/' := by
        rw [text_eq, parts_eq, hliteral, hrest]
        rfl
      rw [if_pos htext] at hbase
      exact Or.inr (Or.inl ⟨rfl, hbase⟩)
    · rw [hliteral, List.intercalate_cons_cons] at hjoined
      exact absurd hjoined (by simp)
  · have hbase := base_of_joined hjoined
    refine Or.inr (Or.inr ⟨?_, hbase.trans (utf8_intercalate _)⟩)
    intro hnil
    exact hjoined (utf8_injective (hbase.symm.trans hnil))

/-- Where only the first part can be empty, the last part of a base is not. -/
theorem base_cases (hwild : p.wildParts ≠ []) (hparts : ∀ part ∈ p.parts.tail, part ≠ []) :
    (p.literalParts = [] ∧ p.base = []) ∨
      (p.literalParts = [[]] ∧ p.base = [slash]) ∨
        ∃ init last, p.literalParts = init ++ [last] ∧ last ≠ [] ∧
          p.base = [slash].intercalate (init.map utf8 ++ [utf8 last]) := by
  rcases base_eq hwild with hnone | hroot | ⟨hne, hbase⟩
  · exact Or.inl hnone
  · exact Or.inr (Or.inl hroot)
  · rcases List.eq_nil_or_concat' p.literalParts with hliteral | ⟨init, last, hliteral⟩
    · rw [hliteral] at hbase
      exact absurd hbase hne
    · refine Or.inr (Or.inr ⟨init, last, hliteral, ?_, ?_⟩)
      · intro hnil
        subst hnil
        cases init with
        | nil =>
          rw [hliteral] at hbase
          exact hne hbase
        | cons first init =>
          refine hparts [] ?_ rfl
          rw [parts_eq, hliteral]
          simp
      · rw [hbase, hliteral, List.map_append, List.map_singleton]

/-- Names below the base, in one path with the literal parts. -/
theorem base_extend (hwild : p.wildParts ≠ []) (hparts : ∀ part ∈ p.parts.tail, part ≠ [])
    {names : List Bytes} (hne : names ≠ []) (hnames : ∀ n ∈ names, Path.IsName n) :
    p.base.extend names = [slash].intercalate (p.literalParts.map utf8 ++ names) := by
  obtain ⟨n, ns, rfl⟩ := List.exists_cons_of_ne_nil hne
  rw [Path.extend_cons _ (Path.isPart_of_mem hnames)]
  rcases base_cases hwild hparts with
    ⟨hliteral, hbase⟩ | ⟨hliteral, hbase⟩ | ⟨init, last, hliteral, hnil, hbase⟩
  · rw [hliteral, hbase]
    rfl
  · rw [hliteral, hbase]
    rfl
  · have hlast : '/' ∉ last := by
      refine slash_not_mem_part (p := p) ?_
      rw [parts_eq, hliteral]
      simp
    have hbytes : utf8 last ≠ [] := fun h => hnil (utf8_injective h)
    have hslash : slash ∉ utf8 last := fun h => hlast (Glob.slash_mem_utf8.mp h)
    rw [hliteral, List.map_append, List.map_singleton, intercalate_append (by simp) hne,
      hbase, Path.stem_intercalate _ hbytes hslash, List.append_assoc]
    rfl

end Pattern
end LineLimit
