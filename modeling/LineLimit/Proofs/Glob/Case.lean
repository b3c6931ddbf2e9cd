import LineLimit.Proofs.Glob.Components

/-!
# Reading and matching without regard to case

A glob can be put in small letters: all its literals, that is, for a class
ignores the case by itself. Where case is ignored, this changes nothing
(`accepts_lower`). And it does not matter whether a text is put in small letters
first, outside classes, or read first:

> `step_lower`: a reader in small letters reads a character in small letters
> as the reader reads the character.

So two texts that differ in the case of letters outside classes only
(`Recased`) are the same glob up to case, or both none (`Recased.parse_lower`).
-/

namespace LineLimit.Glob

/-! ## Small letters -/

/-- A character is its own small letter unless it is a capital, which stands 0x20 before its small
letter. -/
theorem toLower_cases (c : Char) :
    c.toLower = c ∨
      (0x41 ≤ c.toNat ∧ c.toNat ≤ 0x5A ∧ c.toLower.toNat = c.toNat + 0x20) := by
  unfold Char.toLower
  split
  · next h =>
    have hlow : 0x41 ≤ c.val.toNat := h.1
    have hhigh : c.val.toNat ≤ 0x5A := h.2
    refine .inr ⟨hlow, hhigh, ?_⟩
    show (c.val + 0x20).toNat = _
    rw [UInt32.toNat_add]
    show (c.val.toNat + 0x20) % 2 ^ 32 = c.val.toNat + 0x20
    omega
  · exact .inl rfl

/-- Whether a character is no letter of ASCII. -/
def caseless (d : Char) : Bool :=
  d.toNat < 0x41 || (0x5A < d.toNat && d.toNat < 0x61) || 0x7A < d.toNat

/-- A character that is no letter is no other in small letters. -/
theorem toLower_eq_iff {c d : Char} (hd : caseless d = true) : c.toLower = d ↔ c = d := by
  simp only [caseless, Bool.or_eq_true, Bool.and_eq_true, decide_eq_true_eq] at hd
  have hsame : d.toLower = d := by
    rcases toLower_cases d with h | ⟨hlow, hhigh, -⟩
    · exact h
    · omega
  constructor
  · intro h
    rcases toLower_cases c with hc | ⟨hlow, hhigh, hc⟩
    · rw [← hc, h]
    · rw [h] at hc
      omega
  · intro h
    rw [h, hsame]

/-- No letter is in question where a character is looked up among others. -/
theorem mem_toLower_iff {c : Char} {ds : List Char} (hds : ds.all caseless = true) :
    c.toLower ∈ ds ↔ c ∈ ds := by
  rw [List.all_eq_true] at hds
  constructor
  · intro h
    exact ((toLower_eq_iff (hds _ h)).mp rfl) ▸ h
  · intro h
    exact ((toLower_eq_iff (hds _ h)).mpr rfl).symm ▸ h

mutual

/-- The token with its literals in small letters. -/
def Token.lower : Token → Token
  | .literal c => .literal c.toLower
  | .group branches => .group (lowerBranches branches)
  | t => t

/-- The tokens with their literals in small letters. -/
def lower : Tokens → Tokens
  | [] => []
  | t :: ts => t.lower :: lower ts

/-- The branches with their literals in small letters. -/
def lowerBranches : List Tokens → List Tokens
  | [] => []
  | ts :: branches => lower ts :: lowerBranches branches

end

theorem lower_eq_map (ts : Tokens) : lower ts = ts.map Token.lower := by
  induction ts with
  | nil => rfl
  | cons t ts ih => rw [lower, ih, List.map_cons]

theorem lowerBranches_eq_map (branches : List Tokens) :
    lowerBranches branches = branches.map lower := by
  induction branches with
  | nil => rfl
  | cons ts branches ih => rw [lowerBranches, ih, List.map_cons]

/-! ## Matching -/

/-- The byte of a capital and that of its small letter are the same once case is folded. -/
theorem foldCase_ofNat {n : Nat} (hlow : 0x41 ≤ n) (hhigh : n ≤ 0x5A) :
    foldCase (UInt8.ofNat (n + 0x20)) = foldCase (UInt8.ofNat n) := by
  have hletters : ∀ k < 26,
      foldCase (UInt8.ofNat (0x41 + k + 0x20)) = foldCase (UInt8.ofNat (0x41 + k)) := by
    decide
  obtain ⟨k, rfl⟩ := Nat.exists_eq_add_of_le hlow
  exact hletters k (by omega)

/-- The bytes of a literal, small or not, are the same bytes up to case. -/
theorem bytes_toLower (c : Char) (s : Bytes) (row : Row) :
    Row.bytes (sameByte true) (utf8 [c.toLower]) s row =
      Row.bytes (sameByte true) (utf8 [c]) s row := by
  rcases toLower_cases c with h | ⟨hlow, hhigh, hlower⟩
  · rw [h]
  · have hsame : sameByte true (UInt8.ofNat c.toLower.toNat) =
        sameByte true (UInt8.ofNat c.toNat) := by
      funext b
      unfold sameByte
      rw [if_pos rfl, if_pos rfl, hlower, foldCase_ofNat hlow hhigh]
    rw [utf8_ascii (by omega), utf8_ascii (by omega)]
    show Row.byte _ s row = Row.byte _ s row
    rw [hsame]

mutual

/-- Matched without regard to case, a token in small letters reaches the same positions. -/
theorem Token.row_lower (t : Token) (s : Bytes) (row : Row) :
    t.lower.row true s row = t.row true s row := by
  cases t with
  | literal c => exact bytes_toLower c s row
  | group branches =>
    cases branches with
    | nil => rfl
    | cons ts branches =>
      rw [Token.lower, lowerBranches, Token.row, Token.row, rowOf_lower ts,
        rowOfSome_lower branches]
  | _ => rfl

theorem rowOf_lower (ts : Tokens) (s : Bytes) (row : Row) :
    rowOf true s (lower ts) row = rowOf true s ts row := by
  cases ts with
  | nil => rfl
  | cons t ts => rw [lower, rowOf, rowOf, rowOf_lower ts, Token.row_lower t]

theorem rowOfSome_lower (branches : List Tokens) (s : Bytes) (row : Row) :
    rowOfSome true s (lowerBranches branches) row = rowOfSome true s branches row := by
  cases branches with
  | nil => rfl
  | cons ts branches =>
    rw [lowerBranches, rowOfSome, rowOfSome, rowOf_lower ts, rowOfSome_lower branches]

end

/-- Where case is ignored, a glob accepts what it accepts in small letters. -/
theorem accepts_lower (ts : Tokens) (s : Bytes) :
    accepts true (lower ts) s = accepts true ts s := by
  unfold accepts
  rw [rowOf_lower]

/-! ## Reading -/

/-- Whether the next character is part of a class. -/
def Mode.inBrackets : Mode → Bool
  | .classStart | .inClass _ => true
  | _ => false

def OpenGroup.lower (g : OpenGroup) : OpenGroup :=
  ⟨Glob.lower g.before, g.branches.map Glob.lower⟩

def Mode.lower : Mode → Mode
  | .star before => .star (before.map Char.toLower)
  | .stars before => .stars (before.map Char.toLower)
  | m => m

/-- The reader of the same text in small letters, classes apart. -/
def Reader.lower (r : Reader) : Reader :=
  { branch := Glob.lower r.branch
    groups := r.groups.map OpenGroup.lower
    last := if r.mode.inBrackets then r.last else r.last.map Char.toLower
    mode := r.mode.lower }

namespace Reader

variable (r : Reader)

theorem lower_reverse (ts : Tokens) : Glob.lower ts.reverse = (Glob.lower ts).reverse := by
  rw [lower_eq_map, lower_eq_map, List.map_reverse]

/-- Small letters make no token blank. -/
theorem isBlank_lower (t : Token) : t.lower.isBlank = t.isBlank := by
  cases t with
  | group branches => cases branches <;> rfl
  | _ => rfl

theorem lower_ofBranches (branches : List Tokens) :
    (Token.ofBranches branches).lower = Token.ofBranches (branches.map Glob.lower) := by
  have hblank : ∀ ts : Tokens, (Glob.lower ts).all Token.isBlank = ts.all Token.isBlank := by
    intro ts
    rw [lower_eq_map, List.all_map]
    exact List.all_congr rfl fun t => isBlank_lower t
  unfold Token.ofBranches
  rw [Token.lower, lowerBranches_eq_map, List.filter_map]
  congr 3
  funext ts
  exact congrArg (!·) (hblank ts).symm

/-- The comma starts the same branch, whatever case the tokens before it are in. -/
theorem comma_lower : r.lower.comma = r.comma.lower := by
  obtain ⟨branch, groups, last, mode⟩ := r
  cases groups with
  | nil => rfl
  | cons g gs =>
    show (⟨[], ⟨_, (Glob.lower branch).reverse :: _⟩ :: _, _, _⟩ : Reader) = _
    rw [← lower_reverse]
    rfl

/-- The brace closes the same group, or has none to close in either case. -/
theorem close_lower : r.lower.close = r.close.map lower := by
  obtain ⟨branch, groups, last, mode⟩ := r
  cases groups with
  | nil => rfl
  | cons g gs =>
    have htoken :
        Token.ofBranches ((Glob.lower branch).reverse :: g.branches.map Glob.lower).reverse =
          (Token.ofBranches (branch.reverse :: g.branches).reverse).lower := by
      rw [lower_ofBranches, List.map_reverse, List.map_cons, lower_reverse]
    show Except.ok (⟨_ :: _, _, _, _⟩ : Reader) = Except.ok ⟨_ :: _, _, _, _⟩
    rw [← htoken]
    rfl

/-- A character that has no meaning of its own is pushed as a literal. -/
theorem plain_of_not_mem {c : Char} (hc : c ∉ ['?', '*', '[', '{', '}', ',', '\\']) (q : Reader) :
    q.plain c = .ok ({ q with last := some c, mode := .plain }.push (.literal c)) := by
  unfold Reader.plain
  split <;> first | rfl | exact absurd (by decide) hc

/-- Outside classes and escapes, a small letter is read as the letter. -/
theorem plain_lower (c : Char) (h : r.mode.inBrackets = false) :
    r.lower.plain c.toLower = (r.plain c).map lower := by
  have hlast : r.lower.last = r.last.map Char.toLower := if_neg (by simp [h])
  by_cases hc : c ∈ ['?', '*', '[', '{', '}', ',', '\\']
  · simp only [List.mem_cons, List.not_mem_nil, or_false] at hc
    rcases hc with rfl | rfl | rfl | rfl | rfl | rfl | rfl
    · rfl
    · show Except.ok _ = Except.ok _
      rw [hlast]
      rfl
    · rfl
    · rfl
    · exact close_lower { r with last := some '}', mode := .plain }
    · exact congrArg Except.ok (comma_lower { r with last := some ',', mode := .plain })
    · rfl
  · -- any other character stands for itself, and so does its small letter
    have hlower : c.toLower ∉ ['?', '*', '[', '{', '}', ',', '\\'] := by
      intro hmem
      exact hc ((mem_toLower_iff rfl).mp hmem)
    rw [plain_of_not_mem hc, plain_of_not_mem hlower]
    rfl

/-- What two stars stand for depends on characters that are no letters. -/
theorem decide_map_toLower {before : Option Char} {d : Char} (hd : caseless d = true) :
    decide (before.map Char.toLower = some d) = decide (before = some d) := by
  cases before with
  | none => rfl
  | some b =>
    rw [decide_eq_decide, Option.map_some, Option.some.injEq, Option.some.injEq]
    exact toLower_eq_iff hd

/-- What stands before two stars lets them span directories in either case. -/
theorem maySpan_lower (before : Option Char) :
    r.lower.maySpan (before.map Char.toLower) = r.maySpan before := by
  obtain ⟨branch, groups, last, mode⟩ := r
  unfold maySpan
  rw [decide_map_toLower rfl, decide_map_toLower rfl, decide_map_toLower rfl]
  cases branch <;> cases groups <;> rfl

/-- Two stars that span directories stand alike in either case. -/
theorem spanning_lower (t : Token) : r.lower.spanning t.lower = (r.spanning t).lower := by
  obtain ⟨branch, groups, last, mode⟩ := r
  cases branch with
  | nil => rfl
  | cons u branch => cases u <;> rfl

/-- What comes after two stars is read alike in either case, except in a class. -/
theorem afterStars_lower (before : Option Char) (c : Char) (h : r.mode.inBrackets = false) :
    r.lower.afterStars (before.map Char.toLower) c.toLower =
      (r.afterStars before c).map lower := by
  have hc : ∀ d, caseless d = true → decide (c.toLower = d) = decide (c = d) :=
    fun d hd => decide_eq_decide.mpr (toLower_eq_iff hd)
  have hgroups : r.lower.groups.isEmpty = r.groups.isEmpty := by
    obtain ⟨branch, groups, last, mode⟩ := r
    cases groups <;> rfl
  have hbranch : List.isEmpty r.lower.branch = List.isEmpty r.branch := by
    obtain ⟨branch, groups, last, mode⟩ := r
    cases branch <;> rfl
  -- what ends a `**` is no letter, so small letters go the same way
  have hspanning : (r.spanning .trailing).mode = r.mode := by
    unfold spanning
    split <;> rfl
  unfold afterStars
  rw [hc '/' rfl, hc ',' rfl, hc '}' rfl, maySpan_lower, hgroups, hbranch]
  split
  · show Except.ok _ = Except.ok _
    rw [show Token.between = Token.between.lower from rfl, spanning_lower]
    rfl
  · split
    · rw [show Token.trailing = Token.trailing.lower from rfl, spanning_lower]
      exact plain_lower _ c (by rw [hspanning, h])
    · exact plain_lower r.twoStars c h

/-- A class keeps its characters as they are written, for it ignores case by itself. -/
theorem classChar_lower (k : OpenClass) (c : Char) :
    r.lower.classChar k c = (r.classChar k c).map lower := by
  unfold classChar
  split
  · next hend =>
    rw [Bool.and_eq_true, decide_eq_true_eq] at hend
    rw [hend.1]
    rfl
  · cases k.read c <;> rfl

/-- A reader in small letters reads a character in small letters, unless it is
part of a class, as the reader reads the character. -/
theorem step_lower (c : Char) :
    r.lower.step (if r.mode.inBrackets then c else c.toLower) = (r.step c).map lower := by
  obtain ⟨branch, groups, last, mode⟩ := r
  cases mode with
  | plain => exact plain_lower _ c rfl
  | escaped => rfl
  | star before =>
    show (if c.toLower = '*' then _ else _) = Except.map lower (if c = '*' then _ else _)
    by_cases hc : c = '*'
    · subst hc
      rfl
    · have hlower : c.toLower ≠ '*' := fun heq => hc ((toLower_eq_iff rfl).mp heq)
      rw [if_neg hc, if_neg hlower]
      exact plain_lower (oneStar ⟨branch, groups, last, .star before⟩) c rfl
  | stars before => exact afterStars_lower ⟨branch, groups, last, .stars before⟩ before c rfl
  | classStart =>
    show (if (c = '!' || c = '^') = true then _ else _) =
      Except.map lower (if (c = '!' || c = '^') = true then _ else _)
    split
    · rfl
    · exact classChar_lower ⟨branch, groups, last, .classStart⟩ _ c
  | inClass k => exact classChar_lower ⟨branch, groups, last, .inClass k⟩ k c

/-- What the end of a glob settles, it settles in either case. -/
theorem settle_lower : r.lower.settle = r.settle.map lower := by
  obtain ⟨branch, groups, last, mode⟩ := r
  cases mode with
  | stars before =>
    show Except.ok (if maySpan _ (before.map Char.toLower) = true then _ else _) =
      Except.map lower (Except.ok (if maySpan _ before = true then _ else _))
    rw [maySpan_lower]
    split
    · exact congrArg Except.ok (spanning_lower ⟨branch, groups, last, .stars before⟩ .trailing)
    · rfl
  | _ => rfl

/-- At its end a text in small letters is the glob in small letters, or fails alike. -/
theorem finish_lower : r.lower.finish = r.finish.map Glob.lower := by
  unfold finish
  rw [settle_lower]
  cases r.settle with
  | error e => rfl
  | ok q =>
    obtain ⟨branch, groups, last, mode⟩ := q
    cases groups with
    | cons g gs => rfl
    | nil =>
      rcases branch with _ | ⟨t, _ | ⟨u, branch⟩⟩
      · rfl
      · cases t <;> rfl
      · -- only a lone `**` is closed in another way
        have hreverse := fun t =>
          congrArg (@Except.ok GlobError Tokens) (lower_reverse (t :: u :: branch)).symm
        cases t with
        | leading => exact hreverse .leading
        | _ => exact hreverse _

end Reader

/-! ## Texts that differ in case only -/

/-- The second text is the first in another case, and the same in the classes,
where `r` reads the first. -/
inductive Recased : Reader → Text → Text → Prop
  | nil (r : Reader) : Recased r [] []
  | cons {r q : Reader} {c d : Char} {text other : Text} :
    (r.mode.inBrackets = true → c = d) → c.toLower = d.toLower → r.step c = .ok q →
      Recased q text other → Recased r (c :: text) (d :: other)

namespace Recased

instance decidable (r : Reader) (text other : Text) : Decidable (Recased r text other) :=
  match text, other with
  | [], [] => isTrue (.nil r)
  | [], _ :: _ => isFalse nofun
  | _ :: _, [] => isFalse nofun
  | c :: text, d :: other =>
    if hsame : (r.mode.inBrackets = true → c = d) ∧ c.toLower = d.toLower then
      match hstep : r.step c with
      | .error _ => isFalse fun h => by
        cases h with
        | cons _ _ hstep' _ => exact absurd (hstep.symm.trans hstep') (by simp)
      | .ok q =>
        match decidable q text other with
        | isTrue hrest => isTrue (.cons hsame.1 hsame.2 hstep hrest)
        | isFalse hrest => isFalse fun h => by
          cases h with
          | cons _ _ hstep' hrest' =>
            exact hrest (Except.ok.inj (hstep'.symm.trans hstep) ▸ hrest')
    else isFalse fun h => by
      cases h with
      | cons hclass hlower _ _ => exact hsame ⟨hclass, hlower⟩

variable {r q : Reader} {text other : Text}

/-- Texts that differ in case only have the same small letters. -/
theorem map_toLower (h : Recased r text other) :
    text.map Char.toLower = other.map Char.toLower := by
  induction h with
  | nil => rfl
  | cons _ hlower _ _ ih => rw [List.map_cons, List.map_cons, hlower, ih]

theorem inBrackets_lower (r : Reader) : r.lower.mode.inBrackets = r.mode.inBrackets := by
  obtain ⟨branch, groups, last, mode⟩ := r
  cases mode <;> rfl

/-- Readers that are the same in small letters stay so over texts in another
case. -/
theorem foldlM_lower (h : Recased r text other) (hq : r.lower = q.lower) :
    ∃ r' q', text.foldlM Reader.step r = .ok r' ∧ other.foldlM Reader.step q = .ok q' ∧
      r'.lower = q'.lower := by
  induction h generalizing q with
  | nil r => exact ⟨r, q, rfl, rfl, hq⟩
  | @cons r r₁ c d text other hclass hlower hstep _ ih =>
    -- both readers are in a class or neither is, so the step lemma is about
    -- the same character in both
    have hmode : r.mode.inBrackets = q.mode.inBrackets := by
      rw [← inBrackets_lower r, hq, inBrackets_lower]
    have hread : (if r.mode.inBrackets then c else c.toLower) =
        if q.mode.inBrackets then d else d.toLower := by
      rw [← hmode]
      split
      · next hin => exact hclass hin
      · exact hlower
    have hstep' : (q.step d).map Reader.lower = .ok r₁.lower := by
      rw [← Reader.step_lower, ← hread, ← hq, Reader.step_lower, hstep]
      rfl
    cases hd : q.step d with
    | error e => exact absurd hstep' (by rw [hd]; simp [Except.map])
    | ok q₁ =>
      rw [hd] at hstep'
      obtain ⟨r', q', hr', hq', hsame⟩ := ih (Except.ok.inj hstep').symm
      refine ⟨r', q', ?_, ?_, hsame⟩
      · rw [List.foldlM_cons, hstep]
        exact hr'
      · rw [List.foldlM_cons, hd]
        exact hq'

/-- Texts in another case are the same glob up to case, or both none. -/
theorem parse_lower (h : Recased Reader.initial text other) :
    (parse text).map lower = (parse other).map lower := by
  obtain ⟨r', q', hr', hq', hsame⟩ := h.foldlM_lower (q := Reader.initial) rfl
  unfold parse
  rw [hr', hq']
  show r'.finish.map lower = q'.finish.map lower
  rw [← Reader.finish_lower, hsame, Reader.finish_lower]

end Recased

end LineLimit.Glob
