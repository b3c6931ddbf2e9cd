import LineLimit.Proofs.Glob.Components
import LineLimit.Proofs.Runs

/-!
# How often a glob crosses from name to name

The names of a path are what its runs of slashes leave. Where no token of a glob
spans directories and no class admits a slash, every run of slashes in a path that
the glob stands for goes back to a run of literal slashes in the glob:

> `runs_le_crossings`: a path has at most as many runs of slashes as the glob has
> crossings, the branches of a group all counted together.

And every run of literal slashes goes back to a run of slashes in the text that the
glob was read from:

> `crossings_of_parse`: unless its text has two stars in a row, no token of a glob
> spans directories, and the glob has at most as many crossings as its text has runs
> of slashes.

So the text of a glob bounds how deep its matches can lie, however its groups nest.
-/

namespace LineLimit.Glob

mutual

/-- The crossings in the branches of a group. -/
def Token.innerCrossings : Token → Nat
  | .group branches => crossingsOfSome branches
  | _ => 0

/-- The crossings in the groups among the tokens. -/
def innerCrossings : Tokens → Nat
  | [] => 0
  | t :: ts => t.innerCrossings + innerCrossings ts

/-- The crossings in all of the branches together. -/
def crossingsOfSome : List Tokens → Nat
  | [] => 0
  | ts :: branches => runs Token.isSlash ts + innerCrossings ts + crossingsOfSome branches

end

/-- How often a glob can cross from one name to the next: its runs of literal
slashes, those in groups included. -/
def crossings (ts : Tokens) : Nat := runs Token.isSlash ts + innerCrossings ts

variable {ignoreCase : Bool}

theorem innerCrossings_append (ts us : Tokens) :
    innerCrossings (ts ++ us) = innerCrossings ts + innerCrossings us := by
  induction ts with
  | nil => exact (Nat.zero_add _).symm
  | cons t ts ih =>
    rw [List.cons_append, innerCrossings, innerCrossings, ih]
    omega

theorem innerCrossings_reverse (ts : Tokens) : innerCrossings ts.reverse = innerCrossings ts := by
  induction ts with
  | nil => rfl
  | cons t ts ih =>
    rw [List.reverse_cons, innerCrossings_append, ih, innerCrossings, innerCrossings,
      innerCrossings]
    omega

/-- A glob read backwards has as many crossings. -/
theorem crossings_reverse (ts : Tokens) : crossings ts.reverse = crossings ts := by
  unfold crossings
  rw [runs_reverse, innerCrossings_reverse]

/-- A token adds its own crossings, and one more if it is a slash and the next is none. -/
theorem crossings_cons (t : Token) (ts : Tokens) :
    crossings (t :: ts) =
      (if t.isSlash && !ts.head?.any Token.isSlash then 1 else 0) + t.innerCrossings +
        crossings ts := by
  unfold crossings
  rw [runs_cons, innerCrossings]
  omega

theorem crossingsOfSome_cons (ts : Tokens) (branches : List Tokens) :
    crossingsOfSome (ts :: branches) = crossings ts + crossingsOfSome branches := rfl

theorem crossingsOfSome_append (branches others : List Tokens) :
    crossingsOfSome (branches ++ others) = crossingsOfSome branches + crossingsOfSome others := by
  induction branches with
  | nil => exact (Nat.zero_add _).symm
  | cons ts branches ih =>
    rw [List.cons_append, crossingsOfSome_cons, crossingsOfSome_cons, ih]
    omega

theorem crossingsOfSome_reverse (branches : List Tokens) :
    crossingsOfSome branches.reverse = crossingsOfSome branches := by
  induction branches with
  | nil => rfl
  | cons ts branches ih =>
    have hnil : crossingsOfSome [] = 0 := rfl
    rw [List.reverse_cons, crossingsOfSome_append, ih, crossingsOfSome_cons, crossingsOfSome_cons,
      hnil]
    omega

/-- Leaving out branches leaves out crossings. -/
theorem crossingsOfSome_filter_le (f : Tokens → Bool) (branches : List Tokens) :
    crossingsOfSome (branches.filter f) ≤ crossingsOfSome branches := by
  induction branches with
  | nil => exact Nat.le_refl _
  | cons ts branches ih =>
    rw [List.filter_cons, crossingsOfSome_cons]
    split
    · rw [crossingsOfSome_cons]
      omega
    · omega

/-! ## Slashes in a path -/

/-- Only the literal slash is a slash. -/
theorem eq_slash_of_isSlash {t : Token} (h : t.isSlash = true) : t = .literal '/' := by
  unfold Token.isSlash at h
  split at h
  · rw [of_decide_eq_true h]
  · exact absurd h (by simp)

/-- A text without slashes has no run of them. -/
theorem runs_eq_zero_of_slash_not_mem {s : Bytes} (h : slash ∉ s) : runs (· == slash) s = 0 :=
  runs_eq_zero fun _ hb => beq_eq_false_iff_ne.mpr fun heq => h (heq ▸ hb)

/-- What follows in a glob on a literal slash starts with a slash. -/
theorem head?_of_slash {ts : Tokens} {s : Bytes} (hts : ts.head?.any Token.isSlash = true)
    (hs : s ∈ language ignoreCase ts) : s.head? = some slash := by
  cases ts with
  | nil => exact absurd hts (by simp)
  | cons t ts =>
    obtain rfl := eq_slash_of_isSlash hts
    rw [language_cons, language_slash, Language.mem_mul] at hs
    obtain ⟨a, ⟨b, rfl, hb⟩, c, -, rfl⟩ := hs
    rw [beq_iff_eq.mp hb]
    rfl

/-- A glob that ends with a literal slash stands only for what does. -/
theorem getLast?_of_slash {ts : Tokens} {s : Bytes} (hts : ts.getLast?.any Token.isSlash = true)
    (hs : s ∈ language ignoreCase ts) : s.getLast? = some slash := by
  obtain ⟨t, hlast, ht⟩ := (Option.any_eq_true _ _).mp hts
  obtain ⟨us, rfl⟩ := List.getLast?_eq_some_iff.mp hlast
  obtain rfl := eq_slash_of_isSlash ht
  rw [language_append, language_singleton, language_slash, Language.mem_mul] at hs
  obtain ⟨a, -, c, ⟨b, rfl, hb⟩, rfl⟩ := hs
  rw [beq_iff_eq.mp hb]
  exact List.getLast?_concat

/-- A slash after a slash goes on with its run, in the glob as in the path. -/
theorem runs_slash_cons {ts : Tokens} {s : Bytes} (hs : s ∈ language ignoreCase ts)
    (hle : runs (· == slash) s ≤ crossings ts) :
    runs (· == slash) (slash :: s) ≤ crossings (.literal '/' :: ts) := by
  rw [runs_cons, crossings_cons]
  by_cases hnext : ts.head?.any Token.isSlash = true
  · have hhead : s.head?.any (· == slash) = true := by
      rw [head?_of_slash hnext hs]
      rfl
    rw [hhead, Bool.not_true, Bool.and_false, if_neg Bool.false_ne_true]
    omega
  · have hone : (if slash == slash && !s.head?.any (· == slash) then 1 else 0) ≤ 1 := by
      split
      · exact Nat.le_refl 1
      · exact Nat.zero_le 1
    rw [if_pos (c := ((Token.literal '/').isSlash && _) = true) (by simp [Token.isSlash, hnext])]
    omega

mutual

/-- A token other than a slash has the crossings of its groups only. -/
theorem Token.runs_le_innerCrossings (t : Token)
    (ht : t.everywhere (fun u => !u.spans && u.sparesSlash ignoreCase) = true)
    (hslash : t.isSlash = false) {s : Bytes} (hs : s ∈ t.language ignoreCase) :
    runs (· == slash) s ≤ t.innerCrossings := by
  cases t with
  | group branches =>
    rw [Token.everywhere, Bool.and_eq_true] at ht
    cases branches with
    | nil =>
      rw [language_group_nil, Language.mem_one] at hs
      rw [hs]
      exact Nat.zero_le _
    | cons ts branches =>
      rw [language_group_cons, ← languageOfSome_cons] at hs
      exact runs_le_crossingsOfSome (ts :: branches) ht.2 hs
  | _ =>
    -- any other token stays inside a name
    refine Nat.le_of_eq (runs_eq_zero_of_slash_not_mem (Token.slash_not_mem _ ?_ hs))
    simp_all [Token.everywhere, Token.staysInside]

/-- A path has at most as many runs of slashes as the glob it matches has crossings. -/
theorem runs_le_crossings (ts : Tokens)
    (hts : everywhere (fun u => !u.spans && u.sparesSlash ignoreCase) ts = true) {s : Bytes}
    (hs : s ∈ language ignoreCase ts) : runs (· == slash) s ≤ crossings ts := by
  cases ts with
  | nil =>
    rw [language_nil, Language.mem_one] at hs
    rw [hs]
    exact Nat.zero_le _
  | cons t ts =>
    rw [everywhere, Bool.and_eq_true] at hts
    rw [language_cons, Language.mem_mul] at hs
    obtain ⟨a, ha, b, hb, rfl⟩ := hs
    have hrest := runs_le_crossings ts hts.2 hb
    by_cases hslash : t.isSlash = true
    · obtain rfl := eq_slash_of_isSlash hslash
      rw [language_slash] at ha
      obtain ⟨x, rfl, hx⟩ := ha
      rw [beq_iff_eq.mp hx]
      exact runs_slash_cons hb hrest
    · have hfirst := Token.runs_le_innerCrossings t hts.1 (by simpa using hslash) ha
      have hboth := runs_append_le (q := (· == slash)) a b
      rw [crossings_cons]
      omega

/-- A branch has no more crossings than the branches have together. -/
theorem runs_le_crossingsOfSome (branches : List Tokens)
    (hall : everywhereInSome (fun u => !u.spans && u.sparesSlash ignoreCase) branches = true)
    {s : Bytes} (hs : s ∈ languageOfSome ignoreCase branches) :
    runs (· == slash) s ≤ crossingsOfSome branches := by
  cases branches with
  | nil =>
    rw [languageOfSome_nil] at hs
    exact absurd hs (Language.notMem_zero s)
  | cons ts branches =>
    rw [everywhereInSome, Bool.and_eq_true] at hall
    rw [languageOfSome_cons, Language.mem_add] at hs
    rw [crossingsOfSome_cons]
    rcases hs with hs | hs
    · have hts := runs_le_crossings ts hall.1 hs
      omega
    · have hrest := runs_le_crossingsOfSome branches hall.2 hs
      omega

end

/-! ## Slashes in the text of a glob -/

namespace Reader

/-- The crossings in and before the branches of open groups. -/
def openCrossings : List OpenGroup → Nat
  | [] => 0
  | g :: gs => Glob.crossings g.before + crossingsOfSome g.branches + openCrossings gs

/-- The crossings that the reader holds, those of open groups included. -/
def crossings (r : Reader) : Nat := Glob.crossings r.branch + openCrossings r.groups

variable {r r' : Reader} {c : Char} {text : Text}

/-- A token adds its own crossings, and one more if it is a slash after none. -/
theorem crossings_push (t : Token) :
    (r.push t).crossings =
      (if t.isSlash && !r.branch.head?.any Token.isSlash then 1 else 0) + t.innerCrossings +
        r.crossings := by
  unfold crossings push
  rw [crossings_cons, Nat.add_assoc _ (Glob.crossings r.branch)]

/-- A token that is no slash and no group crosses nothing. -/
theorem crossings_push_of_none {t : Token} (hslash : t.isSlash = false)
    (hinner : t.innerCrossings = 0) : (r.push t).crossings = r.crossings := by
  rw [crossings_push, hslash, hinner, Bool.false_and, if_neg Bool.false_ne_true]
  omega

/-- A literal crosses once if it is a slash and no slash stands before it. -/
theorem crossings_push_literal (c : Char) :
    (r.push (.literal c)).crossings =
      r.crossings + if c = '/' ∧ r.branch.head?.any Token.isSlash = false then 1 else 0 := by
  have hinner : (Token.literal c).innerCrossings = 0 := rfl
  rw [crossings_push, hinner, Nat.add_zero, Nat.add_comm]
  simp only [Token.isSlash, Bool.and_eq_true, decide_eq_true_eq, Bool.not_eq_true']

/-- Only a slash adds a crossing, and only if no slash stands before it. -/
theorem crossings_plain (hr : r.plain c = .ok r') :
    r'.crossings ≤
      r.crossings + if c = '/' ∧ r.branch.head?.any Token.isSlash = false then 1 else 0 := by
  obtain ⟨branch, groups, last, mode⟩ := r
  have hnil : Glob.crossings [] = 0 := rfl
  have hset : ∀ l m, (⟨branch, groups, l, m⟩ : Reader).crossings =
      (⟨branch, groups, last, mode⟩ : Reader).crossings := fun _ _ => rfl
  cases reads_of_plain hr with
  | token ht =>
    rcases ht with ⟨-, rfl⟩ | ⟨-, -, rfl⟩
    · have hpush := crossings_push_of_none (r := ⟨branch, groups, some c, .plain⟩)
        (t := .anyByte) rfl rfl
      exact Nat.le_add_right_of_le (Nat.le_of_eq (hpush.trans (hset _ _)))
    · exact Nat.le_of_eq (crossings_push_literal (r := ⟨branch, groups, some c, .plain⟩) c)
  | begins => exact Nat.le_add_right _ _
  | opens =>
    have hsome : crossingsOfSome [] = 0 := rfl
    refine Nat.le_add_right_of_le (Nat.le_of_eq ?_)
    simp only [crossings, openCrossings, hnil, hsome]
    omega
  | @parts hc g gs hgroups =>
    obtain rfl : groups = g :: gs := hgroups
    refine Nat.le_add_right_of_le (Nat.le_of_eq ?_)
    simp only [crossings, openCrossings, crossingsOfSome_cons, crossings_reverse, hnil]
    omega
  | @closes hc g gs hgroups =>
    obtain rfl : groups = g :: gs := hgroups
    -- a group that ends has the crossings of its branches
    have hslash : ∀ branches, (Token.ofBranches branches).isSlash = false := fun _ => rfl
    have hgroup : (Token.ofBranches (branch.reverse :: g.branches).reverse).innerCrossings ≤
        Glob.crossings branch + crossingsOfSome g.branches := by
      have hfilter := crossingsOfSome_filter_le (!·.all Token.isBlank)
        (branch.reverse :: g.branches).reverse
      rw [crossingsOfSome_reverse, crossingsOfSome_cons, crossings_reverse] at hfilter
      exact hfilter
    refine Nat.le_add_right_of_le ?_
    simp only [crossings, openCrossings, crossings_cons, hslash, Bool.false_and,
      if_neg Bool.false_ne_true]
    omega

/-- What the reader holds after a text without two stars in a row: no token that
spans directories, and no crossing but from a run of slashes in the text, `spare` of
which cross nothing. A slash that was read last is a token, unless it stands in a class. -/
structure Counted (spare : Nat) (text : Text) (r : Reader) : Prop where
  everywhere : r.Everywhere (!·.spans)
  crossings : r.crossings + spare ≤ runs (· == '/') text
  slash : text.getLast? = some '/' →
    (∃ k, r.mode = .inClass k) ∨ r.mode = .plain ∧ r.branch.head?.any Token.isSlash = true
  star : ∀ b, r.mode = .star b → text.getLast? = some '*'
  stars : ∀ b, r.mode ≠ .stars b

/-- Before the first character there is nothing to count. -/
theorem counted_initial : initial.Counted 0 [] := by
  constructor
  · intro t ht
    exact absurd ht List.not_mem_nil
  · exact Nat.le_refl _
  · intro hlast
    exact absurd hlast (by simp)
  · intro b hmode
    exact absurd hmode (by simp [initial])
  · intro b hmode
    exact absurd hmode (by simp [initial])

/-- A slash that follows no slash starts a run. -/
theorem runs_concat_slash (text : Text) (c : Char) :
    runs (· == '/') (text ++ [c]) =
      runs (· == '/') text + if c = '/' ∧ text.getLast? ≠ some '/' then 1 else 0 := by
  have hlast : text.getLast?.any (· == '/') = decide (text.getLast? = some '/') := by
    rw [Bool.eq_iff_iff]
    simp [Option.any_eq_true]
  rw [runs_concat, hlast]
  simp

/-- A crossing more than there were runs is allowed for a slash that starts one. -/
theorem le_runs_concat {n : Nat} {p : Prop} [Decidable p] (hp : p → text.getLast? ≠ some '/')
    (hn : n ≤ runs (· == '/') text + if c = '/' ∧ p then 1 else 0) :
    n ≤ runs (· == '/') (text ++ [c]) := by
  rw [runs_concat_slash]
  by_cases hrun : c = '/' ∧ p
  · rw [if_pos hrun] at hn
    rwa [if_pos ⟨hrun.1, hp hrun.2⟩]
  · rw [if_neg hrun] at hn
    exact Nat.le_add_right_of_le hn

variable {spare : Nat}

/-- A character read outside classes and escapes leaves the crossings counted. -/
theorem counted_of_plain (heverywhere : r.Everywhere (!·.spans))
    (hcrossings : r.crossings + spare ≤ runs (· == '/') text)
    (hslash : text.getLast? = some '/' → r.branch.head?.any Token.isSlash = true)
    (hr : r.plain c = .ok r') : r'.Counted spare (text ++ [c]) := by
  obtain ⟨hstar, hstars, -⟩ := mode_of_plain hr
  constructor
  · exact heverywhere.plain rfl (fun _ => rfl) rfl hr
  · have hplain := crossings_plain hr
    apply le_runs_concat (p := r.branch.head?.any Token.isSlash = false) ?_ (by omega)
    intro hnone hlast
    rw [hslash hlast] at hnone
    exact absurd hnone (by simp)
  · intro hlast
    rw [List.getLast?_concat, Option.some.injEq] at hlast
    subst hlast
    obtain rfl := Except.ok.inj hr
    exact Or.inr ⟨rfl, rfl⟩
  · intro b hmode
    rw [List.getLast?_concat, hstar b hmode]
  · exact hstars

/-- A class, until it ends, is no token. -/
theorem Counted.inClass (h : r.Counted spare text) (k : OpenClass) :
    ({ r with last := some c, mode := .inClass k } : Reader).Counted spare (text ++ [c]) := by
  constructor
  · exact h.everywhere
  · rw [runs_concat_slash]
    exact Nat.le_add_right_of_le h.crossings
  · intro _
    exact Or.inl ⟨k, rfl⟩
  · intro b hmode
    exact absurd hmode (by simp)
  · intro b hmode
    exact absurd hmode (by simp)

/-- A slash in a class is a run of the text that crosses nothing. -/
theorem Counted.inClass_slash (h : r.Counted spare text) (hlast : text.getLast? ≠ some '/')
    (k : OpenClass) :
    ({ r with last := some '/', mode := .inClass k } : Reader).Counted (spare + 1)
      (text ++ ['/']) where
  everywhere := h.everywhere
  crossings := by
    have hcrossings := h.crossings
    rw [runs_concat_slash, if_pos ⟨rfl, hlast⟩]
    show r.crossings + (spare + 1) ≤ _
    omega
  slash := fun _ => .inl ⟨k, rfl⟩
  star := by simp
  stars := by simp

/-- The characters of a class are no tokens of their own, so none of them crosses. -/
theorem Counted.classChar {k : OpenClass} (h : r.Counted spare text)
    (hr : r.classChar k c = .ok r') : r'.Counted spare (text ++ [c]) := by
  rcases classChar_cases hr with ⟨rfl, -, rfl⟩ | ⟨-, k', -, rfl⟩
  · constructor
    · exact h.everywhere.push rfl
    · show (({ r with last := some ']' } : Reader).push _).crossings + spare ≤ _
      rw [crossings_push_of_none rfl rfl, runs_concat_slash]
      exact Nat.le_add_right_of_le h.crossings
    · intro hlast
      rw [List.getLast?_concat] at hlast
      exact absurd hlast (by simp)
    · intro b hmode
      exact absurd hmode (by simp [closeClass])
    · intro b hmode
      exact absurd hmode (by simp [closeClass])
  · exact h.inClass _

/-- Outside classes, a slash that was read last is the token before. -/
theorem Counted.slash_token (h : r.Counted spare text) (hmode : ∀ k, r.mode ≠ .inClass k)
    (hlast : text.getLast? = some '/') :
    r.mode = .plain ∧ r.branch.head?.any Token.isSlash = true := by
  rcases h.slash hlast with ⟨k, hk⟩ | hplain
  · exact absurd hk (hmode k)
  · exact hplain

/-- After a backslash, any character is a token, and no slash is before it. -/
theorem Counted.escaped (h : r.Counted spare text) (hmode : r.mode = .escaped) :
    ({ r.push (.literal c) with last := some c, mode := .plain } : Reader).Counted spare
      (text ++ [c]) := by
  have hlast : text.getLast? ≠ some '/' := by
    intro hlast
    have hplain := (h.slash_token (by simp [hmode]) hlast).1
    rw [hmode] at hplain
    exact absurd hplain (by simp)
  constructor
  · exact h.everywhere.push rfl
  · have hpush := crossings_push_literal (r := r) c
    have hcrossings := h.crossings
    show (r.push (.literal c)).crossings + spare ≤ _
    apply le_runs_concat (p := r.branch.head?.any Token.isSlash = false) (fun _ => hlast)
    omega
  · intro hc
    rw [List.getLast?_concat, Option.some.injEq] at hc
    exact Or.inr ⟨rfl, by simp [push, Token.isSlash, hc]⟩
  · intro b hmode
    exact absurd hmode (by simp)
  · intro b hmode
    exact absurd hmode (by simp)

/-- A star before a character is a token, unless the character is another star. -/
theorem Counted.oneStar {before : Option Char} (h : r.Counted spare text)
    (hmode : r.mode = .star before) (hr : r.oneStar.plain c = .ok r') :
    r'.Counted spare (text ++ [c]) := by
  apply counted_of_plain (h.everywhere.push rfl) ?_ ?_ hr
  · show (r.push .star).crossings + spare ≤ _
    rw [crossings_push_of_none rfl rfl]
    exact h.crossings
  · intro hlast
    rw [h.star before hmode] at hlast
    exact absurd hlast (by simp)

/-- A star after a star is two in a row. -/
theorem stars_infix_concat (hlast : text.getLast? = some '*') : ['*', '*'] <:+: text ++ ['*'] := by
  obtain ⟨init, rfl⟩ := List.getLast?_eq_some_iff.mp hlast
  exact ⟨init, [], by simp⟩

/-- Every character keeps the count. -/
theorem Counted.step (h : r.Counted spare text) (hstars : ¬['*', '*'] <:+: text ++ [c])
    (hr : r.step c = .ok r') : r'.Counted spare (text ++ [c]) := by
  cases steps_of_step hr with
  | plain hmode hr =>
    have hclass : ∀ k, r.mode ≠ .inClass k := by simp [hmode]
    apply counted_of_plain h.everywhere h.crossings ?_ hr
    intro hlast
    exact (h.slash_token hclass hlast).2
  | escaped hmode hr =>
    subst hr
    exact h.escaped hmode
  | secondStar hmode hc hr =>
    subst hc
    exact absurd (stars_infix_concat (h.star _ hmode)) hstars
  | oneStar hmode hc hr => exact h.oneStar hmode hr
  | afterStars hmode hr => exact absurd hmode (h.stars _)
  | negates hmode hc hr =>
    subst hr
    exact h.inClass _
  | classChar hmode hr => exact h.classChar hr

/-- A text that adds no two stars in a row keeps the count. -/
theorem Counted.foldlM {rest : Text} (h : r.Counted spare text)
    (hstars : ¬['*', '*'] <:+: text ++ rest) (hr : rest.foldlM Reader.step r = .ok r') :
    r'.Counted spare (text ++ rest) :=
  foldlM_keeps (I := Counted spare) text h
    (fun _ _ _ _ htaken hcounted hstep =>
      hcounted.step (fun hstarred => hstars (hstarred.trans htaken.isInfix)) hstep)
    hr

/-- The end of the text adds a star at most. -/
theorem Counted.settle (h : r.Counted spare text) (hr : r.settle = .ok r') :
    r'.Everywhere (!·.spans) ∧ r'.crossings + spare ≤ runs (· == '/') text ∧
      (text.getLast? = some '/' → r'.branch.head?.any Token.isSlash = true) := by
  cases settles_of_settle hr with
  | plain hmode hr =>
    subst hr
    refine ⟨h.everywhere, h.crossings, fun hlast => ?_⟩
    rcases h.slash hlast with ⟨k, hk⟩ | ⟨-, hslash⟩
    · exact absurd (hmode.symm.trans hk) (by simp)
    · exact hslash
  | oneStar hmode hr =>
    subst hr
    refine ⟨h.everywhere.push rfl, ?_, fun hlast => ?_⟩
    · show (r.push .star).crossings + spare ≤ _
      rw [crossings_push_of_none rfl rfl]
      exact h.crossings
    · rw [h.star _ hmode] at hlast
      exact absurd hlast (by simp)
  | stars hmode hr => exact absurd hmode (h.stars _)

/-- The glob has the count of the text. -/
theorem Counted.finish {ts : Tokens} (h : r.Counted spare text) (hr : r.finish = .ok ts) :
    Glob.everywhere (!·.spans) ts = true ∧ Glob.crossings ts + spare ≤ runs (· == '/') text ∧
      (text.getLast? = some '/' → ts.getLast?.any Token.isSlash = true) := by
  obtain ⟨q, hq, hgroups, hbranch⟩ := finish_spec hr
  obtain ⟨heverywhere, hcrossings, hslash⟩ := h.settle hq
  have htokens : ∀ t ∈ q.branch, t.everywhere (!·.spans) = true :=
    fun t ht => heverywhere t (List.mem_append_left _ ht)
  rcases hbranch with rfl | ⟨hlone, -⟩
  · refine ⟨everywhere_eq_true.mpr fun t ht => htokens t (List.mem_reverse.mp ht), ?_, ?_⟩
    · unfold Reader.crossings at hcrossings
      rw [crossings_reverse]
      omega
    · rw [List.getLast?_reverse]
      exact hslash
  · -- a lone `**` spans directories
    have hleading := htokens .leading (hlone ▸ List.mem_cons_self ..)
    exact absurd hleading (by decide)

end Reader

/-- The glob of a text without two stars in a row: no token spans directories, there
are at most as many crossings as runs of slashes in the text, and a slash at the
end of the text is one at the end of the glob. -/
theorem crossings_of_parse {text : Text} {ts : Tokens} (hstars : ¬['*', '*'] <:+: text)
    (hts : parse text = .ok ts) :
    everywhere (!·.spans) ts = true ∧ crossings ts ≤ runs (· == '/') text ∧
      (text.getLast? = some '/' → ts.getLast?.any Token.isSlash = true) := by
  obtain ⟨r, hr, hfinish⟩ := exists_of_bind_eq_ok hts
  have hcounted : r.Counted 0 text := Reader.counted_initial.foldlM hstars hr
  exact hcounted.finish hfinish

end LineLimit.Glob
