import LineLimit.Proofs.Glob.Case
import LineLimit.Proofs.Glob.Slashes
import LineLimit.Proofs.Glob.Ungrouped

/-!
# Reading a glob without groups and without `**`

> `flat_of_ungrouped`: a text that opens no group, without two stars in a row and without a slash
> in a class is read as literals, `?`, `*` and classes, with one literal slash for each slash of
> the text.

What the reader holds after each character (`Reader.Flat`) has the slashes of the text so far.
A class keeps the slash out because no character of it is one: its ranges may span the slash
but none starts with it.
-/

namespace LineLimit.Glob

/-- No slash of the text is part of a class: wherever one comes, the reader stands in none. -/
def ClassesSpareSlash (text : Text) : Prop :=
  ∀ before after r, text = before ++ '/' :: after →
    before.foldlM Reader.step Reader.initial = .ok r → r.mode.inBrackets = false

/-- The ranges that are read are ranges of a flat class, and once a character has been read
there are some. -/
def OpenClass.Flat (k : OpenClass) : Prop :=
  (k.empty = false → k.ranges ≠ []) ∧ ∀ range ∈ k.ranges, range.1 ≤ range.2 ∧ range.1 ≠ '/'

variable {k k' : OpenClass} {c : Char}

/-- A class starts without ranges. -/
theorem flat_empty {negated : Bool} : OpenClass.Flat ⟨negated, true, false, []⟩ :=
  ⟨fun hempty => absurd hempty (by simp), fun _ hrange => absurd hrange List.not_mem_nil⟩

/-- A character other than a slash keeps the ranges flat, and leaves some. -/
theorem OpenClass.Flat.read (h : k.Flat) (hc : c ≠ '/') (hr : k.read c = .ok k') :
    OpenClass.Flat { k' with empty := false } := by
  obtain ⟨hne, hranges⟩ := h
  unfold OpenClass.read at hr
  split at hr
  · unfold OpenClass.extend at hr
    split at hr
    · obtain rfl := Except.ok.inj hr
      exact ⟨fun _ => List.cons_ne_nil _ _, fun range hrange => by
        obtain rfl := List.mem_singleton.mp hrange
        exact ⟨Nat.le_refl _, hc⟩⟩
    · next low _ ranges hlist =>
      split at hr
      · exact nomatch hr
      · next hle =>
        obtain rfl := Except.ok.inj hr
        rw [hlist] at hranges
        refine ⟨fun _ => List.cons_ne_nil _ _, fun range hrange => ?_⟩
        rcases List.mem_cons.mp hrange with rfl | hrange
        · exact ⟨Nat.le_of_not_lt hle, (hranges _ (List.mem_cons_self ..)).2⟩
        · exact hranges range (List.mem_cons_of_mem _ hrange)
  · split at hr
    · next hdash =>
      obtain rfl := Except.ok.inj hr
      exact ⟨fun _ => hne (by simp_all), hranges⟩
    · obtain rfl := Except.ok.inj hr
      refine ⟨fun _ => List.cons_ne_nil _ _, fun range hrange => ?_⟩
      rcases List.mem_cons.mp hrange with rfl | hrange
      · exact ⟨Nat.le_refl _, hc⟩
      · exact hranges range hrange

namespace Reader

variable {r r' : Reader} {n : Nat} {text : Text}

/-- No group is open, and the branch is a row of flat tokens with `n` literal slashes. -/
structure Holds (r : Reader) (n : Nat) : Prop where
  groups_eq : r.groups = []
  flat : ∀ t ∈ r.branch, t.IsFlat
  count_eq : r.branch.countP Token.isSlash = n

/-- A flat token adds its slash, if it is one. -/
theorem Holds.push (h : r.Holds n) {t : Token} (ht : t.IsFlat) :
    (r.push t).Holds (n + t.slashes) where
  groups_eq := h.groups_eq
  flat u hu := by
    rcases List.mem_cons.mp hu with rfl | hu
    · exact ht
    · exact h.flat u hu
  count_eq := by
    show List.countP Token.isSlash (t :: r.branch) = _
    rw [List.countP_cons, h.count_eq, Token.slashes]

/-- Outside classes and escapes, only a slash adds one. -/
theorem Holds.plain (h : r.Holds n) (hgroups : r'.groups = []) (hr : r.plain c = .ok r') :
    r'.Holds (n + if c = '/' then 1 else 0) := by
  obtain ⟨branch, groups, last, mode⟩ := r
  obtain ⟨rfl, hflat, hcount⟩ := h
  have hset : ∀ l m, Holds ⟨branch, [], l, m⟩ n := fun l m => ⟨rfl, hflat, hcount⟩
  cases reads_of_plain hr with
  | @token t ht =>
    obtain ⟨hflat, hslashes⟩ : t.IsFlat ∧ t.slashes = if c = '/' then 1 else 0 := by
      rcases ht with ⟨rfl, rfl⟩ | ⟨-, -, rfl⟩
      · exact ⟨trivial, rfl⟩
      · exact ⟨trivial, by simp [Token.slashes, Token.isSlash]⟩
    have hpush := (hset (some c) .plain).push hflat
    rw [hslashes] at hpush
    exact hpush
  | begins hmode =>
    have hslash : c ≠ '/' := by
      rintro rfl
      rcases hmode with ⟨hc, -⟩ | ⟨hc, -⟩ | ⟨hc, -⟩ <;> exact absurd hc (by decide)
    rw [if_neg hslash]
    exact hset _ _
  | opens => exact absurd hgroups (List.cons_ne_nil _ _)
  | parts hc hopen => exact absurd hopen.symm (List.cons_ne_nil _ _)
  | closes hc hopen => exact absurd hopen.symm (List.cons_ne_nil _ _)

/-- What the reader holds has the slashes of the text, and the class that is under way is flat.
Whether two stars span directories is never asked. -/
structure Flat (text : Text) (r : Reader) : Prop where
  holds : r.Holds (text.count '/')
  inClass : ∀ k, r.mode = .inClass k → k.Flat
  star : ∀ b, r.mode = .star b → text.getLast? = some '*'
  stars : ∀ b, r.mode ≠ .stars b

/-- Where nothing is under way, only what the reader holds matters. -/
theorem Holds.flat_of_mode_plain (h : r.Holds (text.count '/')) (hmode : r.mode = .plain) :
    r.Flat text where
  holds := h
  inClass := by simp [hmode]
  star := by simp [hmode]
  stars := by simp [hmode]

/-- Where a class is under way, it has to be flat. -/
theorem Holds.flat_of_mode_inClass (h : r.Holds (text.count '/')) (hk : k.Flat)
    (hmode : r.mode = .inClass k) : r.Flat text where
  holds := h
  inClass := by simp [hmode, hk]
  star := by simp [hmode]
  stars := by simp [hmode]

theorem flat_initial : initial.Flat [] :=
  Holds.flat_of_mode_plain ⟨rfl, fun _ ht => absurd ht List.not_mem_nil, rfl⟩ rfl

theorem count_concat (text : Text) (c : Char) :
    (text ++ [c]).count '/' = text.count '/' + if c = '/' then 1 else 0 := by
  rw [List.count_append, List.count_singleton]
  simp

/-- A character outside classes and escapes adds its own slash to both counts. -/
theorem Holds.flat_plain (h : r.Holds (text.count '/')) (hgroups : r'.groups = [])
    (hr : r.plain c = .ok r') : r'.Flat (text ++ [c]) := by
  obtain ⟨hstar, hstars, hclass⟩ := mode_of_plain hr
  constructor
  · rw [count_concat]
    exact h.plain hgroups hr
  · exact fun k hmode => absurd hmode (hclass k)
  · intro b hmode
    rw [List.getLast?_concat, hstar b hmode]
  · exact hstars

/-- Inside a class the branch stays as it is until the class ends. -/
theorem Holds.flat_classChar (h : r.Holds (text.count '/')) (hk : k.Flat) (hc : c ≠ '/')
    (hr : r.classChar k c = .ok r') : r'.Flat (text ++ [c]) := by
  have hcount : (text ++ [c]).count '/' = text.count '/' := by
    rw [count_concat, if_neg hc, Nat.add_zero]
  rcases classChar_cases hr with ⟨-, hempty, rfl⟩ | ⟨-, k', hread, rfl⟩
  · have hclosed : (Token.oneOf k.negated
        (if k.inRange then ('-', '-') :: k.ranges else k.ranges).reverse).IsFlat := by
      refine ⟨?_, fun range hrange => ?_⟩
      · split <;> simp [hk.1 hempty]
      · have hmem := List.mem_reverse.mp hrange
        split at hmem
        · rcases List.mem_cons.mp hmem with rfl | hmem
          · exact ⟨Nat.le_refl _, by decide⟩
          · exact hk.2 range hmem
        · exact hk.2 range hmem
    have hpush := h.push hclosed
    have hheld := hpush.count_eq.trans hcount.symm
    exact Holds.flat_of_mode_plain ⟨hpush.groups_eq, hpush.flat, hheld⟩ rfl
  · have hheld := h.count_eq.trans hcount.symm
    exact Holds.flat_of_mode_inClass ⟨h.groups_eq, h.flat, hheld⟩ (hk.read hc hread) rfl

/-- Every character keeps the branch flat. -/
theorem Flat.step (h : r.Flat text) (hstars : ¬['*', '*'] <:+: text ++ [c])
    (hgroups : r'.groups = []) (hclass : r.mode.inBrackets = true → c ≠ '/')
    (hr : r.step c = .ok r') : r'.Flat (text ++ [c]) := by
  cases steps_of_step hr with
  | plain hmode hr => exact h.holds.flat_plain hgroups hr
  | escaped hmode hr =>
    subst hr
    have hpush := h.holds.push (t := .literal c) trivial
    have hslashes : (Token.literal c).slashes = if c = '/' then 1 else 0 := by
      simp [Token.slashes, Token.isSlash]
    rw [hslashes, ← count_concat] at hpush
    exact Holds.flat_of_mode_plain ⟨hpush.groups_eq, hpush.flat, hpush.count_eq⟩ rfl
  | secondStar hmode hc hr =>
    subst hc
    exact absurd (stars_infix_concat (h.star _ hmode)) hstars
  | oneStar hmode hc hr => exact (h.holds.push (t := .star) trivial).flat_plain hgroups hr
  | afterStars hmode hr => exact absurd hmode (h.stars _)
  | negates hmode hc hr =>
    subst hr
    have hslash : c ≠ '/' := hclass (by rw [hmode]; rfl)
    have hcount : (text ++ [c]).count '/' = text.count '/' := by
      rw [count_concat, if_neg hslash, Nat.add_zero]
    have hheld := h.holds.count_eq.trans hcount.symm
    exact Holds.flat_of_mode_inClass ⟨h.holds.groups_eq, h.holds.flat, hheld⟩ flat_empty rfl
  | classChar hmode hr =>
    rcases hmode with ⟨hmode, -, rfl⟩ | hmode
    · exact h.holds.flat_classChar flat_empty (hclass (by rw [hmode]; rfl)) hr
    · exact h.holds.flat_classChar (h.inClass _ hmode) (hclass (by rw [hmode]; rfl)) hr

/-- A text keeps the branch flat from beginning to end. -/
theorem flat_of_foldlM (hstars : ¬['*', '*'] <:+: text) (hgroups : Ungrouped text)
    (hclass : ClassesSpareSlash text) (hr : text.foldlM Reader.step initial = .ok r) :
    r.Flat text := by
  refine (foldlM_keeps (I := fun taken q => taken.foldlM Reader.step initial = .ok q ∧ q.Flat taken)
    [] ⟨rfl, flat_initial⟩ ?_ hr).2
  rintro taken c q q' ⟨rest, hrest⟩ ⟨hq, hflat⟩ hstep
  have htext : text = taken ++ c :: rest := by simpa using hrest.symm
  have hnext : (taken ++ [c]).foldlM Reader.step initial = .ok q' := by
    rw [List.foldlM_append, hq]
    show List.foldlM Reader.step q [c] = _
    rw [List.foldlM_cons, hstep]
    rfl
  refine ⟨hnext, hflat.step ?_ ?_ ?_ hstep⟩
  · exact fun hstarred => hstars (hstarred.trans ⟨[], rest, hrest⟩)
  · exact hgroups (taken ++ [c]) rest q' hrest.symm hnext
  · rintro hbrackets rfl
    rw [hclass taken rest q htext hq] at hbrackets
    exact nomatch hbrackets

/-- The end of the text adds a star at most. -/
theorem Flat.settle (h : r.Flat text) (hr : r.settle = .ok r') : r'.Holds (text.count '/') := by
  cases settles_of_settle hr with
  | plain hmode hr =>
    subst hr
    exact h.holds
  | oneStar hmode hr =>
    subst hr
    exact h.holds.push (t := .star) trivial
  | stars hmode hr => exact absurd hmode (h.stars _)

end Reader

/-- A text that opens no group, without two stars in a row and without a slash in a class is read
as a row of flat tokens with as many literal slashes as the text has. -/
theorem flat_of_ungrouped {text : Text} {ts : Tokens} (hstars : ¬['*', '*'] <:+: text)
    (hgroups : Ungrouped text) (hclass : ClassesSpareSlash text) (hts : parse text = .ok ts) :
    (∀ t ∈ ts, t.IsFlat) ∧ ts.countP Token.isSlash = text.count '/' := by
  obtain ⟨r, hr, hfinish⟩ := exists_of_bind_eq_ok hts
  obtain ⟨q, hq, -, hbranch⟩ := Reader.finish_spec hfinish
  have hholds := (Reader.flat_of_foldlM hstars hgroups hclass hr).settle hq
  rcases hbranch with rfl | ⟨hlone, -⟩
  · refine ⟨fun t ht => hholds.flat t (List.mem_reverse.mp ht), ?_⟩
    rw [List.countP_reverse]
    exact hholds.count_eq
  · -- a lone `**` would be two stars
    exact (hholds.flat .leading (hlone ▸ List.mem_cons_self ..)).elim

/-- A text without `{` opens no group. -/
theorem flat_of_parse {text : Text} {ts : Tokens} (hstars : ¬['*', '*'] <:+: text)
    (hgroups : '{' ∉ text) (hclass : ClassesSpareSlash text) (hts : parse text = .ok ts) :
    (∀ t ∈ ts, t.IsFlat) ∧ ts.countP Token.isSlash = text.count '/' :=
  flat_of_ungrouped hstars (ungrouped_of_not_mem hgroups) hclass hts

end LineLimit.Glob
