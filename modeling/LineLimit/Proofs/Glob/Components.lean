import LineLimit.Proofs.Glob.Inside
import LineLimit.Proofs.Glob.Reading
import LineLimit.Proofs.Glob.Steps
import LineLimit.Proofs.Outcomes

/-!
# What reading a component leaves behind

After the first characters of a component other than stars, and until the next
slash, the reader is `Begun`: no token that it holds is a slash, none of them
outside groups spans directories, and stars at the end can only be stars.

So a component that can be read alone adds its own tokens to a glob and
nothing else (`foldlM_part`), but for `**`, which spans directories.
-/

namespace LineLimit.Glob

/-- No class and no escape is under way, only stars at most. -/
def Mode.atToken : Mode → Bool
  | .plain | .star _ | .stars _ => true
  | _ => false

namespace Reader

/-- The tokens outside groups, if `branch` is what the innermost group or, where
none is open, the glob holds. -/
def outerOf (branch : Tokens) : List OpenGroup → Tokens
  | [] => branch
  | g :: gs => outerOf g.before gs

/-- The tokens outside groups, last first. -/
def outer (r : Reader) : Tokens := outerOf r.branch r.groups

/-- All tokens that the reader holds. -/
def tokens (r : Reader) : Tokens :=
  r.branch ++ r.groups.flatMap fun g => g.before ++ g.branches.flatten

/-- `q` holds of all tokens that the reader holds, those in groups included. -/
def Everywhere (q : Token → Bool) (r : Reader) : Prop := ∀ t ∈ r.tokens, t.everywhere q = true

/-- No token outside groups spans directories, and none at all is a slash. -/
structure Clean (r : Reader) : Prop where
  outer : ∀ t ∈ r.outer, t.spans = false
  noSlash : r.Everywhere (!·.isSlash)

variable {r r' : Reader}

section Everywhere

variable {q : Token → Bool}

/-- What holds everywhere in the reader holds there when such a token is pushed. -/
theorem Everywhere.push {t : Token} (h : r.Everywhere q) (ht : t.everywhere q = true) :
    (r.push t).Everywhere q := by
  intro u hu
  rcases List.mem_cons.mp (show u ∈ t :: r.tokens from hu) with rfl | hu
  · exact ht
  · exact h u hu

/-- A group is as good as its branches. -/
theorem everywhere_ofBranches (hgroup : ∀ branches, q (.group branches) = true)
    {branches : List Tokens} (h : ∀ ts ∈ branches, ∀ t ∈ ts, t.everywhere q = true) :
    (Token.ofBranches branches).everywhere q = true := by
  unfold Token.ofBranches
  rw [Token.everywhere, Bool.and_eq_true, everywhereInSome_eq_true]
  refine ⟨hgroup _, fun ts hts => everywhere_eq_true.mpr ?_⟩
  exact h ts (List.mem_filter.mp hts).1

/-- What holds everywhere and of the tokens that a character can add holds once it is read,
whatever groups it opens, parts or closes. -/
theorem Everywhere.plain {c : Char} (h : r.Everywhere q) (hany : q .anyByte = true)
    (hgroup : ∀ branches, q (.group branches) = true) (hliteral : q (.literal c) = true)
    (hr : r.plain c = .ok r') : r'.Everywhere q := by
  obtain ⟨branch, groups, last, mode⟩ := r
  cases reads_of_plain hr with
  | token ht =>
    rcases ht with ⟨-, rfl⟩ | ⟨-, -, rfl⟩
    · exact h.push hany
    · exact h.push hliteral
  | begins => exact h
  | opens =>
    intro u hu
    refine h u ?_
    simpa [Reader.tokens] using hu
  | @parts hc g gs hgroups =>
    obtain rfl : groups = g :: gs := hgroups
    intro u hu
    refine h u ?_
    simp only [Reader.tokens, List.nil_append, List.flatMap_cons, List.mem_append,
      List.flatten_cons, List.mem_reverse] at hu ⊢
    rcases hu with (hu | hu | hu) | hu
    · exact .inr (.inl (.inl hu))
    · exact .inl hu
    · exact .inr (.inl (.inr hu))
    · exact .inr (.inr hu)
  | @closes hc g gs hgroups =>
    obtain rfl : groups = g :: gs := hgroups
    -- the branches of the innermost group become one token of the one around it
    have hbranches : (Token.ofBranches (branch.reverse :: g.branches).reverse).everywhere q =
        true := by
      refine everywhere_ofBranches hgroup fun ts hts t ht => h t ?_
      simp only [Reader.tokens, List.flatMap_cons, List.mem_append]
      rcases List.mem_cons.mp (List.mem_reverse.mp hts) with rfl | hts
      · exact .inl (List.mem_reverse.mp ht)
      · exact .inr (.inl (.inr (List.mem_flatten_of_mem hts ht)))
    intro u hu
    rcases List.mem_cons.mp (show u ∈ _ :: (g.before ++ _) from hu) with rfl | hu
    · exact hbranches
    · refine h u ?_
      simp only [Reader.tokens, List.flatMap_cons, List.mem_append] at hu ⊢
      rcases hu with hu | hu
      · exact .inr (.inl (.inl hu))
      · exact .inr (.inr hu)

end Everywhere

/-- A token that is no slash and spans no directories leaves the reader clean. -/
theorem Clean.push {t : Token} (h : r.Clean) (hspans : t.spans = false)
    (hslash : t.everywhere (!·.isSlash) = true) : (r.push t).Clean := by
  refine ⟨?_, h.noSlash.push hslash⟩
  intro u hu
  obtain ⟨branch, groups, last, mode⟩ := r
  cases groups with
  | nil =>
    rcases List.mem_cons.mp (show u ∈ t :: branch from hu) with rfl | hu
    · exact hspans
    · exact h.outer u hu
  | cons g gs => exact h.outer u hu

/-- Of the tokens outside groups none is taken back, and what is added does not span
directories. -/
theorem outer_of_plain {c : Char} (hr : r.plain c = .ok r') :
    r'.outer = r.outer ∨ ∃ t, r'.outer = t :: r.outer ∧ t.spans = false := by
  obtain ⟨branch, groups, last, mode⟩ := r
  cases reads_of_plain hr with
  | @token t ht =>
    have hspans : t.spans = false := by rcases ht with ⟨-, rfl⟩ | ⟨-, -, rfl⟩ <;> rfl
    cases groups with
    | nil => exact .inr ⟨t, rfl, hspans⟩
    | cons g gs => exact .inl rfl
  | begins => exact .inl rfl
  | opens => exact .inl rfl
  | @parts hc g gs hgroups =>
    obtain rfl : groups = g :: gs := hgroups
    exact .inl rfl
  | @closes hc g gs hgroups =>
    obtain rfl : groups = g :: gs := hgroups
    cases gs with
    | nil => exact .inr ⟨_, rfl, rfl⟩
    | cons g' gs => exact .inl rfl

/-- A character that is no slash leaves the reader clean. -/
theorem Clean.plain {c : Char} (h : r.Clean) (hc : c ≠ '/') (hr : r.plain c = .ok r') :
    r'.Clean := by
  have hliteral : (!Token.isSlash (.literal c)) = true := by simp [Token.isSlash, hc]
  refine ⟨fun u hu => ?_, h.noSlash.plain rfl (fun _ => rfl) hliteral hr⟩
  rcases outer_of_plain hr with houter | ⟨t, houter, ht⟩
  · exact h.outer u (houter ▸ hu)
  · rcases List.mem_cons.mp (houter ▸ hu) with rfl | hu
    · exact ht
    · exact h.outer u hu

theorem Clean.twoStars (h : r.Clean) : r.twoStars.Clean := (h.push rfl rfl).push rfl rfl

/-- In a group, two stars that span directories are no token outside groups. -/
theorem Clean.spanning (h : r.Clean) (hgroups : r.groups ≠ []) : (r.spanning .trailing).Clean := by
  obtain ⟨branch, groups, last, mode⟩ := r
  obtain ⟨g, gs, rfl⟩ := List.exists_cons_of_ne_nil hgroups
  constructor
  · cases branch with
    | nil => exact h.outer
    | cons t branch => cases t <;> exact h.outer
  · intro u hu
    have hmem : u = .leading ∨ u = .trailing ∨
        u ∈ (⟨branch, g :: gs, last, mode⟩ : Reader).tokens := by
      cases branch with
      | nil => exact (List.mem_cons.mp hu).elim .inl fun hu => .inr (.inr hu)
      | cons t branch =>
        cases t <;> first
          | exact .inr (.inr hu)
          | exact (List.mem_cons.mp hu).elim (fun hu => .inr (.inl hu))
              fun hu => .inr (.inr (List.mem_cons_of_mem _ hu))
    rcases hmem with rfl | rfl | hmem
    · rfl
    · rfl
    · exact h.noSlash u hmem

/-- A component is under way: the reader is clean, has a token of the component
if it is between two tokens outside groups, and sees no slash behind it. -/
structure Begun (r : Reader) : Prop where
  clean : r.Clean
  branch_ne : r.groups = [] → r.mode.atToken = true → r.branch ≠ []
  last_ne : r.last ≠ some '/'
  before_ne : ∀ b, r.mode = .star b ∨ r.mode = .stars b → b ≠ some '/'

/-- The last character is the one just read, also where a group ends. -/
theorem last_of_plain {c : Char} (hr : r.plain c = .ok r') : r'.last = some c := by
  cases reads_of_plain hr <;> rfl

/-- A clean reader has a component under way after a character that is neither a slash nor a star
at the start. -/
theorem Clean.begun_of_plain {c : Char} (h : r.Clean) (hlast : r.last ≠ some '/') (hc : c ≠ '/')
    (hstar : c = '*' → r.groups = [] → r.branch ≠ []) (hr : r.plain c = .ok r') : r'.Begun := by
  have hclean := h.plain hc hr
  have hnext : r'.last ≠ some '/' := by
    rw [last_of_plain hr]
    exact fun heq => hc (Option.some.inj heq)
  cases reads_of_plain hr with
  | token => exact ⟨hclean, fun _ _ => List.cons_ne_nil _ _, hnext, by simp⟩
  | begins hmode =>
    rcases hmode with ⟨rfl, rfl⟩ | ⟨-, rfl⟩ | ⟨-, rfl⟩
    · refine ⟨hclean, fun hgroups _ => hstar rfl hgroups, hnext, fun b hb => ?_⟩
      -- the stars follow the character that was read last
      rcases hb with hb | hb
      · obtain rfl := Mode.star.inj hb
        exact hlast
      · exact absurd hb (by simp)
    · exact ⟨hclean, fun _ hmode => absurd hmode (by simp [Mode.atToken]), hnext, by simp⟩
    · exact ⟨hclean, fun _ hmode => absurd hmode (by simp [Mode.atToken]), hnext, by simp⟩
  | opens => exact ⟨hclean, fun hgroups => absurd hgroups (by simp), hnext, by simp⟩
  | parts => exact ⟨hclean, fun hgroups => absurd hgroups (by simp), hnext, by simp⟩
  | closes => exact ⟨hclean, fun _ _ => List.cons_ne_nil _ _, hnext, by simp⟩

/-- Two stars inside a component do not end it, whichever token they become. -/
theorem Begun.afterStars {before : Option Char} {c : Char} (h : r.Begun) (hc : c ≠ '/')
    (hr : r.afterStars before c = .ok r') : r'.Begun := by
  unfold Reader.afterStars at hr
  rw [if_neg (by simp [hc])] at hr
  split at hr
  · next hspan =>
    have hgroups : r.groups ≠ [] := by
      simp only [Bool.and_eq_true, Bool.not_eq_true', List.isEmpty_eq_false_iff] at hspan
      exact hspan.1.1.2
    obtain ⟨hkeep, hlast⟩ := spanning_keeps r .trailing
    refine (h.clean.spanning hgroups).begun_of_plain (hlast ▸ h.last_ne) hc ?_ hr
    intro _ hnone
    exact absurd (hkeep ▸ hnone) hgroups
  · exact h.clean.twoStars.begun_of_plain h.last_ne hc (fun _ _ => List.cons_ne_nil _ _) hr

/-- A class is inside its component, from its first character to the `]`. -/
theorem Begun.classChar {k : OpenClass} {c : Char} (h : r.Begun) (hc : c ≠ '/')
    (hr : r.classChar k c = .ok r') : r'.Begun := by
  have hnext : some c ≠ some '/' := fun heq => hc (Option.some.inj heq)
  rcases classChar_cases hr with ⟨-, -, rfl⟩ | ⟨-, k', -, rfl⟩
  · refine ⟨?_, fun _ _ => List.cons_ne_nil _ _, hnext, by simp [Reader.closeClass]⟩
    let ranges := (if k.inRange then ('-', '-') :: k.ranges else k.ranges).reverse
    have hpush := h.clean.push (t := .oneOf k.negated ranges) rfl rfl
    exact ⟨hpush.1, hpush.2⟩
  · exact ⟨⟨h.clean.1, h.clean.2⟩, fun _ hmode => absurd hmode (by simp [Mode.atToken]), hnext,
      by simp⟩

/-- A component that is under way stays under way until a slash. -/
theorem Begun.step {c : Char} (h : r.Begun) (hc : c ≠ '/') (hr : r.step c = .ok r') :
    r'.Begun := by
  have hnext : some c ≠ some '/' := fun heq => hc (Option.some.inj heq)
  cases steps_of_step hr with
  | plain hmode hr =>
    exact h.clean.begun_of_plain h.last_ne hc
      (fun _ hgroups => h.branch_ne hgroups (by rw [hmode]; rfl)) hr
  | escaped hmode hr =>
    subst hr
    refine ⟨?_, fun _ _ => List.cons_ne_nil _ _, hnext, by simp⟩
    have hpush := h.clean.push (t := .literal c) rfl (by simp [Token.everywhere, Token.isSlash, hc])
    exact ⟨hpush.1, hpush.2⟩
  | secondStar hmode hstar hr =>
    subst hr
    refine ⟨⟨h.clean.1, h.clean.2⟩, fun hgroups _ => h.branch_ne hgroups (by rw [hmode]; rfl),
      hnext, fun b hb => ?_⟩
    rcases hb with hb | hb
    · exact absurd hb (by simp)
    · obtain rfl := Mode.stars.inj hb
      exact h.before_ne _ (.inl hmode)
  | oneStar hmode hstar hr =>
    exact (h.clean.push rfl rfl).begun_of_plain h.last_ne hc (fun _ _ => List.cons_ne_nil _ _) hr
  | afterStars hmode hr => exact h.afterStars hc hr
  | negates hmode hsign hr =>
    subst hr
    exact ⟨⟨h.clean.1, h.clean.2⟩, fun _ hmode => absurd hmode (by simp [Mode.atToken]), hnext,
      by simp⟩
  | classChar hmode hr => exact h.classChar hc hr

/-! ## From the start of a component -/

/-- A reader between two components: what it has read last is the slash between
them, or nothing. -/
def between (base : Tokens) (prev : Option Char) : Reader := ⟨base, [], prev, .plain⟩

theorem clean_between : (between [] none).Clean :=
  ⟨fun _ h => absurd h List.not_mem_nil, fun _ h => absurd h List.not_mem_nil⟩

/-- Only a star asks what was read before it. -/
theorem plain_set {c : Char} (hc : c ≠ '*') (q : Reader) (l : Option Char) (m : Mode) :
    ({ q with last := l, mode := m } : Reader).plain c = q.plain c := by
  unfold Reader.plain
  split <;> first | rfl | exact absurd rfl hc

/-- Two readers after the same text of a component, `r` alone and `q` after
`base`. What the first stars stand for is left open in both; once the component
is under way, `q` is `r` with `base` before it. -/
inductive Follows (base : Tokens) (prev : Option Char) : Text → Reader → Reader → Prop
  | start : Follows base prev [] (between base prev) initial
  | star : Follows base prev ['*'] ⟨base, [], some '*', .star prev⟩ ⟨[], [], some '*', .star none⟩
  | stars :
    Follows base prev ['*', '*'] ⟨base, [], some '*', .stars prev⟩ ⟨[], [], some '*', .stars none⟩
  | begun {text : Text} {r : Reader} : r.Begun → Follows base prev text (r.within base) r

variable {base : Tokens} {prev : Option Char} {q : Reader} {text : Text}

/-- Where both readers go on as one reader `s` does, the component is under way. -/
theorem follows_of_plain {s : Reader} {c : Char} (hclean : s.Clean) (hlast : s.last ≠ some '/')
    (hc : c ≠ '/') (hstar : c = '*' → s.branch ≠ [])
    (hq : q.step c = (s.within base).plain c) (hr : r.step c = s.plain c) :
    (∃ e, q.step c = .error e ∧ r.step c = .error e) ∨
      ∃ q' r', q.step c = .ok q' ∧ r.step c = .ok r' ∧ Follows base prev text q' r' := by
  rw [hq, hr, within_plain]
  cases hs : s.plain c with
  | error e => exact .inl ⟨e, rfl, rfl⟩
  | ok s' =>
    have hbegun : s'.Begun := hclean.begun_of_plain hlast hc (fun heq _ => hstar heq) hs
    exact .inr ⟨s'.within base, s', rfl, rfl, .begun hbegun⟩

/-- Both readers read a character, or refuse it for the same reason. -/
theorem Follows.step {c : Char} (h : Follows base prev text q r) (hc : c ≠ '/') :
    (∃ e, q.step c = .error e ∧ r.step c = .error e) ∨
      ∃ q' r', q.step c = .ok q' ∧ r.step c = .ok r' ∧
        Follows base prev (text ++ [c]) q' r' := by
  -- what one or two stars turn into, if it is not directories
  have hone := clean_between.push (t := .star) rfl rfl
  have htwo := hone.push (t := .star) rfl rfl
  cases h with
  | start =>
    by_cases hstar : c = '*'
    · subst hstar
      exact .inr ⟨_, _, rfl, rfl, .star⟩
    · exact follows_of_plain clean_between (by simp [between]) hc (fun heq => absurd heq hstar)
        (plain_set hstar (between base none) prev .plain) rfl
  | star =>
    by_cases hstar : c = '*'
    · subst hstar
      exact .inr ⟨_, _, rfl, rfl, .stars⟩
    · refine follows_of_plain (s := ⟨[.star], [], some '*', .plain⟩) ⟨hone.1, hone.2⟩ (by simp) hc
        (fun heq => absurd heq hstar) ?_ ?_
      · exact if_neg hstar
      · exact if_neg hstar
  | stars =>
    have hafter : ∀ base prev, (⟨base, [], some '*', .stars prev⟩ : Reader).step c =
        (⟨.star :: .star :: base, [], some '*', .plain⟩ : Reader).plain c := by
      intro base prev
      show Reader.afterStars _ prev c = _
      unfold Reader.afterStars
      rw [if_neg (by simp [hc]), if_neg (by simp)]
      rfl
    exact follows_of_plain (s := ⟨[.star, .star], [], some '*', .plain⟩) ⟨htwo.1, htwo.2⟩ (by simp)
      hc (fun _ => List.cons_ne_nil _ _) (hafter base prev) (hafter [] none)
  | begun hbegun =>
    rw [step_within base r hc]
    cases hr : r.step c with
    | error e => exact .inl ⟨e, rfl, rfl⟩
    | ok r' => exact .inr ⟨r'.within base, r', rfl, rfl, .begun (hbegun.step hc hr)⟩

/-- Both readers read a text without slashes, or refuse it for the same reason. -/
theorem Follows.foldlM {rest : Text} (h : Follows base prev text q r) (hrest : '/' ∉ rest) :
    (∃ e, rest.foldlM Reader.step q = .error e ∧ rest.foldlM Reader.step r = .error e) ∨
      ∃ q' r', rest.foldlM Reader.step q = .ok q' ∧ rest.foldlM Reader.step r = .ok r' ∧
        Follows base prev (text ++ rest) q' r' := by
  induction rest generalizing text q r with
  | nil =>
    rw [List.append_nil]
    exact .inr ⟨q, r, rfl, rfl, h⟩
  | cons c rest ih =>
    have hc : c ≠ '/' := fun heq => hrest (heq ▸ List.mem_cons_self ..)
    rw [List.foldlM_cons, List.foldlM_cons]
    rcases h.step hc with ⟨e, hq, hr⟩ | ⟨q', r', hq, hr, hnext⟩
    · rw [hq, hr]
      exact .inl ⟨e, rfl, rfl⟩
    · rw [hq, hr, List.append_cons]
      exact ih hnext fun hmem => hrest (List.mem_cons_of_mem _ hmem)

/-- A component other than `*`, `**` and the empty one: in these, all that is
left to do when the slash comes depends on what was read before them. -/
def IsProper (part : Text) : Prop := part ≠ [] ∧ part ≠ ['*'] ∧ part ≠ ['*', '*']

/-- After a component that is proper, the one reader is the other with `base` before it. -/
theorem Follows.of_proper (h : Follows base prev text q r) (hproper : IsProper text) :
    r.Begun ∧ q = r.within base := by
  obtain ⟨hnil, hstar, hstars⟩ := hproper
  cases h with
  | start => exact absurd rfl hnil
  | star => exact absurd rfl hstar
  | stars => exact absurd rfl hstars
  | begun hbegun => exact ⟨hbegun, rfl⟩

/-- A proper component is read after anything as it is read alone. -/
theorem foldlM_part {part : Text} (hproper : IsProper part) (hslash : '/' ∉ part)
    (hr : part.foldlM Reader.step initial = .ok r) :
    r.Begun ∧ ∀ base prev, part.foldlM Reader.step (between base prev) = .ok (r.within base) := by
  have hread : ∀ base prev, r.Begun ∧
      part.foldlM Reader.step (between base prev) = .ok (r.within base) := by
    intro base prev
    rcases Follows.start.foldlM hslash with ⟨e, -, hr'⟩ | ⟨q, r', hq, hr', hfollows⟩
    · rw [hr] at hr'
      exact absurd hr' (by simp)
    · obtain rfl : r = r' := Except.ok.inj (hr.symm.trans hr')
      obtain ⟨hbegun, rfl⟩ := hfollows.of_proper hproper
      exact ⟨hbegun, hq⟩
  exact ⟨(hread [] none).1, fun base prev => (hread base prev).2⟩

/-! ## To the end of a component -/

/-- Two stars after a component is under way are just stars. -/
theorem Begun.maySpan_within {b : Option Char} (h : r.Begun) (hgroups : r.groups = [])
    (hmode : r.mode = .stars b) (base : Tokens) : (r.within base).maySpan b = false := by
  have hbranch := h.branch_ne hgroups (by rw [hmode]; rfl)
  have hbefore := h.before_ne b (.inr hmode)
  obtain ⟨branch, groups, last, mode⟩ := r
  obtain rfl : groups = [] := hgroups
  have hne : branch ≠ [] := hbranch
  simp [maySpan, within, OpenGroup.onto, hne, hbefore]

/-- The tokens of the component under way, if the next character ends it. -/
def settled (r : Reader) : Tokens :=
  match r.mode with
  | .star _ => .star :: r.branch
  | .stars _ => .star :: .star :: r.branch
  | _ => r.branch

/-- A text can end only between two tokens, and its end closes no group. -/
theorem settle_spec (hr : r.settle = .ok r') :
    r.mode.atToken = true ∧ r'.groups = r.groups := by
  cases settles_of_settle hr with
  | plain hmode hr => exact ⟨by rw [hmode]; rfl, by rw [hr]⟩
  | oneStar hmode hr => exact ⟨by rw [hmode]; rfl, by rw [hr]; rfl⟩
  | stars hmode hr =>
    refine ⟨by rw [hmode]; rfl, ?_⟩
    rw [hr]
    split
    · exact (spanning_keeps r .trailing).1
    · rfl

/-- A glob is what the reader holds at the end, with no group open, or a lone `**`. -/
theorem finish_spec {ts : Tokens} (hr : r.finish = .ok ts) :
    ∃ q, r.settle = .ok q ∧ q.groups = [] ∧
      (ts = q.branch.reverse ∨ q.branch = [.leading] ∧ ts = [.everything]) := by
  obtain ⟨q, hq, hts⟩ := exists_of_bind_eq_ok hr
  split at hts
  · next hgroups =>
    refine ⟨q, hq, List.isEmpty_iff.mp hgroups, ?_⟩
    split at hts
    · next hlone => exact Or.inr ⟨hlone, (Except.ok.inj hts).symm⟩
    · exact Or.inl (Except.ok.inj hts).symm
  · exact absurd hts (by simp)

/-- Where the branch under way is no lone `**`, it is the glob. -/
theorem finish_of_settle (hr : r.settle = .ok r') (hgroups : r'.groups = [])
    (hbranch : r'.branch ≠ [.leading]) : r.finish = .ok r'.branch.reverse := by
  have hempty : r'.groups.isEmpty = true := List.isEmpty_iff.mpr hgroups
  simp only [finish, hr, bind, Except.bind, hempty, if_true]

/-- At the end, the tokens of the component stand behind `base`. -/
theorem Begun.settle_within (h : r.Begun) (hgroups : r.groups = [])
    (hmode : r.mode.atToken = true) (base : Tokens) :
    (r.within base).settle = .ok { r with branch := r.settled ++ base } := by
  have hspan := fun b hb => h.maySpan_within (b := b) hgroups hb base
  obtain ⟨branch, groups, last, mode⟩ := r
  obtain rfl : groups = [] := hgroups
  cases mode with
  | plain => rfl
  | star b => rfl
  | stars b =>
    show Except.ok (if maySpan _ b then _ else _) = _
    rw [hspan b rfl]
    rfl
  | _ => exact absurd hmode (by simp [Mode.atToken])

/-- At a slash, the tokens of the component and the slash stand behind `base`. -/
theorem Begun.slash_within (h : r.Begun) (hgroups : r.groups = [])
    (hmode : r.mode.atToken = true) (base : Tokens) :
    (r.within base).step '/' =
      .ok (between (.literal '/' :: (r.settled ++ base)) (some '/')) := by
  have hspan := fun b hb => h.maySpan_within (b := b) hgroups hb base
  obtain ⟨branch, groups, last, mode⟩ := r
  obtain rfl : groups = [] := hgroups
  cases mode with
  | plain => rfl
  | star b => rfl
  | stars b =>
    show Reader.afterStars _ b '/' = _
    unfold Reader.afterStars
    rw [hspan b rfl]
    rfl
  | _ => exact absurd hmode (by simp [Mode.atToken])

/-- The tokens of a component are no slashes and span no directories. -/
theorem Begun.settled_spec (h : r.Begun) (hgroups : r.groups = []) {t : Token}
    (ht : t ∈ r.settled) : t.spans = false ∧ t.everywhere (!·.isSlash) = true := by
  have hbranch : ∀ u ∈ r.branch, u.spans = false ∧ u.everywhere (!·.isSlash) = true := by
    intro u hu
    constructor
    · refine h.clean.outer u ?_
      unfold Reader.outer
      rw [hgroups]
      exact hu
    · exact h.clean.noSlash u (List.mem_append_left _ hu)
  have hstar : t = .star ∨ t ∈ r.branch := by
    unfold settled at ht
    split at ht
    · exact List.mem_cons.mp ht
    · rcases List.mem_cons.mp ht with ht | ht
      · exact .inl ht
      · exact List.mem_cons.mp ht
    · exact .inr ht
  rcases hstar with rfl | ht
  · exact ⟨rfl, rfl⟩
  · exact hbranch t ht

/-- A component under way has a token. -/
theorem Begun.settled_ne_nil (h : r.Begun) (hgroups : r.groups = [])
    (hmode : r.mode.atToken = true) : r.settled ≠ [] := by
  unfold settled
  split
  · exact List.cons_ne_nil _ _
  · exact List.cons_ne_nil _ _
  · exact h.branch_ne hgroups hmode

/-- A component that can be read to its end by itself adds its own tokens to
what was read before it, both at a slash and at the end of the glob. -/
theorem Begun.finish {ts : Tokens} (h : r.Begun) (hr : r.finish = .ok ts) (base : Tokens) :
    (r.within base).finish = .ok (base.reverse ++ ts) ∧
      (r.within base).step '/' = .ok (between (.literal '/' :: (ts.reverse ++ base)) (some '/')) ∧
      ∀ t ∈ ts, t.spans = false ∧ t.everywhere (!·.isSlash) = true := by
  obtain ⟨q, hq, hempty, -⟩ := finish_spec hr
  obtain ⟨hmode, hkeep⟩ := settle_spec hq
  have hgroups : r.groups = [] := hkeep.symm.trans hempty
  -- the first token of the component is in the way of a lone `**`
  have hend : ∀ base, (r.within base).finish = .ok (base.reverse ++ r.settled.reverse) := by
    intro base
    obtain ⟨t, us, hsettled⟩ := List.exists_cons_of_ne_nil (h.settled_ne_nil hgroups hmode)
    have ht : t.spans = false :=
      (h.settled_spec hgroups (hsettled ▸ List.mem_cons_self ..)).1
    have hbranch : r.settled ++ base ≠ [.leading] := by
      intro hlone
      rw [hsettled, List.cons_append] at hlone
      rw [(List.cons.inj hlone).1] at ht
      exact absurd ht (by decide)
    rw [finish_of_settle (h.settle_within hgroups hmode base) hgroups hbranch,
      List.reverse_append]
  -- read alone, the component has nothing before it
  have hts : ts = r.settled.reverse := by
    have halone := hend []
    rw [within_nil, hr] at halone
    exact Except.ok.inj halone
  rw [hts, List.reverse_reverse]
  refine ⟨hend base, h.slash_within hgroups hmode base, fun t ht => ?_⟩
  exact h.settled_spec hgroups (List.mem_reverse.mp ht)

end Reader
end LineLimit.Glob
