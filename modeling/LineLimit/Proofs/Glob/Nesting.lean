import LineLimit.Glob.Nesting
import LineLimit.Proofs.Glob.Unnested

/-!
# The reader keeps track of nesting

What the reader holds says as much about groups, classes and escapes as the text that it has
read: the number of its open groups and its mode are the `Nesting` after that text
(`nesting_of_foldlM`). It can stop where nothing is open, and only there.

So a text without a slash that stands between two slashes is a glob of its own if and only if
nothing is open at its end (`exists_parse_iff_after`). And a glob falls apart at its slashes:

> `parse_parts_iff`: all stretches of a glob between its slashes are globs if and only if none of
> the slashes lies in a class or in a group or is escaped.
-/

namespace LineLimit.Glob

/-- What a reader in this mode takes the next character for. -/
def Mode.place : Mode → Place
  | .plain | .star _ | .stars _ => .plain
  | .escaped => .escaped
  | .classStart => .classStart
  | .inClass k => if k.empty then .classSign else .inClass

namespace Reader

/-- Where a reader stands in the text. -/
def nesting (r : Reader) : Nesting := ⟨r.groups.length, r.mode.place⟩

variable {r r' : Reader} {c : Char} {text : Text}

/-- Nothing is open where the reader is on the outermost level. -/
theorem level_iff : r.Level ↔ r.nesting = .top := by
  obtain ⟨branch, groups, last, mode⟩ := r
  have hgroups : groups = [] ↔ groups.length = 0 := List.length_eq_zero_iff.symm
  have hmode : mode.atToken = true ↔ mode.place = .plain := by
    cases mode with
    | inClass k => cases hk : k.empty <;> simp [Mode.atToken, Mode.place, hk]
    | _ => simp [Mode.atToken, Mode.place]
  rw [show nesting ⟨branch, groups, last, mode⟩ = ⟨groups.length, mode.place⟩ from rfl,
    Nesting.top, Nesting.mk.injEq, ← hgroups, ← hmode]
  exact ⟨fun h => ⟨h.groups, h.atToken⟩, fun h => ⟨h.1, h.2⟩⟩

/-- Outside classes and escapes, braces, brackets and backslashes are what the scanner takes them
for. -/
theorem nesting_plain (hr : r.plain c = .ok r') :
    r'.nesting = Nesting.next ⟨r.groups.length, .plain⟩ c := by
  obtain ⟨branch, groups, last, mode⟩ := r
  cases reads_of_plain hr with
  | token ht =>
    rcases ht with ⟨rfl, -⟩ | ⟨hc, -, -⟩
    · rfl
    · simp only [List.mem_cons, List.not_mem_nil, or_false, not_or] at hc
      obtain ⟨-, -, hopen, hbrace, hclose, hescape⟩ := hc
      simp only [Nesting.next, if_neg hescape, if_neg hopen, if_neg hbrace, if_neg hclose]
      rfl
  | begins hmode => rcases hmode with ⟨rfl, rfl⟩ | ⟨rfl, rfl⟩ | ⟨rfl, rfl⟩ <;> rfl
  | opens hc =>
    subst hc
    rfl
  | @parts hc g gs hgroups =>
    obtain rfl : groups = g :: gs := hgroups
    subst hc
    rfl
  | @closes hc g gs hgroups =>
    obtain rfl : groups = g :: gs := hgroups
    subst hc
    rfl

/-- A class ends at its first `]` that does not come first in it. -/
theorem nesting_classChar {k : OpenClass} (hr : r.classChar k c = .ok r') :
    r'.nesting = ⟨r.groups.length, if c = ']' ∧ k.empty = false then .plain else .inClass⟩ := by
  rcases classChar_cases hr with ⟨hc, hempty, rfl⟩ | ⟨hend, k', -, rfl⟩
  · rw [if_pos ⟨hc, hempty⟩]
    rfl
  · rw [if_neg hend]
    rfl

/-- Two stars leave the nesting alone, so the character after them decides. -/
theorem nesting_afterStars {before : Option Char} (hr : r.afterStars before c = .ok r') :
    r'.nesting = Nesting.next ⟨r.groups.length, .plain⟩ c := by
  have hkeep (t : Token) : (r.spanning t).groups = r.groups := (r.spanning_keeps t).1
  unfold Reader.afterStars at hr
  split at hr
  · next hspan =>
    obtain rfl : c = '/' := of_decide_eq_true ((Bool.and_eq_true _ _).mp hspan).1
    obtain rfl := Except.ok.inj hr
    exact congrArg (fun groups => Nesting.mk groups.length .plain) (hkeep _)
  · split at hr
    · rw [nesting_plain hr, hkeep]
    · exact nesting_plain (r := r.twoStars) hr

/-- The reader goes on to where the next character leads. -/
theorem nesting_step (hr : r.step c = .ok r') : r'.nesting = r.nesting.next c := by
  have hnesting : r.nesting = ⟨r.groups.length, r.mode.place⟩ := rfl
  rw [hnesting]
  cases steps_of_step hr with
  | plain hmode hr =>
    rw [hmode]
    exact nesting_plain hr
  | escaped hmode hr =>
    subst hr
    rw [hmode]
    rfl
  | secondStar hmode hc hr =>
    subst hr hc
    rw [hmode]
    rfl
  | oneStar hmode hc hr =>
    rw [hmode]
    exact nesting_plain (r := r.oneStar) hr
  | afterStars hmode hr =>
    rw [hmode]
    exact nesting_afterStars hr
  | negates hmode hc hr =>
    subst hr
    simp [hmode, nesting, Mode.place, Nesting.next, hc]
  | @classChar k hmode hr =>
    rw [nesting_classChar hr]
    rcases hmode with ⟨hmode, hsign, rfl⟩ | hmode
    · simp [hmode, Mode.place, Nesting.next, not_or.mpr hsign]
    · cases hk : k.empty <;> simp [hmode, Mode.place, Nesting.next, hk]

/-- The nesting of the reader is that after the text that it has read. -/
theorem nesting_of_foldlM (hr : text.foldlM step r = .ok r') :
    r'.nesting = text.foldl Nesting.next r.nesting := by
  induction text generalizing r with
  | nil =>
    obtain rfl := Except.ok.inj hr
    rfl
  | cons c text ih =>
    rw [List.foldlM_cons] at hr
    obtain ⟨q, hq, hrest⟩ := exists_of_bind_eq_ok hr
    rw [ih hrest, nesting_step hq]
    rfl

/-- A text is a glob if it is read and nothing is open at its end. -/
theorem exists_parse_iff_level :
    (∃ ts, parse text = .ok ts) ↔ ∃ r, text.foldlM step initial = .ok r ∧ r.Level := by
  constructor
  · rintro ⟨ts, hts⟩
    obtain ⟨r, hr, hfinish⟩ := exists_of_bind_eq_ok hts
    obtain ⟨q, hq, hempty, -⟩ := finish_spec hfinish
    obtain ⟨hmode, hkeep⟩ := settle_spec hq
    exact ⟨r, hr, hkeep.symm.trans hempty, hmode⟩
  · rintro ⟨r, hr, hlevel⟩
    obtain ⟨ts, hts⟩ := hlevel.finish
    exact ⟨ts, by rw [parse, hr]; exact hts⟩

/-! ## Between two slashes -/

/-- A slash on the outermost level leaves the reader between two components. -/
theorem Level.step_slash (h : r.Level) : ∃ base, r.step '/' = .ok (between base (some '/')) := by
  obtain ⟨branch, groups, last, mode⟩ := r
  obtain rfl : groups = [] := h.groups
  cases mode with
  | plain => exact ⟨_, rfl⟩
  | star before => exact ⟨_, rfl⟩
  | stars before =>
    show ∃ base, Reader.afterStars _ before '/' = _
    unfold Reader.afterStars
    split
    · refine ⟨((⟨branch, [], last, .stars before⟩ : Reader).spanning .between).branch, ?_⟩
      unfold spanning
      split <;> rfl
    · exact ⟨_, rfl⟩
  | _ => exact absurd h.atToken (by simp [Mode.atToken])

/-- A component that is read after others is a glob of its own if and only if nothing is open at
its end. -/
theorem exists_parse_iff_after {part : Text} {base : Tokens} {prev : Option Char}
    (hslash : '/' ∉ part) (hr : part.foldlM step (between base prev) = .ok r) :
    (∃ ts, parse part = .ok ts) ↔ Nesting.after part = .top := by
  rw [exists_parse_iff_level]
  rcases Follows.start.foldlM hslash with ⟨e, hq, -⟩ | ⟨q, q', -, hq', -⟩
  · exact nomatch hr.symm.trans hq
  · rw [hq', Nesting.after, show Nesting.top = initial.nesting from rfl, ← nesting_of_foldlM hq',
      show initial.nesting = Nesting.top from rfl, ← level_iff]
    exact ⟨fun ⟨s, hs, hlevel⟩ => Except.ok.inj hs ▸ hlevel, fun hlevel => ⟨q', rfl, hlevel⟩⟩

end Reader

/-! ## The slashes of a text -/

/-- A first slash is on top if nothing is open before it, and the others are if they are in the
text after it. -/
theorem slashesOnTop_cons {part rest : Text} (hslash : '/' ∉ part) :
    SlashesOnTop (part ++ '/' :: rest) ↔ Nesting.after part = .top ∧ SlashesOnTop rest := by
  have hafter (htop : Nesting.after part = .top) (before : Text) :
      Nesting.after (part ++ '/' :: before) = Nesting.after before := by
    unfold Nesting.after at htop ⊢
    rw [List.foldl_append, List.foldl_cons, htop]
    rfl
  constructor
  · intro h
    have htop := h part rest rfl
    refine ⟨htop, fun before after hrest => ?_⟩
    rw [← hafter htop]
    exact h _ after (by rw [hrest, List.append_assoc, List.cons_append])
  · rintro ⟨htop, hrest⟩ before after htext
    rcases List.append_eq_append_iff.mp htext with ⟨more, rfl, hsplit⟩ | ⟨more, rfl, hsplit⟩
    · cases more with
      | nil =>
        rw [List.append_nil]
        exact htop
      | cons c more =>
        obtain ⟨rfl, hmore⟩ := List.cons.inj hsplit
        rw [hafter htop]
        exact hrest more after hmore
    · cases more with
      | nil =>
        rw [List.append_nil] at htop
        exact htop
      | cons c more =>
        obtain ⟨rfl, -⟩ := List.cons.inj hsplit
        exact absurd (List.mem_append_right _ (List.mem_cons_self ..)) hslash

open Reader (between)

/-- The stretches of a text between its slashes are globs if and only if no slash lies in a class
or in a group or is escaped. -/
theorem parse_parts_iff {parts : List Text} (hne : parts ≠ [])
    (hslash : ∀ part ∈ parts, '/' ∉ part) {base : Tokens} {prev : Option Char} {r : Reader}
    (hr : (['/'].intercalate parts).foldlM Reader.step (between base prev) = .ok r)
    (hlevel : r.Level) :
    (∀ part ∈ parts, ∃ ts, parse part = .ok ts) ↔ SlashesOnTop (['/'].intercalate parts) := by
  induction parts generalizing base prev with
  | nil => exact absurd rfl hne
  | cons part parts ih =>
    have hpart := hslash part (List.mem_cons_self ..)
    have hafter {q : Reader} {base prev}
        (hq : part.foldlM Reader.step (between base prev) = .ok q) :
        Nesting.after part = .top ↔ q.Level := by
      rw [Reader.level_iff, Reader.nesting_of_foldlM hq]
      rfl
    cases parts with
    | nil =>
      rw [List.intercalate_singleton] at hr ⊢
      constructor
      · intro _ before after htext
        exact absurd (htext ▸ List.mem_append_right _ (List.mem_cons_self ..)) hpart
      · intro _ q hq
        obtain rfl := List.mem_singleton.mp hq
        exact (Reader.exists_parse_iff_after hpart hr).mpr ((hafter hr).mpr hlevel)
    | cons next parts =>
      rw [List.intercalate_cons_cons, List.append_assoc, List.singleton_append] at hr ⊢
      rw [List.foldlM_append] at hr
      obtain ⟨q, hq, hrest⟩ := exists_of_bind_eq_ok hr
      rw [slashesOnTop_cons hpart, List.forall_mem_cons,
        Reader.exists_parse_iff_after hpart hq]
      refine and_congr_right fun htop => ?_
      -- the slash is read on the outermost level, so that the next component starts afresh
      obtain ⟨base', hstep⟩ := ((hafter hq).mp htop).step_slash
      rw [List.foldlM_cons, hstep] at hrest
      exact ih (List.cons_ne_nil _ _) (fun p hp => hslash p (List.mem_cons_of_mem _ hp)) hrest

end LineLimit.Glob
