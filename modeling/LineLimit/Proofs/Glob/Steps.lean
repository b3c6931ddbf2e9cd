import LineLimit.Pattern

/-!
# What one character does

What holds of the reader after every text is shown to be kept by each character. What a
character can do is said here once, going by what it is part of (`Steps`). Outside classes and
escapes it is a token, or begins what the next characters decide, or opens, parts or closes a
group (`Reads`); in a class it is one more character of the class, or ends it
(`classChar_cases`). The end of the text decides what the last stars are (`Settles`).
-/

namespace LineLimit.Glob.Reader

variable {r r' : Reader} {c : Char}

/-- What the reader becomes at a character outside classes and escapes. -/
inductive Reads (r : Reader) (c : Char) : Reader → Prop
  /-- The character is a token, as is a `,` outside groups. -/
  | token {t : Token}
    (ht : c = '?' ∧ t = .anyByte ∨
      c ∉ ['?', '*', '[', '{', '}', '\\'] ∧ (c = ',' → r.groups = []) ∧ t = .literal c) :
    Reads r c ⟨t :: r.branch, r.groups, some c, .plain⟩
  /-- The character begins stars, a class or an escape. -/
  | begins {mode : Mode}
    (hmode : c = '*' ∧ mode = .star r.last ∨ c = '[' ∧ mode = .classStart ∨
      c = '\\' ∧ mode = .escaped) :
    Reads r c ⟨r.branch, r.groups, some c, mode⟩
  /-- A group begins. -/
  | opens (hc : c = '{') : Reads r c ⟨[], ⟨r.branch, []⟩ :: r.groups, some c, .plain⟩
  /-- A branch of a group ends, and another begins. -/
  | parts (hc : c = ',') {g : OpenGroup} {gs : List OpenGroup} (hgroups : r.groups = g :: gs) :
    Reads r c ⟨[], { g with branches := r.branch.reverse :: g.branches } :: gs, some c, .plain⟩
  /-- A group ends, and is a token of the branch that it stands in. -/
  | closes (hc : c = '}') {g : OpenGroup} {gs : List OpenGroup} (hgroups : r.groups = g :: gs) :
    Reads r c ⟨Token.ofBranches (r.branch.reverse :: g.branches).reverse :: g.before, gs, some c,
      .plain⟩

/-- A character read outside classes and escapes does one of five things. -/
theorem reads_of_plain (hr : r.plain c = .ok r') : r.Reads c r' := by
  obtain ⟨branch, groups, last, mode⟩ := r
  unfold Reader.plain at hr
  split at hr
  · obtain rfl := Except.ok.inj hr
    exact .token (.inl ⟨rfl, rfl⟩)
  · obtain rfl := Except.ok.inj hr
    exact .begins (.inl ⟨rfl, rfl⟩)
  · obtain rfl := Except.ok.inj hr
    exact .begins (.inr (.inl ⟨rfl, rfl⟩))
  · obtain rfl := Except.ok.inj hr
    exact .opens rfl
  · cases groups with
    | nil => exact nomatch hr
    | cons g gs =>
      obtain rfl := Except.ok.inj hr
      exact .closes rfl rfl
  · obtain rfl := Except.ok.inj hr
    cases groups with
    | nil => exact .token (.inr ⟨by decide, fun _ => rfl, rfl⟩)
    | cons g gs => exact .parts rfl rfl
  · obtain rfl := Except.ok.inj hr
    exact .begins (.inr (.inr ⟨rfl, rfl⟩))
  · next hcomma _ =>
    obtain rfl := Except.ok.inj hr
    exact .token (.inr ⟨by simp_all, fun hc => absurd hc hcomma, rfl⟩)

/-- Outside classes and escapes only a star asks what comes next. -/
theorem mode_of_plain (hr : r.plain c = .ok r') :
    (∀ b, r'.mode = .star b → c = '*') ∧ (∀ b, r'.mode ≠ .stars b) ∧
      ∀ k, r'.mode ≠ .inClass k := by
  cases reads_of_plain hr with
  | begins hmode => rcases hmode with ⟨rfl, rfl⟩ | ⟨-, rfl⟩ | ⟨-, rfl⟩ <;> simp
  | _ => simp

/-- A character of a class ends it, or is one of those that it stands for. -/
theorem classChar_cases {k : OpenClass} (hr : r.classChar k c = .ok r') :
    (c = ']' ∧ k.empty = false ∧ r' = ({ r with last := some c } : Reader).closeClass k) ∨
      (¬(c = ']' ∧ k.empty = false) ∧ ∃ k', k.read c = .ok k' ∧
        r' = { r with last := some c, mode := .inClass { k' with empty := false } }) := by
  unfold Reader.classChar at hr
  split at hr
  · next hend =>
    rw [Bool.and_eq_true, decide_eq_true_eq, Bool.not_eq_true'] at hend
    exact .inl ⟨hend.1, hend.2, (Except.ok.inj hr).symm⟩
  · next hend =>
    rw [Bool.and_eq_true, decide_eq_true_eq, Bool.not_eq_true'] at hend
    cases hk : k.read c with
    | error e => exact absurd hr (by simp [hk, Except.map])
    | ok k' =>
      rw [hk] at hr
      exact .inr ⟨hend, k', rfl, (Except.ok.inj hr).symm⟩

/-- What the reader becomes at a character, going by what the character is part of. -/
inductive Steps (r : Reader) (c : Char) (r' : Reader) : Prop
  | plain (hmode : r.mode = .plain) (hr : r.plain c = .ok r')
  | escaped (hmode : r.mode = .escaped)
    (hr : r' = { r.push (.literal c) with last := some c, mode := .plain })
  | secondStar {before : Option Char} (hmode : r.mode = .star before) (hc : c = '*')
    (hr : r' = { r with last := some c, mode := .stars before })
  | oneStar {before : Option Char} (hmode : r.mode = .star before) (hc : c ≠ '*')
    (hr : r.oneStar.plain c = .ok r')
  | afterStars {before : Option Char} (hmode : r.mode = .stars before)
    (hr : r.afterStars before c = .ok r')
  | negates (hmode : r.mode = .classStart) (hc : c = '!' ∨ c = '^')
    (hr : r' = { r with last := some c, mode := .inClass ⟨true, true, false, []⟩ })
  | classChar {k : OpenClass}
    (hmode : r.mode = .classStart ∧ (c ≠ '!' ∧ c ≠ '^') ∧ k = ⟨false, true, false, []⟩ ∨
      r.mode = .inClass k)
    (hr : r.classChar k c = .ok r')

/-- A step is one of seven, one for each mode and what it finds there. -/
theorem steps_of_step (hr : r.step c = .ok r') : r.Steps c r' := by
  unfold Reader.step at hr
  split at hr
  · next hmode => exact .plain hmode hr
  · next hmode => exact .escaped hmode (Except.ok.inj hr).symm
  · next before hmode =>
    split at hr
    · next hc => exact .secondStar hmode hc (Except.ok.inj hr).symm
    · next hc => exact .oneStar hmode hc hr
  · next before hmode => exact .afterStars hmode hr
  · next hmode =>
    split at hr
    · next hc =>
      rw [Bool.or_eq_true, decide_eq_true_eq, decide_eq_true_eq] at hc
      exact .negates hmode hc (Except.ok.inj hr).symm
    · next hc =>
      rw [Bool.or_eq_true, decide_eq_true_eq, decide_eq_true_eq, not_or] at hc
      exact .classChar (.inl ⟨hmode, hc, rfl⟩) hr
  · next k hmode => exact .classChar (.inr hmode) hr

/-- What the reader becomes at the end of the text. -/
inductive Settles (r r' : Reader) : Prop
  | plain (hmode : r.mode = .plain) (hr : r' = r)
  | oneStar {before : Option Char} (hmode : r.mode = .star before) (hr : r' = r.oneStar)
  | stars {before : Option Char} (hmode : r.mode = .stars before)
    (hr : r' = if r.maySpan before then r.spanning .trailing else r.twoStars)

/-- The end of a text settles one star, two stars, or nothing. -/
theorem settles_of_settle (hr : r.settle = .ok r') : r.Settles r' := by
  unfold settle at hr
  split at hr
  · next hmode => exact .plain hmode (Except.ok.inj hr).symm
  · exact nomatch hr
  · next before hmode => exact .oneStar hmode (Except.ok.inj hr).symm
  · next before hmode => exact .stars hmode (Except.ok.inj hr).symm
  · exact nomatch hr
  · exact nomatch hr

/-- Two stars change nothing but tokens. -/
theorem spanning_keeps (r : Reader) (t : Token) :
    (r.spanning t).groups = r.groups ∧ (r.spanning t).last = r.last := by
  unfold spanning
  split <;> exact ⟨rfl, rfl⟩

end LineLimit.Glob.Reader
