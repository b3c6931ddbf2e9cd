import LineLimit.Proofs.Glob.Components

/-!
# What is read before a slash stays

Once a slash outside groups has been read, no character after it takes back what
was read before it. The slash itself may go: a `**` after it takes its place, and
another `**` may take the place of that one. But all that can come to stand there
is a token that starts with a slash in its turn.

> `Rooted.finish`: the glob is what was read before the slash, a token that stands
> only for text that starts with one, and whatever was read after it.
-/

namespace LineLimit.Glob

/-- A token that stands only for text that starts with a slash. -/
def Token.opensWithSlash : Token → Bool
  | .literal c => c = '/'
  | .between | .trailing => true
  | _ => false

/-- What a token that opens with a slash stands for does so too. -/
theorem Token.head?_of_opensWithSlash {ignoreCase : Bool} {t : Token}
    (ht : t.opensWithSlash = true) {s : Bytes} (hs : s ∈ t.language ignoreCase) :
    s.head? = some slash := by
  cases t with
  | literal c =>
    obtain rfl : c = '/' := of_decide_eq_true ht
    rw [language_slash] at hs
    obtain ⟨b, rfl, hb⟩ := hs
    rw [beq_iff_eq.mp hb]
    rfl
  | between =>
    rcases hs with rfl | ⟨m, rfl⟩
    · rfl
    · rfl
  | trailing => exact hs
  | _ => exact absurd ht (by simp [opensWithSlash])

namespace Reader

/-- Outside groups, a token that opens with a slash comes right after `base`. -/
def Rooted (base : Tokens) (r : Reader) : Prop :=
  ∃ more t, r.outer = more ++ t :: base ∧ t.opensWithSlash = true

variable {base : Tokens} {r r' : Reader} {c : Char}

/-- What comes after the token that opens with a slash leaves it where it is. -/
theorem Rooted.grow (h : r.Rooted base)
    (hr : r'.outer = r.outer ∨ ∃ t, r'.outer = t :: r.outer) : r'.Rooted base := by
  obtain ⟨more, t, houter, ht⟩ := h
  rcases hr with hr | ⟨u, hr⟩
  · exact ⟨more, t, hr.trans houter, ht⟩
  · exact ⟨u :: more, t, by rw [hr, houter, List.cons_append], ht⟩

theorem Rooted.push (h : r.Rooted base) (t : Token) : (r.push t).Rooted base := by
  refine h.grow ?_
  obtain ⟨branch, groups, last, mode⟩ := r
  cases groups with
  | nil => exact .inr ⟨t, rfl⟩
  | cons g gs => exact .inl rfl

/-- A character of its own adds at most one token outside groups. -/
theorem Rooted.plain (h : r.Rooted base) (hr : r.plain c = .ok r') : r'.Rooted base :=
  h.grow ((outer_of_plain hr).imp_right fun ⟨t, houter, _⟩ => ⟨t, houter⟩)

/-- Where a `**` takes the place of the token after `base`, it opens with a slash as well. -/
theorem Rooted.spanning {t : Token} (h : r.Rooted base) (ht : t.opensWithSlash = true) :
    (r.spanning t).Rooted base := by
  obtain ⟨branch, groups, last, mode⟩ := r
  cases groups with
  | cons g gs =>
    -- in a group, only tokens of the group are replaced
    refine h.grow (.inl ?_)
    unfold Reader.spanning
    split <;> rfl
  | nil =>
    obtain ⟨more, u, houter, hu⟩ := h
    obtain rfl : branch = more ++ u :: base := houter
    have hreplaced : ∃ more' u', more' ++ u' :: base = t :: (more ++ u :: base).tail ∧
        u'.opensWithSlash = true := by
      cases more with
      | nil => exact ⟨[], t, rfl, ht⟩
      | cons v more => exact ⟨t :: more, u, rfl, hu⟩
    unfold Reader.spanning
    split
    · next hnil => exact absurd hnil (by simp)
    · exact ⟨more, u, rfl, hu⟩
    · exact ⟨more, u, rfl, hu⟩
    · next v rest _ _ hbranch =>
      obtain ⟨more', u', hmore, hu'⟩ := hreplaced
      refine ⟨more', u', ?_, hu'⟩
      rw [hmore]
      show t :: rest = _
      rw [show more ++ u :: base = v :: rest from hbranch]
      rfl

theorem Rooted.twoStars (h : r.Rooted base) : r.twoStars.Rooted base :=
  (h.push .star).push .star

/-- Two stars after the token that opens with a slash never take its place with anything else. -/
theorem Rooted.afterStars {before : Option Char} (h : r.Rooted base)
    (hr : r.afterStars before c = .ok r') : r'.Rooted base := by
  unfold Reader.afterStars at hr
  split at hr
  · obtain rfl := Except.ok.inj hr
    exact h.spanning (t := .between) rfl
  · split at hr
    · exact (h.spanning (t := .trailing) rfl).plain hr
    · exact h.twoStars.plain hr

/-- A class adds at most one token outside groups. -/
theorem Rooted.classChar {k : OpenClass} (h : r.Rooted base) (hr : r.classChar k c = .ok r') :
    r'.Rooted base := by
  rcases classChar_cases hr with ⟨-, -, rfl⟩ | ⟨-, k', -, rfl⟩
  · exact h.push (.oneOf k.negated _)
  · exact h

/-- No character takes back what was read before the slash. -/
theorem Rooted.step (h : r.Rooted base) (hr : r.step c = .ok r') : r'.Rooted base := by
  cases steps_of_step hr with
  | plain hmode hr => exact h.plain hr
  | escaped hmode hr => exact hr ▸ h.push (.literal c)
  | secondStar hmode hc hr => exact hr ▸ h
  | oneStar hmode hc hr => exact (h.push .star).plain hr
  | afterStars hmode hr => exact h.afterStars hr
  | negates hmode hc hr => exact hr ▸ h
  | classChar hmode hr => exact h.classChar hr

/-- No text does. -/
theorem Rooted.foldlM {text : Text} (h : r.Rooted base)
    (hr : text.foldlM Reader.step r = .ok r') : r'.Rooted base :=
  foldlM_keeps (I := fun _ => Rooted base) [] h
    (fun _ _ _ _ _ hrooted hstep => hrooted.step hstep) hr

/-- The end of a glob leaves the token in its place as well. -/
theorem Rooted.settle (h : r.Rooted base) (hr : r.settle = .ok r') : r'.Rooted base := by
  cases settles_of_settle hr with
  | plain hmode hr => exact hr ▸ h
  | oneStar hmode hr => exact hr ▸ h.push .star
  | stars hmode hr =>
    rw [hr]
    split
    · exact h.spanning (t := .trailing) rfl
    · exact h.twoStars

/-- The glob starts with what was read before the slash and a token that opens with one. -/
theorem Rooted.finish {ts : Tokens} (h : r.Rooted base) (hr : r.finish = .ok ts) :
    ∃ t more, ts = base.reverse ++ t :: more ∧ t.opensWithSlash = true := by
  obtain ⟨q, hq, hgroups, hbranch⟩ := finish_spec hr
  obtain ⟨more, t, houter, ht⟩ := h.settle hq
  have hq : q.branch = more ++ t :: base := by
    rw [← houter]
    unfold Reader.outer
    rw [hgroups]
    rfl
  rcases hbranch with rfl | ⟨hlone, -⟩
  · exact ⟨t, more.reverse, by rw [hq]; simp, ht⟩
  · -- a lone `**` does not open with a slash
    have hmem : t ∈ [Token.leading] := by
      rw [← hlone, hq]
      exact List.mem_append_right _ (List.mem_cons_self ..)
    rw [List.mem_singleton.mp hmem] at ht
    exact absurd ht (by decide)

end Reader
end LineLimit.Glob
