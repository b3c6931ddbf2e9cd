import LineLimit.Proofs.Glob.Flat

/-!
# A slash in a class

A slash that is written in a class parts the text of a glob like any other, but it is no slash
of the glob. Before it and after it stand other characters of the class or its brackets, so it
is in a run of its own, which no crossing goes back to:

> `crossings_lt_of_parse`: a glob with a slash in a class crosses less often than its text has
> runs of slashes.
-/

namespace LineLimit.Glob

/-- The next character is part of a class where the text says so. -/
theorem Mode.inBrackets_iff {m : Mode} :
    m.inBrackets = true ↔ m.place ≠ .plain ∧ m.place ≠ .escaped := by
  cases m with
  | inClass k => cases hk : k.empty <;> simp [inBrackets, place, hk]
  | _ => simp [inBrackets, place]

namespace Reader

variable {r r' : Reader} {text : Text}

/-- A slash that is part of a class is one more character of it. -/
theorem step_slash_of_inBrackets (h : r.mode.inBrackets = true) (hr : r.step '/' = .ok r') :
    ∃ k, r' = { r with last := some '/', mode := .inClass k } := by
  cases steps_of_step hr with
  | classChar hmode hr =>
    rcases classChar_cases hr with ⟨hc, -, -⟩ | ⟨-, k', -, hr⟩
    · exact absurd hc (by decide)
    · exact ⟨_, hr⟩
  | negates hmode hc hr => exact ⟨_, hr⟩
  | _ hmode =>
    rw [hmode] at h
    exact nomatch h

/-- After a slash, only a class goes on that was under way before it. -/
theorem inBrackets_of_step_slash (h : r'.mode.inBrackets = true) (hr : r.step '/' = .ok r') :
    r.mode.inBrackets = true := by
  have hplace : r'.mode.place = (Nesting.next r.nesting '/').place :=
    congrArg Nesting.place (nesting_step hr)
  rw [Mode.inBrackets_iff] at h ⊢
  rw [hplace] at h
  have hkeep : ∀ n : Nesting, n.place = .plain ∨ n.place = .escaped →
      (n.next '/').place = .plain := by
    rintro ⟨groups, place⟩ (rfl | rfl)
    · rfl
    · rfl
  constructor
  · exact fun hplain => h.1 (hkeep r.nesting (.inl hplain))
  · exact fun hescaped => h.1 (hkeep r.nesting (.inr hescaped))

/-- Where a slash is part of a class, there is one that no other slash stands before. -/
theorem exists_slash_in_class (h : ¬ClassesSpareSlash text) :
    ∃ before after r, text = before ++ '/' :: after ∧
      before.foldlM Reader.step initial = .ok r ∧ r.mode.inBrackets = true ∧
        before.getLast? ≠ some '/' := by
  unfold ClassesSpareSlash at h
  push Not at h
  obtain ⟨before, after, r, htext, hr, hclass⟩ := h
  rw [ne_eq, Bool.not_eq_false] at hclass
  -- any slashes right before it are part of the class as well
  induction before using List.reverseRecOn generalizing after r with
  | nil => exact ⟨[], after, r, htext, hr, hclass, by simp⟩
  | append_singleton before c ih =>
    by_cases hc : c = '/'
    · subst hc
      rw [List.foldlM_append] at hr
      obtain ⟨q, hq, hlast⟩ := exists_of_bind_eq_ok hr
      obtain ⟨q', hstep, hend⟩ := exists_of_bind_eq_ok hlast
      obtain rfl := Except.ok.inj hend
      exact ih ('/' :: after) q (by simp [htext]) hq (inBrackets_of_step_slash hclass hstep)
    · exact ⟨before ++ [c], after, r, htext, hr, hclass, by simp [hc]⟩

end Reader

/-- A glob with a slash in a class crosses less often than its text has runs of slashes. -/
theorem crossings_lt_of_parse {text : Text} {ts : Tokens} (hstars : ¬['*', '*'] <:+: text)
    (hclass : ¬ClassesSpareSlash text) (hts : parse text = .ok ts) :
    crossings ts < runs (· == '/') text := by
  obtain ⟨before, after, r, rfl, hr, hbrackets, hlast⟩ := Reader.exists_slash_in_class hclass
  obtain ⟨q, hq, hfinish⟩ := exists_of_bind_eq_ok hts
  rw [List.foldlM_append, hr] at hq
  change List.foldlM Reader.step r ('/' :: after) = _ at hq
  rw [List.foldlM_cons] at hq
  obtain ⟨r', hslash, hrest⟩ := exists_of_bind_eq_ok hq
  obtain ⟨k, rfl⟩ := Reader.step_slash_of_inBrackets hbrackets hslash
  have hprefix : ¬['*', '*'] <:+: before := fun hstarred =>
    hstars (hstarred.trans (List.prefix_append before _).isInfix)
  have hbefore : r.Counted 0 before := Reader.counted_initial.foldlM hprefix hr
  rw [List.append_cons] at hstars ⊢
  have hcounted := (hbefore.inClass_slash hlast k).foldlM hstars hrest
  exact (hcounted.finish hfinish).2.1

end LineLimit.Glob
