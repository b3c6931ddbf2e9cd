import LineLimit.Proofs.Glob.Components

/-!
# Globs without groups, classes and escapes

Where no group, no class and no escape is started, the reader stays on one level
(`Reader.Level`): no group is open, and it stands between two tokens, with a star or two under
way at most. There nothing can go wrong but a group that is ended:

> `exists_parse_iff`: such a text is a glob if and only if it has no closing brace.
-/

namespace LineLimit.Glob

/-- No group, no class and no escape is started in the text. -/
def Unnested (text : Text) : Prop := ∀ c ∈ text, c ∉ ['[', '{', '\\']

instance (text : Text) : Decidable (Unnested text) := List.decidableBAll _ text

namespace Reader

variable {r : Reader} {c : Char}

/-- No group is open, and no class and no escape is under way. -/
structure Level (r : Reader) : Prop where
  groups : r.groups = []
  atToken : r.mode.atToken = true

/-- A character that nests nothing is read, and leaves the reader on the same level. -/
theorem level_plain (hgroups : r.groups = []) (hc : c ∉ ['[', '{', '\\']) (hclose : c ≠ '}') :
    ∃ r', r.plain c = .ok r' ∧ r'.Level := by
  unfold plain
  split
  · exact ⟨_, rfl, hgroups, rfl⟩
  · exact ⟨_, rfl, hgroups, rfl⟩
  · exact absurd hc (by decide)
  · exact absurd hc (by decide)
  · exact absurd rfl hclose
  · refine ⟨_, rfl, ?_⟩
    unfold comma
    simp only [hgroups]
    exact ⟨rfl, rfl⟩
  · exact absurd hc (by decide)
  · exact ⟨_, rfl, hgroups, rfl⟩

/-- Outside groups there is none to end. -/
theorem plain_close (hgroups : r.groups = []) : r.plain '}' = .error .unopenedGroup := by
  show close _ = _
  unfold close
  simp only [hgroups]

/-- What is read on a level stays there, or is a closing brace and refused. -/
theorem Level.step_cases (h : r.Level) (hc : c ∉ ['[', '{', '\\']) :
    (c = '}' ∧ r.step c = .error .unopenedGroup) ∨
      (c ≠ '}' ∧ ∃ r', r.step c = .ok r' ∧ r'.Level) := by
  obtain ⟨branch, groups, last, mode⟩ := r
  obtain rfl : groups = [] := h.groups
  -- whatever tokens the stars before it turn into, the character is then read as any other
  have hplain (branch : Tokens) (mode : Mode) :
      (c = '}' ∧ (⟨branch, [], last, mode⟩ : Reader).plain c = .error .unopenedGroup) ∨
        (c ≠ '}' ∧ ∃ r', (⟨branch, [], last, mode⟩ : Reader).plain c = .ok r' ∧ r'.Level) := by
    by_cases hclose : c = '}'
    · subst hclose
      exact .inl ⟨rfl, plain_close rfl⟩
    · exact .inr ⟨hclose, level_plain rfl hc hclose⟩
  cases mode with
  | plain => exact hplain branch .plain
  | star before =>
    by_cases hstar : c = '*'
    · subst hstar
      exact .inr ⟨by decide, _, rfl, rfl, rfl⟩
    · rw [show (⟨branch, [], last, .star before⟩ : Reader).step c =
        (⟨.star :: branch, [], last, .star before⟩ : Reader).plain c from if_neg hstar]
      exact hplain _ _
  | stars before =>
    show (c = '}' ∧ Reader.afterStars _ before c = _) ∨
      (c ≠ '}' ∧ ∃ r', Reader.afterStars _ before c = _ ∧ _)
    unfold Reader.afterStars
    by_cases hspan : (c = '/' && (⟨branch, [], last, .stars before⟩ : Reader).maySpan before) = true
    · rw [if_pos hspan]
      obtain rfl : c = '/' := of_decide_eq_true ((Bool.and_eq_true _ _).mp hspan).1
      exact .inr ⟨by decide, _, rfl, (spanning_keeps _ .between).1, rfl⟩
    · rw [if_neg hspan, if_neg (by simp)]
      exact hplain _ _
  | _ => exact absurd h.atToken (by simp [Mode.atToken])

/-- A text without nesting is read, up to its first closing brace. -/
theorem Level.foldlM {text : Text} (h : r.Level) (htext : Unnested text) (hclose : '}' ∉ text) :
    ∃ r', text.foldlM step r = .ok r' ∧ r'.Level := by
  induction text generalizing r with
  | nil => exact ⟨r, rfl, h⟩
  | cons c text ih =>
    rcases h.step_cases (htext c (List.mem_cons_self ..)) with ⟨rfl, -⟩ | ⟨-, r', hr, hlevel⟩
    · exact absurd (List.mem_cons_self ..) hclose
    · obtain ⟨r'', hrest, hlevel'⟩ := ih hlevel (fun d hd => htext d (List.mem_cons_of_mem _ hd))
        fun hmem => hclose (List.mem_cons_of_mem _ hmem)
      exact ⟨r'', by rw [List.foldlM_cons, hr]; exact hrest, hlevel'⟩

/-- On the level of the whole glob, a text may end at any place. -/
theorem Level.finish (h : r.Level) : ∃ ts, r.finish = .ok ts := by
  obtain ⟨r', hsettle, hgroups⟩ : ∃ r', r.settle = .ok r' ∧ r'.groups = [] := by
    unfold settle
    split
    · exact ⟨r, rfl, h.groups⟩
    · next hmode => exact absurd h.atToken (by simp [hmode, Mode.atToken])
    · exact ⟨_, rfl, h.groups⟩
    · refine ⟨_, rfl, ?_⟩
      split
      · exact (r.spanning_keeps .trailing).1.trans h.groups
      · exact h.groups
    · next hmode => exact absurd h.atToken (by simp [hmode, Mode.atToken])
    · next hmode => exact absurd h.atToken (by simp [hmode, Mode.atToken])
  have hempty : r'.groups.isEmpty = true := List.isEmpty_iff.mpr hgroups
  simp only [Reader.finish, hsettle, bind, Except.bind, hempty, if_true]
  split
  · exact ⟨_, rfl⟩
  · exact ⟨_, rfl⟩

end Reader

/-- Without nesting, a text is a glob if and only if it has no closing brace. -/
theorem exists_parse_iff {text : Text} (h : Unnested text) :
    (∃ ts, parse text = .ok ts) ↔ '}' ∉ text := by
  have hlevel : Reader.initial.Level := ⟨rfl, rfl⟩
  constructor
  · rintro ⟨ts, hts⟩ hclose
    obtain ⟨before, after, rfl, hbefore⟩ := List.eq_append_cons_of_mem hclose
    obtain ⟨r, hr, hread⟩ :=
      hlevel.foldlM (fun c hc => h c (List.mem_append_left _ hc)) hbefore
    obtain ⟨r', hfold, -⟩ := exists_of_bind_eq_ok hts
    rw [List.foldlM_append, hr] at hfold
    rcases hread.step_cases (c := '}') (by decide) with ⟨-, hrefused⟩ | ⟨hne, -⟩
    · have hfail : (('}' :: after).foldlM Reader.step r) = .error .unopenedGroup := by
        rw [List.foldlM_cons, hrefused]
        rfl
      exact nomatch hfail.symm.trans hfold
    · exact absurd rfl hne
  · intro hclose
    obtain ⟨r, hr, hread⟩ := hlevel.foldlM h hclose
    obtain ⟨ts, hts⟩ := hread.finish
    exact ⟨ts, by rw [parse, hr]; exact hts⟩

end LineLimit.Glob
