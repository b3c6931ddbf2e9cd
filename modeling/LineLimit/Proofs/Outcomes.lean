/-!
# Outcomes

What goes well in two steps, one after the other, goes well in each of them
(`exists_of_bind_eq_ok`). What every step of a run keeps, the run keeps
(`foldlM_keeps`).

A walk, a search and a check each yield a list in which what went well and what
failed stand in the order in which they were met. `successes` and `failures`
take such a list apart; nothing gets lost (`length_successes_add_failures`).
-/

namespace LineLimit

variable {ε α β : Type}

/-- Where two steps succeed, so does the first. -/
theorem exists_of_bind_eq_ok {x : Except ε α} {f : α → Except ε β} {b : β}
    (h : (x >>= f) = .ok b) : ∃ a, x = .ok a ∧ f a = .ok b := by
  cases x with
  | error e => exact absurd h (by simp [bind, Except.bind])
  | ok a => exact ⟨a, rfl, h⟩

/-- What each step keeps, a run keeps. `I` may speak of all that has been taken so far, of which
`done` was taken before the run. -/
theorem foldlM_keeps {f : β → α → Except ε β} {I : List α → β → Prop} (done : List α) {as : List α}
    {b b' : β} (start : I done b)
    (step : ∀ taken a c c', taken ++ [a] <+: done ++ as → I taken c → f c a = .ok c' →
      I (taken ++ [a]) c')
    (h : as.foldlM f b = .ok b') : I (done ++ as) b' := by
  induction as generalizing done b with
  | nil =>
    obtain rfl := Except.ok.inj h
    rwa [List.append_nil]
  | cons a as ih =>
    rw [List.foldlM_cons] at h
    obtain ⟨c, hc, hrest⟩ := exists_of_bind_eq_ok h
    rw [List.append_cons] at step ⊢
    exact ih (done ++ [a]) (step done a b c (List.prefix_append _ as) start hc) step hrest

/-! ## Lists of outcomes -/

/-- What went well, in order. -/
def successes (items : List (Except ε α)) : List α := items.filterMap Except.toOption

/-- The error of an outcome that is one. -/
def failure? : Except ε α → Option ε
  | .ok _ => none
  | .error e => some e

/-- What failed, in order. -/
def failures (items : List (Except ε α)) : List ε := items.filterMap failure?

@[simp] theorem successes_nil : successes ([] : List (Except ε α)) = [] := rfl

@[simp] theorem successes_ok (a : α) (items : List (Except ε α)) :
    successes (.ok a :: items) = a :: successes items := rfl

@[simp] theorem successes_error (e : ε) (items : List (Except ε α)) :
    successes (.error e :: items) = successes items := rfl

@[simp] theorem successes_append (items items' : List (Except ε α)) :
    successes (items ++ items') = successes items ++ successes items' :=
  List.filterMap_append

@[simp] theorem failures_nil : failures ([] : List (Except ε α)) = [] := rfl

@[simp] theorem failures_ok (a : α) (items : List (Except ε α)) :
    failures (.ok a :: items) = failures items := rfl

@[simp] theorem failures_error (e : ε) (items : List (Except ε α)) :
    failures (.error e :: items) = e :: failures items := rfl

/-- The successes are what succeeded. -/
theorem mem_successes {items : List (Except ε α)} {a : α} :
    a ∈ successes items ↔ .ok a ∈ items := by
  induction items with
  | nil => simp
  | cons item items ih =>
    cases item with
    | ok b => simp [ih]
    | error e => simp [ih]

/-- Each outcome is a success or a failure. -/
theorem length_successes_add_failures (items : List (Except ε α)) :
    (successes items).length + (failures items).length = items.length := by
  induction items with
  | nil => rfl
  | cons item items ih =>
    cases item with
    | ok b => simp only [successes_ok, failures_ok, List.length_cons]; omega
    | error e => simp only [successes_error, failures_error, List.length_cons]; omega

end LineLimit
