import Mathlib.Data.List.Basic

/-!
# Runs in a list

The elements of a list that satisfy a test come in runs, the longest stretches of
them. Two lists end to end have the runs of both, but for a run that goes on from
one to the other (`runs_append`).

> `runs_intercalate`: the separators between several parts have one run less than
> there are parts that are not empty, but for runs at the start and at the end.
-/

namespace LineLimit

variable {α : Type} {q : α → Bool}

/-- The number of the longest stretches of elements that satisfy `q`. -/
def runs (q : α → Bool) : List α → Nat
  | [] => 0
  | a :: as => (if q a && !as.head?.any q then 1 else 0) + runs q as

/-- The first element adds a run if it satisfies `q` and the next does not. -/
theorem runs_cons (a : α) (as : List α) :
    runs q (a :: as) = (if q a && !as.head?.any q then 1 else 0) + runs q as := rfl

theorem runs_singleton (a : α) : runs q [a] = if q a then 1 else 0 := by
  rw [runs_cons]
  simp [runs]

/-- A run that goes on from one list to the next is counted in both. -/
theorem runs_append (as bs : List α) :
    runs q (as ++ bs) + (if as.getLast?.any q && bs.head?.any q then 1 else 0) =
      runs q as + runs q bs := by
  induction as with
  | nil => simp [runs]
  | cons a as ih =>
    cases as with
    | nil =>
      rw [List.singleton_append, runs_cons, runs_singleton, List.getLast?_singleton,
        Option.any_some]
      cases q a <;> cases bs.head?.any q <;> simp [Nat.add_comm]
    | cons b as =>
      have hhead : (b :: as ++ bs).head? = (b :: as).head? := rfl
      rw [List.getLast?_cons_cons, List.cons_append, runs_cons, runs_cons a, hhead]
      omega

/-- Two lists in a row have at most as many runs as both have: a run can go on from one to the
other. -/
theorem runs_append_le (as bs : List α) : runs q (as ++ bs) ≤ runs q as + runs q bs := by
  have happend := runs_append (q := q) as bs
  omega

/-- A list that does not go on with a run adds its own runs. -/
theorem runs_append_of_head {as bs : List α} (h : bs.head?.any q = false) :
    runs q (as ++ bs) = runs q as + runs q bs := by
  have happend := runs_append (q := q) as bs
  rw [h, Bool.and_false] at happend
  simpa using happend

/-- An element at the end adds a run if it satisfies `q` and the one before it does not. -/
theorem runs_concat (as : List α) (a : α) :
    runs q (as ++ [a]) = runs q as + if q a && !as.getLast?.any q then 1 else 0 := by
  have happend := runs_append (q := q) as [a]
  rw [runs_singleton, List.head?_singleton, Option.any_some] at happend
  cases hq : q a <;> cases hlast : as.getLast?.any q <;> simp [hq, hlast] at happend ⊢ <;> omega

theorem runs_reverse (as : List α) : runs q as.reverse = runs q as := by
  induction as with
  | nil => rfl
  | cons a as ih =>
    rw [List.reverse_cons, runs_concat, ih, List.getLast?_reverse, runs_cons, Nat.add_comm]

theorem runs_eq_zero {as : List α} (h : ∀ a ∈ as, q a = false) : runs q as = 0 := by
  induction as with
  | nil => rfl
  | cons a as ih =>
    rw [runs_cons, ih fun b hb => h b (List.mem_cons_of_mem a hb), h a (List.mem_cons_self ..)]
    rfl

/-- What is not part of any run adds none. -/
theorem runs_append_of_none {as : List α} (bs : List α) (h : ∀ a ∈ as, q a = false) :
    runs q (as ++ bs) = runs q bs := by
  have happend := runs_append (q := q) as bs
  have hlast : as.getLast?.any q = false := by
    cases hlast : as.getLast? with
    | none => rfl
    | some a => exact h a (List.mem_of_getLast? hlast)
  rw [hlast, runs_eq_zero h] at happend
  simpa using happend

/-! ## Parts with a separator between each two -/

variable {sep : α}

/-- Parts set out after other parts, with the separator that comes between. -/
theorem intercalate_append {taken rest : List (List α)} (htaken : taken ≠ []) (hrest : rest ≠ []) :
    [sep].intercalate (taken ++ rest) =
      [sep].intercalate taken ++ sep :: [sep].intercalate rest := by
  induction taken with
  | nil => exact absurd rfl htaken
  | cons t taken ih =>
    cases taken with
    | nil =>
      obtain ⟨n, rest, rfl⟩ := List.exists_cons_of_ne_nil hrest
      rw [List.singleton_append, List.intercalate_cons_cons, List.intercalate_singleton,
        List.append_assoc, List.singleton_append]
    | cons t' taken =>
      rw [List.cons_append, List.cons_append, List.intercalate_cons_cons, ← List.cons_append,
        ih (List.cons_ne_nil _ _), List.intercalate_cons_cons]
      simp only [List.append_assoc]

/-- Parts start with a separator where the first of several is empty. -/
theorem head?_intercalate (hsep : q sep = true) {part : List α} {parts : List (List α)}
    (hpart : ∀ a ∈ part, q a = false) (hempty : part :: parts ≠ [[]]) :
    ([sep].intercalate (part :: parts)).head?.any q = part.isEmpty := by
  cases part with
  | nil =>
    cases parts with
    | nil => exact absurd rfl hempty
    | cons next parts =>
      rw [List.intercalate_cons_cons]
      simpa using hsep
  | cons a part =>
    have ha : q a = false := hpart a (List.mem_cons_self ..)
    cases parts with
    | nil =>
      rw [List.intercalate_singleton]
      simpa using ha
    | cons next parts =>
      rw [List.intercalate_cons_cons]
      simpa using ha

/-- The separator after a part starts a run, unless the next part is empty and a
separator follows. -/
theorem runs_intercalate_cons (hsep : q sep = true) {part : List α} (next : List α)
    (parts : List (List α)) (hpart : ∀ a ∈ part, q a = false) :
    runs q ([sep].intercalate (part :: next :: parts)) =
      (if ([sep].intercalate (next :: parts)).head?.any q then 0 else 1) +
        runs q ([sep].intercalate (next :: parts)) := by
  rw [List.intercalate_cons_cons, List.append_assoc, List.singleton_append,
    runs_append_of_none _ hpart, runs_cons, hsep]
  cases ([sep].intercalate (next :: parts)).head?.any q <;> rfl

/-- The separators have one run less than there are parts that are not empty, and
one more for an empty part at the start or at the end. -/
theorem runs_intercalate (hsep : q sep = true) {parts : List (List α)}
    (hparts : ∀ part ∈ parts, ∀ a ∈ part, q a = false) (hne : parts ≠ []) (hempty : parts ≠ [[]]) :
    runs q ([sep].intercalate parts) + 1 =
      (if parts.head?.any List.isEmpty then 1 else 0) + (parts.filter (!·.isEmpty)).length +
        (if parts.getLast?.any List.isEmpty then 1 else 0) := by
  induction parts with
  | nil => exact absurd rfl hne
  | cons part parts ih =>
    have hpart := hparts part (List.mem_cons_self ..)
    cases parts with
    | nil =>
      have hnil : part ≠ [] := fun hnil => hempty (by rw [hnil])
      rw [List.intercalate_singleton, runs_eq_zero hpart]
      simp [hnil]
    | cons next parts =>
      have hrest := fun p hp => hparts p (List.mem_cons_of_mem part hp)
      -- every other part is counted for itself or as the first of all
      have hfirst : (if part.isEmpty then 1 else 0) +
          ((part :: next :: parts).filter (!·.isEmpty)).length =
            1 + ((next :: parts).filter (!·.isEmpty)).length := by
        cases part <;> simp [Nat.add_comm]
      rw [runs_intercalate_cons hsep next parts hpart, List.head?_cons, Option.any_some, hfirst,
        List.getLast?_cons_cons]
      by_cases hlone : next :: parts = [[]]
      · rw [hlone]
        rfl
      · have hmore := ih hrest (List.cons_ne_nil next parts) hlone
        rw [head?_intercalate hsep (hrest next (List.mem_cons_self ..)) hlone]
        rw [List.head?_cons, Option.any_some] at hmore
        by_cases hnext : next.isEmpty = true
        · rw [if_pos hnext] at hmore ⊢
          omega
        · rw [if_neg hnext] at hmore ⊢
          omega

end LineLimit
