import LineLimit.Pattern

/-!
# Positions found one at a time

`Step.close` names all positions that are reached without taking a name. A worklist finds them
one at a time: it goes through a list of positions from its start, and where a `**` stands at
the position looked at, it puts the next position at the end of the list, unless the list has
it. So the list grows while it is gone through. It still comes to an end, because a position
that is put there is new and lies among the steps (`Worklist.toDo_step`).

`Step.admitsByList` follows names with such lists, and gives up as soon as a list is empty.
-/

namespace LineLimit

namespace Step

/-- Whether a `**` stands at position `i`. -/
def directoriesAt (steps : List Step) (i : Nat) : Bool :=
  match steps[i]? with
  | some .directories => true
  | _ => false

theorem directoriesAt_iff {steps : List Step} {i : Nat} :
    directoriesAt steps i = true ↔ steps[i]? = some .directories := by
  unfold directoriesAt
  split
  · next h => simp [h]
  · next h => simpa using fun heq => h heq

/-- Put a position at the end of a list, unless the list has it. -/
def note (positions : List Nat) (i : Nat) : List Nat :=
  if i ∈ positions then positions else positions ++ [i]

/-- Noting a position adds it, unless it is there. -/
theorem mem_note {positions : List Nat} {i j : Nat} :
    j ∈ note positions i ↔ j ∈ positions ∨ j = i := by
  unfold note
  split
  · next h =>
    constructor
    · exact .inl
    · intro hj
      rcases hj with hj | rfl
      · exact hj
      · exact h
  · rw [List.mem_append, List.mem_singleton]

/-- No position is noted twice. -/
theorem nodup_note {positions : List Nat} {i : Nat} (h : positions.Nodup) :
    (note positions i).Nodup := by
  unfold note
  split
  · exact h
  · next hi =>
    refine List.nodup_append.mpr ⟨h, by simp, fun j hj k hk heq => ?_⟩
    obtain rfl := List.mem_singleton.mp hk
    exact hi (heq ▸ hj)

end Step

/-- A list of positions that is gone through from its start. -/
structure Worklist where
  /-- The positions found, in the order in which they were found. -/
  found : List Nat
  /-- How many of them have been looked at. -/
  seen : Nat

namespace Worklist

variable {steps : List Step} {w w' : Worklist}

/-- A list none of which has been looked at. -/
def ofPositions (positions : List Nat) : Worklist := ⟨positions, 0⟩

/-- Look at the next position, if one is left. -/
def step (steps : List Step) (w : Worklist) : Option Worklist :=
  match w.found[w.seen]? with
  | none => none
  | some i =>
    some ⟨if Step.directoriesAt steps i then Step.note w.found (i + 1) else w.found, w.seen + 1⟩

/-- The position looked at stays, and the list has the next one from then on if a `**` stands
there. -/
theorem step_cases (h : w.step steps = some w') :
    ∃ i, w.found[w.seen]? = some i ∧ w'.seen = w.seen + 1 ∧
      ((steps[i]? = some .directories ∧ w'.found = Step.note w.found (i + 1)) ∨
        (steps[i]? ≠ some .directories ∧ w'.found = w.found)) := by
  unfold step at h
  split at h
  · exact nomatch h
  · next i hi =>
    obtain rfl := Option.some.inj h
    refine ⟨i, hi, rfl, ?_⟩
    by_cases hdirs : Step.directoriesAt steps i = true
    · exact .inl ⟨Step.directoriesAt_iff.mp hdirs, if_pos hdirs⟩
    · exact .inr ⟨fun heq => hdirs (Step.directoriesAt_iff.mpr heq), if_neg hdirs⟩

/-- How many positions up to the last one the list does not have. -/
def missing (steps : List Step) (found : List Nat) : Nat :=
  (List.range (steps.length + 1)).countP (· ∉ found)

/-- What is left to do at most: every position that is left is looked at, and every one that
is missing may be found and is then looked at as well. -/
def toDo (steps : List Step) (w : Worklist) : Nat :=
  (w.found.length - w.seen) + 2 * missing steps w.found

/-- A position that is new to the list and lies among the steps is missing no longer. -/
theorem missing_concat {found : List Nat} {i : Nat} (hnew : i ∉ found) (hi : i ≤ steps.length) :
    missing steps (found ++ [i]) < missing steps found := by
  have hle : ∀ range : List Nat,
      range.countP (· ∉ found ++ [i]) ≤ range.countP (· ∉ found) := fun range =>
    List.countP_mono_left fun j _ hj => by simp_all
  obtain ⟨before, after, hrange⟩ :=
    List.append_of_mem (List.mem_range.mpr (Nat.lt_succ_of_le hi))
  have hsplit : ∀ q : Nat → Bool, (List.range (steps.length + 1)).countP q =
      before.countP q + (after.countP q + if q i then 1 else 0) := by
    intro q
    rw [← Nat.succ_eq_add_one, hrange, List.countP_append, List.countP_cons]
  have hbefore := hle before
  have hafter := hle after
  unfold missing
  rw [hsplit, hsplit, if_neg (by simp), if_pos (by simpa using hnew)]
  omega

/-- Looking at a position leaves less to do. -/
theorem toDo_step (h : w.step steps = some w') : w'.toDo steps < w.toDo steps := by
  obtain ⟨i, hi, hseen, hcases⟩ := step_cases h
  have hlt : w.seen < w.found.length := (List.getElem?_eq_some_iff.mp hi).1
  unfold toDo
  rw [hseen]
  rcases hcases with ⟨hdirs, hfound⟩ | ⟨-, hfound⟩
  · by_cases hmem : i + 1 ∈ w.found
    · rw [hfound, Step.note, if_pos hmem]
      omega
    · have hmissing := missing_concat hmem (List.getElem?_eq_some_iff.mp hdirs).1
      rw [hfound, Step.note, if_neg hmem, List.length_append, List.length_singleton]
      omega
  · rw [hfound]
    omega

/-- The positions found when all of them have been looked at. -/
def finish (steps : List Step) (w : Worklist) : List Nat :=
  match _h : w.step steps with
  | none => w.found
  | some w' => finish steps w'
termination_by w.toDo steps
decreasing_by exact toDo_step _h

end Worklist

namespace Step

/-- The positions after a name, each noted when it is come to first. -/
def advance (ignoreCase hidden : Bool) (steps : List Step) (positions : List Nat)
    (name : Bytes) : List Nat :=
  (positions.filterMap (take ignoreCase hidden steps name)).foldl note []

/-- The positions after the names; none if there is a name that none of the positions before
it takes. -/
def follow (ignoreCase hidden : Bool) (steps : List Step) (positions : List Nat) :
    List Bytes → Option (List Nat)
  | [] => some positions
  | n :: names =>
    let next := (Worklist.ofPositions (advance ignoreCase hidden steps positions n)).finish steps
    if next.isEmpty then none else follow ignoreCase hidden steps next names

/-- Whether names can be part of a match, with the positions kept in a list: `Step.admits` as it
is worked out name by name. -/
def admitsByList (ignoreCase hidden isDirectory : Bool) (steps : List Step)
    (names : List Bytes) : Bool :=
  match follow ignoreCase hidden steps ((Worklist.ofPositions [0]).finish steps) names with
  | none => false
  | some positions =>
    if isDirectory then positions.any (· < steps.length) else positions.contains steps.length

end Step

end LineLimit
