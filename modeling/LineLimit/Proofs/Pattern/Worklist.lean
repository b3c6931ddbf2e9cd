import LineLimit.Pattern.Worklist
import LineLimit.Proofs.Pattern.Positions
import Mathlib.Logic.Relation

/-!
# What is admitted, and how it is worked out

A file is admitted if its names can be shared out among all steps of a pattern, and a directory
if they can with a step left for what lies below. That is all there is to it:

> `admits_iff_aligned`: `admits` decides `Step.Takes` for files and `Step.LeadsOn` for
> directories; and keeping the positions in a worklist comes to the same.

The worklist is gone through while it grows. It ends since there is less to do after each look
(`Worklist.toDo_step`), it finds what can be reached (`mem_finish`), and whenever one looks,
none of its positions is there twice or lies beyond the steps (`Worked.tidy`).
-/

namespace LineLimit

namespace Step

/-- No position is in the list twice, or lies beyond the steps. -/
structure Tidy (steps : List Step) (positions : List Nat) : Prop where
  nodup : positions.Nodup
  le_length : ∀ i ∈ positions, i ≤ steps.length

/-- A tidy list stays so if a position among the steps is noted. -/
theorem Tidy.note {steps : List Step} {positions : List Nat} {i : Nat}
    (h : Tidy steps positions) (hi : i ≤ steps.length) : Tidy steps (note positions i) where
  nodup := nodup_note h.nodup
  le_length j hj := by
    rcases mem_note.mp hj with hj | rfl
    · exact h.le_length j hj
    · exact hi

variable {ignoreCase hidden : Bool} {steps : List Step} {positions : List Nat}

/-- The position after a name lies among the steps. -/
theorem le_length_of_take {n : Bytes} {i j : Nat} (h : take ignoreCase hidden steps n i = some j) :
    j ≤ steps.length := by
  rcases take_cases h with ⟨hget, -, rfl⟩ | ⟨glob, dotted, hget, -, -, rfl⟩
  · exact Nat.le_of_succ_le (le_length_of_getElem? hget)
  · exact le_length_of_getElem? hget

/-- A run stays among the steps. -/
theorem Moves.le_length {i j : Nat} {names : List Bytes}
    (h : Moves ignoreCase hidden steps i names j) (hi : i ≤ steps.length) : j ≤ steps.length := by
  induction h with
  | done => exact hi
  | skip hdirs _ ih => exact ih (le_length_of_getElem? hdirs)
  | take htake _ ih => exact ih (le_length_of_take htake)

/-- With its repetitions erased, a list has none. -/
theorem nodup_eraseDups (l : List Nat) : l.eraseDups.Nodup := by
  match l with
  | [] => exact List.nodup_nil
  | i :: l =>
    rw [List.eraseDups_cons, List.nodup_cons]
    refine ⟨?_, nodup_eraseDups _⟩
    rw [List.mem_eraseDups, List.mem_filter]
    simp
termination_by l.length
decreasing_by exact Nat.lt_succ_of_le (List.length_filter_le ..)

/-- The positions after some names are tidy. -/
theorem tidy_positions (names : List Bytes) :
    Tidy steps (Step.positions ignoreCase hidden steps names) where
  nodup := by
    have hclose : ∀ ps, (close steps ps).Nodup := fun ps => nodup_eraseDups _
    exact List.foldlRecOn names _ (hclose [0]) fun _ _ _ _ => hclose _
  le_length i hi := (mem_positions.mp hi).le_length (Nat.zero_le _)

/-- Two runs, the first of which takes no name, are one. -/
theorem Moves.trans {i j k : Nat} {names : List Bytes} (h : Moves ignoreCase hidden steps i [] j)
    (h' : Moves ignoreCase hidden steps j names k) : Moves ignoreCase hidden steps i names k := by
  generalize hnone : ([] : List Bytes) = none at h
  induction h with
  | done => exact h'
  | skip hdirs _ ih => exact .skip hdirs (ih h' hnone)
  | take => exact absurd hnone (by simp)

end Step

/-! ## Going through a worklist -/

namespace Worklist

variable {ignoreCase hidden : Bool} {steps : List Step} {positions : List Nat} {w w' : Worklist}

/-- The one worklist comes to be the other by looking at positions. -/
def Reaches (steps : List Step) : Worklist → Worklist → Prop :=
  Relation.ReflTransGen fun w w' => w.step steps = some w'

/-- Going through a worklist ends, with the positions that `finish` says. -/
theorem reaches_finish (steps : List Step) (w : Worklist) :
    ∃ w', w.Reaches steps w' ∧ w'.step steps = none ∧ w'.found = w.finish steps := by
  fun_induction finish steps w with
  | case1 w hend => exact ⟨w, .refl, hend, rfl⟩
  | case2 w next hstep ih =>
    obtain ⟨w', hreaches, hend, hfound⟩ := ih
    exact ⟨w', .head hstep hreaches, hend, hfound⟩

/-- Looking at a position keeps a list tidy: the position noted comes after a `**`. -/
theorem tidy_step (h : Step.Tidy steps w.found) (hstep : w.step steps = some w') :
    Step.Tidy steps w'.found := by
  obtain ⟨i, -, -, ⟨hdirs, hfound⟩ | ⟨-, hfound⟩⟩ := step_cases hstep
  · rw [hfound]
    exact h.note (Step.le_length_of_getElem? hdirs)
  · rw [hfound]
    exact h

/-- What is known of a worklist that has started from some positions: it has them, it has
nothing else that they do not lead to, and behind each `**` that was looked at it has the next
position. -/
structure Complete (ignoreCase hidden : Bool) (steps : List Step) (positions : List Nat)
    (w : Worklist) : Prop where
  starts : ∀ i ∈ positions, i ∈ w.found
  reached : ∀ j ∈ w.found, ∃ i ∈ positions, Step.Moves ignoreCase hidden steps i [] j
  skips : ∀ k i, k < w.seen → w.found[k]? = some i → steps[i]? = some .directories →
    i + 1 ∈ w.found

/-- A worklist starts with the positions it is made from, none of them done. -/
theorem complete_ofPositions (positions : List Nat) :
    (ofPositions positions).Complete ignoreCase hidden steps positions where
  starts _ hi := hi
  reached j hj := ⟨j, hj, .done j⟩
  skips _ _ hk := absurd hk (Nat.not_lt_zero _)

/-- The positions found stay where they are. -/
theorem getElem?_note {found : List Nat} {i k : Nat} (hk : k < found.length) :
    (Step.note found i)[k]? = found[k]? := by
  unfold Step.note
  split
  · rfl
  · exact List.getElem?_append_left hk

/-- A step does the next position and notes where it leads. -/
theorem Complete.step (h : w.Complete ignoreCase hidden steps positions)
    (hstep : w.step steps = some w') : w'.Complete ignoreCase hidden steps positions := by
  obtain ⟨i, hi, hseen, hcases⟩ := step_cases hstep
  have hlt : w.seen < w.found.length := (List.getElem?_eq_some_iff.mp hi).1
  rcases hcases with ⟨hdirs, hfound⟩ | ⟨hdirs, hfound⟩
  · have hold : ∀ j ∈ w.found, j ∈ w'.found := fun j hj => hfound ▸ Step.mem_note.mpr (.inl hj)
    refine ⟨fun j hj => hold j (h.starts j hj), fun j hj => ?_, fun k j hk hj hnext => ?_⟩
    · rcases Step.mem_note.mp (hfound ▸ hj) with hj | rfl
      · exact h.reached j hj
      · obtain ⟨start, hstart, hmoves⟩ := h.reached i (List.mem_of_getElem? hi)
        exact ⟨start, hstart, hmoves.trans (.skip hdirs (.done _))⟩
    · rw [hfound, getElem?_note (by omega)] at hj
      rcases Nat.lt_succ_iff_lt_or_eq.mp (hseen ▸ hk) with hk | rfl
      · exact hold _ (h.skips k j hk hj hnext)
      · -- the position that was looked at
        obtain rfl : i = j := Option.some.inj (hi.symm.trans hj)
        rw [hfound]
        exact Step.mem_note.mpr (.inr rfl)
  · refine ⟨fun j hj => hfound ▸ h.starts j hj, fun j hj => h.reached j (hfound ▸ hj), ?_⟩
    intro k j hk hj hnext
    rw [hfound] at hj ⊢
    rcases Nat.lt_succ_iff_lt_or_eq.mp (hseen ▸ hk) with hk | rfl
    · exact h.skips k j hk hj hnext
    · obtain rfl : i = j := Option.some.inj (hi.symm.trans hj)
      exact absurd hnext hdirs

/-- So whatever a worklist reaches is complete for the same positions. -/
theorem Complete.reaches (h : w.Complete ignoreCase hidden steps positions)
    (hreaches : w.Reaches steps w') : w'.Complete ignoreCase hidden steps positions := by
  induction hreaches with
  | refl => exact h
  | tail _ hstep ih => exact ih.step hstep

/-- A list that was gone through to its end has what its positions lead to. -/
theorem Complete.mem_of_moves (h : w.Complete ignoreCase hidden steps positions)
    (hend : w.step steps = none) {i j : Nat} (hi : i ∈ w.found)
    (hmoves : Step.Moves ignoreCase hidden steps i [] j) : j ∈ w.found := by
  have hlength : w.found.length ≤ w.seen := by
    unfold Worklist.step at hend
    split at hend
    · next hnone => exact List.getElem?_eq_none_iff.mp hnone
    · exact nomatch hend
  generalize hnone : ([] : List Bytes) = none at hmoves
  induction hmoves with
  | done => exact hi
  | skip hdirs _ ih =>
    obtain ⟨k, hk, hget⟩ := List.mem_iff_getElem.mp hi
    have hseen : k < w.seen := Nat.lt_of_lt_of_le hk hlength
    exact ih (h.skips k _ hseen (List.getElem?_eq_some_iff.mpr ⟨hk, hget⟩) hdirs) hnone
  | take => exact absurd hnone (by simp)

/-- A worklist finds the positions that can be reached without taking a name. -/
theorem mem_finish (ignoreCase hidden : Bool) {j : Nat} :
    j ∈ (ofPositions positions).finish steps ↔
      ∃ i ∈ positions, Step.Moves ignoreCase hidden steps i [] j := by
  obtain ⟨w', hreaches, hend, hfound⟩ := reaches_finish steps (ofPositions positions)
  have hcomplete : w'.Complete ignoreCase hidden steps positions :=
    (complete_ofPositions positions).reaches hreaches
  rw [← hfound]
  constructor
  · exact hcomplete.reached j
  · intro ⟨i, hi, hmoves⟩
    exact hcomplete.mem_of_moves hend (hcomplete.starts i hi) hmoves

end Worklist

/-! ## Following names -/

namespace Step

variable {ignoreCase hidden : Bool} {steps : List Step} {positions : List Nat}

/-- Noting positions adds them, and takes none away. -/
theorem mem_foldl_note {noted new : List Nat} {j : Nat} :
    j ∈ new.foldl note noted ↔ j ∈ noted ∨ j ∈ new := by
  induction new generalizing noted with
  | nil => simp
  | cons i new ih => rw [List.foldl_cons, ih, mem_note, List.mem_cons, or_assoc]

/-- The positions after a name are those that a position takes the name to. -/
theorem mem_advance {n : Bytes} {j : Nat} :
    j ∈ advance ignoreCase hidden steps positions n ↔
      ∃ i ∈ positions, take ignoreCase hidden steps n i = some j := by
  unfold advance
  rw [mem_foldl_note, List.mem_filterMap]
  simp only [List.not_mem_nil, false_or]

/-- Positions in range leave a tidy list tidy, however often they are noted. -/
theorem tidy_foldl_note {noted new : List Nat} (h : Tidy steps noted)
    (hnew : ∀ i ∈ new, i ≤ steps.length) : Tidy steps (new.foldl note noted) := by
  induction new generalizing noted with
  | nil => exact h
  | cons i new ih =>
    exact ih (h.note (hnew i (List.mem_cons_self ..)))
      fun j hj => hnew j (List.mem_cons_of_mem _ hj)

/-- The positions after a name are tidy, whatever they were before. -/
theorem tidy_advance (positions : List Nat) (n : Bytes) :
    Tidy steps (advance ignoreCase hidden steps positions n) := by
  refine tidy_foldl_note ⟨List.nodup_nil, by simp⟩ fun j hj => ?_
  obtain ⟨i, -, htake⟩ := List.mem_filterMap.mp hj
  exact le_length_of_take htake

/-- The worklists that are at work while names are followed, with the names that have been
taken: each starts from what the one before it, gone through to its end, leads to by the next
name. -/
inductive Worked (ignoreCase hidden : Bool) (steps : List Step) : List Bytes → Worklist → Prop
  | start : Worked ignoreCase hidden steps [] (.ofPositions [0])
  | look {taken : List Bytes} {w w' : Worklist} : Worked ignoreCase hidden steps taken w →
    w.step steps = some w' → Worked ignoreCase hidden steps taken w'
  | take {taken : List Bytes} {w : Worklist} (n : Bytes) : Worked ignoreCase hidden steps taken w →
    w.step steps = none → Worked ignoreCase hidden steps (taken ++ [n])
      (.ofPositions (advance ignoreCase hidden steps w.found n))

/-- Every worklist at work is tidy. -/
theorem Worked.tidy {taken : List Bytes} {w : Worklist}
    (h : Worked ignoreCase hidden steps taken w) : Tidy steps w.found := by
  induction h with
  | start => exact ⟨by simp [Worklist.ofPositions], by simp [Worklist.ofPositions]⟩
  | look _ hstep ih => exact Worklist.tidy_step ih hstep
  | take n _ _ _ => exact tidy_advance _ n

/-- Following names with worklists leads where runs lead that take the names. -/
theorem mem_follow {names : List Bytes} {j : Nat}
    (hclosed : ∀ i ∈ positions, ∀ k, Moves ignoreCase hidden steps i [] k → k ∈ positions) :
    j ∈ (follow ignoreCase hidden steps positions names).getD [] ↔
      ∃ i ∈ positions, Moves ignoreCase hidden steps i names j := by
  induction names generalizing positions with
  | nil =>
    constructor
    · intro hj
      exact ⟨j, hj, .done j⟩
    · intro ⟨i, hi, hmoves⟩
      exact hclosed i hi j hmoves
  | cons n names ih =>
    have hnext : ∀ k, k ∈ (Worklist.ofPositions
        (advance ignoreCase hidden steps positions n)).finish steps ↔
        ∃ i ∈ positions, ∃ l, take ignoreCase hidden steps n i = some l ∧
          Moves ignoreCase hidden steps l [] k := by
      intro k
      rw [Worklist.mem_finish ignoreCase hidden]
      simp only [mem_advance]
      constructor
      · intro ⟨l, ⟨i, hi, htake⟩, hmoves⟩
        exact ⟨i, hi, l, htake, hmoves⟩
      · intro ⟨i, hi, l, htake, hmoves⟩
        exact ⟨l, ⟨i, hi, htake⟩, hmoves⟩
    -- a run takes `n` from a position that it skips to, and that is one of the positions
    have hrun : (∃ i ∈ positions, Moves ignoreCase hidden steps i (n :: names) j) ↔
        ∃ k ∈ (Worklist.ofPositions (advance ignoreCase hidden steps positions n)).finish steps,
          Moves ignoreCase hidden steps k names j := by
      constructor
      · intro ⟨i, hi, hmoves⟩
        obtain ⟨k, l, hskip, htake, hrest⟩ := moves_cons.mp hmoves
        exact ⟨l, (hnext l).mpr ⟨k, hclosed i hi k hskip, l, htake, .done l⟩, hrest⟩
      · intro ⟨k, hk, hrest⟩
        obtain ⟨i, hi, l, htake, hskip⟩ := (hnext k).mp hk
        exact ⟨i, hi, .take htake (hskip.trans hrest)⟩
    rw [hrun, follow]
    split
    · next hempty => simp [List.isEmpty_iff.mp hempty]
    · refine ih fun i hi k hmoves => ?_
      obtain ⟨start, hstart, l, htake, hskip⟩ := (hnext i).mp hi
      exact (hnext k).mpr ⟨start, hstart, l, htake, hskip.trans hmoves⟩

/-- Keeping the positions in a list makes no difference to what is admitted. -/
theorem admitsByList_eq (isDirectory : Bool) (names : List Bytes) :
    admitsByList ignoreCase hidden isDirectory steps names =
      admits ignoreCase hidden isDirectory steps names := by
  have hstart : ∀ i, i ∈ (Worklist.ofPositions [0]).finish steps ↔
      Moves ignoreCase hidden steps 0 [] i := by
    intro i
    rw [Worklist.mem_finish ignoreCase hidden]
    simp only [List.mem_singleton, exists_eq_left]
  have hmem : ∀ j, j ∈ (follow ignoreCase hidden steps
      ((Worklist.ofPositions [0]).finish steps) names).getD [] ↔
      Moves ignoreCase hidden steps 0 names j := by
    intro j
    rw [mem_follow fun i hi k hmoves => (hstart k).mpr (((hstart i).mp hi).trans hmoves)]
    constructor
    · intro ⟨i, hi, hmoves⟩
      exact ((hstart i).mp hi).trans hmoves
    · intro hmoves
      exact ⟨0, (hstart 0).mpr (.done 0), hmoves⟩
  have hlist : admitsByList ignoreCase hidden isDirectory steps names =
      if isDirectory then ((follow ignoreCase hidden steps
        ((Worklist.ofPositions [0]).finish steps) names).getD []).any (· < steps.length)
      else ((follow ignoreCase hidden steps
        ((Worklist.ofPositions [0]).finish steps) names).getD []).contains steps.length := by
    unfold admitsByList
    cases follow ignoreCase hidden steps ((Worklist.ofPositions [0]).finish steps) names with
    | none => cases isDirectory <;> rfl
    | some positions => rfl
  rw [hlist, Bool.eq_iff_iff]
  cases isDirectory with
  | false =>
    rw [admits_file_iff_moves, ← hmem]
    simp
  | true =>
    rw [admits_directory_iff_moves]
    simp only [if_true, List.any_eq_true, decide_eq_true_eq, hmem]
    exact exists_congr fun j => and_comm

end Step

namespace Pattern

/-- A pattern with steps admits a file if and only if the names can be shared out among all
steps, and a directory if and only if they can with a step left. No position is kept twice or
lies beyond the steps. Keeping the positions in a worklist comes to the same: going through one
always ends, and it is as tidy whenever one looks. -/
theorem admits_iff_aligned {p : Pattern} {steps : List Step} (hsteps : p.steps = some steps)
    (hidden : Bool) (names : List Bytes) :
    (p.admits hidden false names = true ↔ Step.Takes p.ignoreCase hidden steps names) ∧
    (p.admits hidden true names = true ↔ Step.LeadsOn p.ignoreCase hidden steps names) ∧
    Step.Tidy steps (Step.positions p.ignoreCase hidden steps names) ∧
    (∀ isDirectory, Step.admitsByList p.ignoreCase hidden isDirectory steps names =
      p.admits hidden isDirectory names) ∧
    (∀ w : Worklist, ∃ w', w.Reaches steps w' ∧ w'.step steps = none) ∧
    ∀ taken w, Step.Worked p.ignoreCase hidden steps taken w → Step.Tidy steps w.found := by
  have hadmits : ∀ isDirectory, p.admits hidden isDirectory names =
      Step.admits p.ignoreCase hidden isDirectory steps names := by
    intro isDirectory
    unfold admits
    rw [hsteps]
  refine ⟨?_, ?_, Step.tidy_positions names, fun isDirectory => ?_, fun w => ?_,
    fun taken w hw => hw.tidy⟩
  · rw [hadmits]
    exact Step.admits_file
  · rw [hadmits]
    exact Step.admits_directory
  · rw [hadmits]
    exact Step.admitsByList_eq isDirectory names
  · obtain ⟨w', hreaches, hend, -⟩ := w.reaches_finish steps
    exact ⟨w', hreaches, hend⟩

/-- The pattern `**/.git/**/**/x*`. -/
def gitFiles : Pattern :=
  ⟨"**/.git/**/**/x*".toList, false,
    [.leading, .literal '.', .literal 'g', .literal 'i', .literal 't', .between, .literal 'x',
      .star], rfl⟩

/-- The steps of the pattern. -/
def gitSteps : List Step :=
  [.directories, .name [.literal '.', .literal 'g', .literal 'i', .literal 't'] true,
    .directories, .directories, .name [.literal 'x', .star] false]

/-- A second `.git` on the way is not taken: `**` takes no name that starts with a dot. -/
theorem admits_iff_aligned_git :
    gitFiles.steps = some gitSteps ∧
      Step.Takes false false gitSteps (["a", ".git", "b", "x.c"].map fun s => utf8 s.toList) ∧
      Step.LeadsOn false false gitSteps (["a", ".git", "b"].map fun s => utf8 s.toList) ∧
      ¬Step.LeadsOn false false gitSteps (["a", ".git", ".git"].map fun s => utf8 s.toList) ∧
      Step.admitsByList false false false gitSteps
        (["a", ".git", "b", "x.c"].map fun s => utf8 s.toList) = true := by
  have hsteps : gitFiles.steps = some gitSteps := rfl
  have hfile := admits_iff_aligned hsteps false
    (["a", ".git", "b", "x.c"].map fun s => utf8 s.toList)
  refine ⟨hsteps, hfile.1.mp (by decide +kernel), ?_, fun hleads => ?_, ?_⟩
  · exact (admits_iff_aligned hsteps false _).2.1.mp (by decide +kernel)
  · exact absurd ((admits_iff_aligned hsteps false _).2.1.mpr hleads) (by decide +kernel)
  · exact (hfile.2.2.2.1 false).trans (by decide +kernel)

end Pattern

end LineLimit
