import LineLimit.Pattern.Alignment

/-!
# Following the steps of a pattern

`Step.positions` follows all positions at a time. One way through the steps is a
run (`Step.Moves`): it skips a `**`, or takes the next name. The positions after
some names are the ends of the runs that take these names from the first step
(`mem_positions`).

A run takes all steps exactly if the names can be shared out among them
(`Moves.takes`, `Takes.moves`), so `admits` decides what `Takes` says:

> `admits_file`: a file is admitted iff its names take all steps.
> `admits_directory`: a directory is admitted iff its names can be taken with a step left.

Where a file is admitted, a run stops before the last step at each directory on
the way, so every such directory is admitted as well (`admits_above`).
-/

namespace LineLimit.Step

/-- A run from one position to another that takes the names in their order. -/
inductive Moves (ignoreCase hidden : Bool) (steps : List Step) : Nat → List Bytes → Nat → Prop
  | done (i : Nat) : Moves ignoreCase hidden steps i [] i
  | skip {i j : Nat} {names : List Bytes} :
    steps[i]? = some .directories → Moves ignoreCase hidden steps (i + 1) names j →
      Moves ignoreCase hidden steps i names j
  | take {i k j : Nat} {n : Bytes} {names : List Bytes} :
    take ignoreCase hidden steps n i = some k → Moves ignoreCase hidden steps k names j →
      Moves ignoreCase hidden steps i (n :: names) j

variable {ignoreCase hidden : Bool} {steps : List Step}

/-- What comes first of the steps left is the step at the position. -/
theorem getElem?_of_drop {i : Nat} {s : Step} {rest : List Step} (h : steps.drop i = s :: rest) :
    steps[i]? = some s ∧ steps.drop (i + 1) = rest := by
  constructor
  · have hget : (steps.drop i)[0]? = steps[i + 0]? := List.getElem?_drop
    rw [h] at hget
    exact hget.symm
  · rw [← List.tail_drop, h]
    rfl

/-- Where no step is left, there is none at the position. -/
theorem getElem?_of_drop_nil {i : Nat} (h : steps.drop i = []) : steps[i]? = none :=
  List.getElem?_eq_none (List.drop_eq_nil_iff.mp h)

theorem drop_of_getElem? {i : Nat} {s : Step} (h : steps[i]? = some s) :
    steps.drop i = s :: steps.drop (i + 1) := by
  obtain ⟨hlt, rfl⟩ := List.getElem?_eq_some_iff.mp h
  exact List.drop_eq_getElem_cons hlt

/-- After a step there is a position, if only the last one. -/
theorem le_length_of_getElem? {i : Nat} {s : Step} (h : steps[i]? = some s) :
    i + 1 ≤ steps.length :=
  (List.getElem?_eq_some_iff.mp h).1

/-- At a `**`, a name is taken without moving on, unless it is hidden. -/
theorem take_of_directories {i : Nat} (n : Bytes) (h : steps[i]? = some .directories) :
    take ignoreCase hidden steps n i = if mayTake hidden false n then some i else none := by
  unfold Step.take
  rw [h]

/-- At any other step, a name is taken by moving on, if the step's glob accepts it. -/
theorem take_of_name {i : Nat} {glob : Glob.Tokens} {dotted : Bool} (n : Bytes)
    (h : steps[i]? = some (.name glob dotted)) :
    take ignoreCase hidden steps n i =
      if mayTake hidden dotted n && Glob.accepts ignoreCase glob n then some (i + 1)
      else none := by
  unfold Step.take
  rw [h]

/-- Where a name is taken, a `**` takes it and stays, or a component that
accepts it does and is left behind. -/
theorem take_cases {i k : Nat} {n : Bytes} (h : take ignoreCase hidden steps n i = some k) :
    (steps[i]? = some .directories ∧ mayTake hidden false n = true ∧ k = i) ∨
      ∃ glob dotted, steps[i]? = some (.name glob dotted) ∧ mayTake hidden dotted n = true ∧
        Glob.accepts ignoreCase glob n = true ∧ k = i + 1 := by
  cases hget : steps[i]? with
  | none =>
    unfold Step.take at h
    rw [hget] at h
    exact absurd h (by simp)
  | some s =>
    cases s with
    | directories =>
      rw [take_of_directories n hget, Option.ite_none_right_eq_some] at h
      exact .inl ⟨rfl, h.1, (Option.some.inj h.2).symm⟩
    | name glob dotted =>
      rw [take_of_name n hget, Option.ite_none_right_eq_some, Bool.and_eq_true] at h
      exact .inr ⟨glob, dotted, rfl, h.1.1, h.1.2, (Option.some.inj h.2).symm⟩

/-! ## All positions at a time -/

/-- Without a name, a run leaves a position only where a `**` stands. -/
theorem moves_nil_iff {i j : Nat} (h : steps[i]? ≠ some .directories) :
    Moves ignoreCase hidden steps i [] j ↔ j = i := by
  constructor
  · intro hmoves
    cases hmoves with
    | done => rfl
    | skip hdirs _ => exact absurd hdirs h
  · intro heq
    rw [heq]
    exact .done i

/-- The positions reached without a name are the ends of runs that take none. -/
theorem mem_reach (ignoreCase hidden : Bool) {i j : Nat} :
    j ∈ reach (steps.drop i) i ↔ Moves ignoreCase hidden steps i [] j := by
  -- by induction on what is left of the steps
  generalize hss : steps.drop i = ss
  induction ss generalizing i with
  | nil =>
    rw [reach, List.mem_singleton, moves_nil_iff (by simp [getElem?_of_drop_nil hss])]
    intro _ he
    exact absurd he (by simp)
  | cons s ss ih =>
    obtain ⟨hget, hdrop⟩ := getElem?_of_drop hss
    cases s with
    | directories =>
      rw [reach, List.mem_cons]
      constructor
      · intro hcases
        rcases hcases with rfl | h
        · exact .done j
        · exact .skip hget ((ih hdrop).mp h)
      · intro h
        cases h with
        | done => exact Or.inl rfl
        | skip _ h => exact Or.inr ((ih hdrop).mpr h)
    | name glob dotted =>
      rw [reach, List.mem_singleton, moves_nil_iff (by simp [hget])]
      intro _ he
      exact absurd he (by simp)

/-- The positions that are closed in are those that can be moved to without a name. -/
theorem mem_close {ps : List Nat} {j : Nat} :
    j ∈ close steps ps ↔ ∃ i ∈ ps, Moves ignoreCase hidden steps i [] j := by
  unfold close
  rw [List.mem_eraseDups, List.mem_flatMap]
  simp only [mem_reach ignoreCase hidden]

/-- A run skips what it skips before a name, and then takes the name. -/
theorem moves_cons {i j : Nat} {n : Bytes} {names : List Bytes} :
    Moves ignoreCase hidden steps i (n :: names) j ↔
      ∃ k l, Moves ignoreCase hidden steps i [] k ∧
        take ignoreCase hidden steps n k = some l ∧ Moves ignoreCase hidden steps l names j := by
  constructor
  · intro h
    -- by induction on the run: it skips steps before it takes `n`
    generalize hall : n :: names = all at h
    induction h with
    | done => exact absurd hall (by simp)
    | skip hdirs _ ih =>
      obtain ⟨k, l, hk, htake, hrest⟩ := ih hall
      exact ⟨k, l, .skip hdirs hk, htake, hrest⟩
    | take htake hrest =>
      obtain ⟨rfl, rfl⟩ := List.cons.inj hall
      exact ⟨_, _, .done _, htake, hrest⟩
  · intro ⟨k, l, hk, htake, hrest⟩
    generalize hnone : ([] : List Bytes) = none at hk
    induction hk with
    | done => exact .take htake hrest
    | skip hdirs _ ih => exact .skip hdirs (ih htake hnone)
    | take => exact absurd hnone (by simp)

/-- The positions after some names are those that can be moved to over them. -/
theorem mem_foldl {ps : List Nat} {names : List Bytes} {j : Nat} :
    j ∈ names.foldl
        (fun ps name => close steps (ps.filterMap (take ignoreCase hidden steps name)))
        (close steps ps) ↔
      ∃ i ∈ ps, Moves ignoreCase hidden steps i names j := by
  induction names generalizing ps with
  | nil => exact mem_close
  | cons n names ih =>
    rw [List.foldl_cons, ih]
    constructor
    · intro ⟨l, hl, hrest⟩
      obtain ⟨k, hk, htake⟩ := List.mem_filterMap.mp hl
      obtain ⟨i, hi, hskip⟩ := mem_close.mp hk
      exact ⟨i, hi, moves_cons.mpr ⟨k, l, hskip, htake, hrest⟩⟩
    · intro ⟨i, hi, h⟩
      obtain ⟨k, l, hskip, htake, hrest⟩ := moves_cons.mp h
      exact ⟨l, List.mem_filterMap.mpr ⟨k, mem_close.mpr ⟨i, hi, hskip⟩, htake⟩, hrest⟩

/-- The positions after some names are the ends of the runs that take them. -/
theorem mem_positions {names : List Bytes} {j : Nat} :
    j ∈ positions ignoreCase hidden steps names ↔ Moves ignoreCase hidden steps 0 names j := by
  unfold positions
  rw [mem_foldl]
  simp only [List.mem_singleton, exists_eq_left]

/-- A file is admitted if its names lead past all steps. -/
theorem admits_file_iff_moves {names : List Bytes} :
    admits ignoreCase hidden false steps names = true ↔
      Moves ignoreCase hidden steps 0 names steps.length := by
  rw [← mem_positions]
  simp [admits]

/-- A directory is admitted if its names lead somewhere short of the end. -/
theorem admits_directory_iff_moves {names : List Bytes} :
    admits ignoreCase hidden true steps names = true ↔
      ∃ j < steps.length, Moves ignoreCase hidden steps 0 names j := by
  simp only [admits, if_true, List.any_eq_true, decide_eq_true_eq, ← mem_positions]
  constructor
  · intro ⟨j, hj, hlt⟩
    exact ⟨j, hlt, hj⟩
  · intro ⟨j, hlt, hj⟩
    exact ⟨j, hj, hlt⟩

/-! ## Runs taken apart -/

/-- A run that takes names in two stretches stands somewhere between them. -/
theorem Moves.split {i j : Nat} {above below : List Bytes}
    (h : Moves ignoreCase hidden steps i (above ++ below) j) :
    ∃ k, Moves ignoreCase hidden steps i above k ∧ Moves ignoreCase hidden steps k below j := by
  induction above generalizing i with
  | nil => exact ⟨i, .done i, h⟩
  | cons n above ih =>
    obtain ⟨k, l, hskip, htake, hrest⟩ := moves_cons.mp h
    obtain ⟨m, habove, hbelow⟩ := ih hrest
    exact ⟨m, moves_cons.mpr ⟨k, l, hskip, htake, habove⟩, hbelow⟩

/-- No name is taken after the last step. -/
theorem Moves.lt_length {i j : Nat} {n : Bytes} {names : List Bytes}
    (h : Moves ignoreCase hidden steps i (n :: names) j) : i < steps.length := by
  cases h with
  | skip hdirs _ => exact le_length_of_getElem? hdirs
  | take htake _ =>
    rcases take_cases htake with ⟨hget, -, -⟩ | ⟨_, _, hget, -, -, -⟩
    · exact le_length_of_getElem? hget
    · exact le_length_of_getElem? hget

/-- Where a file is admitted, so is every directory on the way to it. -/
theorem admits_above {above below : List Bytes}
    (h : admits ignoreCase hidden false steps (above ++ below) = true) (hbelow : below ≠ []) :
    admits ignoreCase hidden true steps above = true := by
  obtain ⟨k, habove, hrest⟩ := (admits_file_iff_moves.mp h).split
  obtain ⟨n, names, rfl⟩ := List.exists_cons_of_ne_nil hbelow
  exact admits_directory_iff_moves.mpr ⟨k, hrest.lt_length, habove⟩

/-- Without `**`, every name takes a step of its own. -/
theorem Moves.eq_add_length {i j : Nat} {names : List Bytes}
    (h : Moves ignoreCase hidden steps i names j) (hsteps : .directories ∉ steps) :
    j = i + names.length := by
  induction h with
  | done i => rfl
  | skip hdirs _ _ => exact absurd (List.mem_of_getElem? hdirs) hsteps
  | @take i k j n names htake _ ih =>
    rcases take_cases htake with ⟨hget, -, -⟩ | ⟨_, _, -, -, -, rfl⟩
    · exact absurd (List.mem_of_getElem? hget) hsteps
    · rw [ih, List.length_cons]
      omega

/-- Without `**`, a file lies as deep as there are steps. -/
theorem length_of_admits {names : List Bytes}
    (h : admits ignoreCase hidden false steps names = true) (hsteps : .directories ∉ steps) :
    names.length = steps.length := by
  have hlength := (admits_file_iff_moves.mp h).eq_add_length hsteps
  omega

/-! ## Asking for hidden names -/

/-- A name that may be taken may still be when hidden names are asked for. -/
theorem mayTake_mono {hidden' dotted : Bool} {n : Bytes} (hle : hidden ≤ hidden')
    (h : mayTake hidden dotted n = true) : mayTake hidden' dotted n = true := by
  simp only [mayTake, Bool.or_eq_true] at h ⊢
  exact h.imp_right hle

/-- What a step takes it still takes where hidden names are asked for. -/
theorem take_mono {hidden' : Bool} {i k : Nat} {n : Bytes} (hle : hidden ≤ hidden')
    (h : take ignoreCase hidden steps n i = some k) :
    take ignoreCase hidden' steps n i = some k := by
  rcases take_cases h with ⟨hget, hn, rfl⟩ | ⟨glob, dotted, hget, hn, haccepts, rfl⟩
  · rw [take_of_directories n hget, if_pos (mayTake_mono hle hn)]
  · rw [take_of_name n hget, if_pos (by simp [mayTake_mono hle hn, haccepts])]

/-- A run stays one when hidden names are asked for. -/
theorem Moves.mono {hidden' : Bool} {i j : Nat} {names : List Bytes} (hle : hidden ≤ hidden')
    (h : Moves ignoreCase hidden steps i names j) :
    Moves ignoreCase hidden' steps i names j := by
  induction h with
  | done i => exact .done i
  | skip hdirs _ ih => exact .skip hdirs ih
  | take htake _ ih => exact .take (take_mono hle htake) ih

/-- What is admitted still is when hidden names are asked for. -/
theorem admits_mono {hidden' isDirectory : Bool} {names : List Bytes} (hle : hidden ≤ hidden')
    (h : admits ignoreCase hidden isDirectory steps names = true) :
    admits ignoreCase hidden' isDirectory steps names = true := by
  cases isDirectory with
  | false => exact admits_file_iff_moves.mpr ((admits_file_iff_moves.mp h).mono hle)
  | true =>
    obtain ⟨j, hlt, hmoves⟩ := admits_directory_iff_moves.mp h
    exact admits_directory_iff_moves.mpr ⟨j, hlt, hmoves.mono hle⟩

/-! ## Names shared out -/

/-- A `**` takes as many names as it may before a run goes on. -/
theorem moves_within {i j : Nat} {taken names : List Bytes}
    (hget : steps[i]? = some .directories) (htaken : ∀ n ∈ taken, mayTake hidden false n = true)
    (h : Moves ignoreCase hidden steps i names j) :
    Moves ignoreCase hidden steps i (taken ++ names) j := by
  induction taken with
  | nil => exact h
  | cons n taken ih =>
    have hn : take ignoreCase hidden steps n i = some i := by
      rw [take_of_directories n hget, if_pos (htaken n (List.mem_cons_self ..))]
    exact .take hn (ih fun m hm => htaken m (List.mem_cons_of_mem _ hm))

/-- A `**` that takes one more name in front. -/
theorem Takes.cons_directories {n : Bytes} {names : List Bytes}
    (hn : mayTake hidden false n = true)
    (h : Takes ignoreCase hidden (.directories :: steps) names) :
    Takes ignoreCase hidden (.directories :: steps) (n :: names) := by
  generalize hss : Step.directories :: steps = ss at h
  cases h with
  | nothing => exact absurd hss (by simp)
  | @directories taken names rest htaken hrest =>
    obtain ⟨-, rfl⟩ := List.cons.inj hss
    show Takes ignoreCase hidden (.directories :: steps) ((n :: taken) ++ names)
    exact .directories (fun m hm => (List.mem_cons.mp hm).elim (fun h => h ▸ hn) (htaken m)) hrest
  | name => exact absurd (List.cons.inj hss).1 (by simp)

/-- A run from a position to the end takes all steps that are left there. -/
theorem Moves.takes {i : Nat} {names : List Bytes}
    (h : Moves ignoreCase hidden steps i names steps.length) :
    Takes ignoreCase hidden (steps.drop i) names := by
  generalize hj : steps.length = j at h
  induction h with
  | done i =>
    rw [← hj, List.drop_length]
    exact .nothing
  | @skip i j names hdirs _ ih =>
    rw [drop_of_getElem? hdirs]
    show Takes ignoreCase hidden _ ([] ++ names)
    exact .directories (by simp) (ih hj)
  | @take i k j n names htake _ ih =>
    have hrest := ih hj
    rcases take_cases htake with ⟨hget, hn, rfl⟩ | ⟨glob, dotted, hget, hn, haccepts, rfl⟩
    · rw [drop_of_getElem? hget] at hrest ⊢
      exact hrest.cons_directories hn
    · rw [drop_of_getElem? hget]
      exact .name hn haccepts hrest

/-- Names that take all steps from a position on are taken by a run to the end. -/
theorem Takes.moves {i : Nat} {names : List Bytes} (hi : i ≤ steps.length)
    (h : Takes ignoreCase hidden (steps.drop i) names) :
    Moves ignoreCase hidden steps i names steps.length := by
  generalize hss : steps.drop i = ss at h
  induction h generalizing i with
  | nothing =>
    have hlength : i = steps.length := Nat.le_antisymm hi (List.drop_eq_nil_iff.mp hss)
    rw [hlength]
    exact .done _
  | directories htaken _ ih =>
    obtain ⟨hget, hdrop⟩ := getElem?_of_drop hss
    exact moves_within hget htaken (.skip hget (ih (le_length_of_getElem? hget) hdrop))
  | @name glob dotted n names rest hmay haccepts _ ih =>
    obtain ⟨hget, hdrop⟩ := getElem?_of_drop hss
    have htake : take ignoreCase hidden steps n i = some (i + 1) := by
      rw [take_of_name n hget, if_pos (by simp [hmay, haccepts])]
    exact .take htake (ih (le_length_of_getElem? hget) hdrop)

/-- A file is admitted iff its names take all steps. -/
theorem admits_file {names : List Bytes} :
    admits ignoreCase hidden false steps names = true ↔ Takes ignoreCase hidden steps names := by
  rw [admits_file_iff_moves]
  exact ⟨Moves.takes, Takes.moves (Nat.zero_le _)⟩

/-! ## Names shared out with a step left -/

/-- A `**` that takes one more name in front, while it or a later step can take more. -/
theorem LeadsOn.cons_directories {n : Bytes} {names : List Bytes}
    (hn : mayTake hidden false n = true)
    (h : LeadsOn ignoreCase hidden (.directories :: steps) names) :
    LeadsOn ignoreCase hidden (.directories :: steps) (n :: names) := by
  have hcons : ∀ taken : List Bytes, (∀ m ∈ taken, mayTake hidden false m = true) →
      ∀ m ∈ n :: taken, mayTake hidden false m = true := by
    intro taken htaken m hm
    exact (List.mem_cons.mp hm).elim (fun heq => heq ▸ hn) (htaken m)
  generalize hss : Step.directories :: steps = ss at h
  cases h with
  | here step rest =>
    obtain ⟨rfl, rfl⟩ := List.cons.inj hss
    exact .within (hcons [] (by simp))
  | within htaken =>
    obtain ⟨-, rfl⟩ := List.cons.inj hss
    exact .within (hcons _ htaken)
  | @directories taken names rest htaken hrest =>
    obtain ⟨-, rfl⟩ := List.cons.inj hss
    show LeadsOn ignoreCase hidden (.directories :: steps) ((n :: taken) ++ names)
    exact .directories (hcons _ htaken) hrest
  | name => exact absurd (List.cons.inj hss).1 (by simp)

/-- A run that stops before the end leaves a step that can take more. -/
theorem Moves.leadsOn {i j : Nat} {names : List Bytes} (hj : j < steps.length)
    (h : Moves ignoreCase hidden steps i names j) :
    LeadsOn ignoreCase hidden (steps.drop i) names := by
  induction h with
  | done i =>
    rw [List.drop_eq_getElem_cons hj]
    exact .here _ _
  | @skip i j names hdirs _ ih =>
    rw [drop_of_getElem? hdirs]
    show LeadsOn ignoreCase hidden _ ([] ++ names)
    exact .directories (by simp) (ih hj)
  | @take i k j n names htake _ ih =>
    have hrest := ih hj
    rcases take_cases htake with ⟨hget, hn, rfl⟩ | ⟨glob, dotted, hget, hn, haccepts, rfl⟩
    · rw [drop_of_getElem? hget] at hrest ⊢
      exact hrest.cons_directories hn
    · rw [drop_of_getElem? hget]
      exact .name hn haccepts hrest

/-- Names shared out with a step left are taken by a run that stops at such a step. -/
theorem LeadsOn.moves {i : Nat} {names : List Bytes}
    (h : LeadsOn ignoreCase hidden (steps.drop i) names) :
    ∃ j < steps.length, Moves ignoreCase hidden steps i names j := by
  generalize hss : steps.drop i = ss at h
  induction h generalizing i with
  | here step rest =>
    obtain ⟨hget, -⟩ := getElem?_of_drop hss
    exact ⟨i, le_length_of_getElem? hget, .done i⟩
  | @within taken rest htaken =>
    obtain ⟨hget, -⟩ := getElem?_of_drop hss
    refine ⟨i, le_length_of_getElem? hget, ?_⟩
    rw [← List.append_nil taken]
    exact moves_within hget htaken (.done i)
  | directories htaken _ ih =>
    obtain ⟨hget, hdrop⟩ := getElem?_of_drop hss
    obtain ⟨j, hj, hmoves⟩ := ih hdrop
    exact ⟨j, hj, moves_within hget htaken (.skip hget hmoves)⟩
  | @name glob dotted n names rest hmay haccepts _ ih =>
    obtain ⟨hget, hdrop⟩ := getElem?_of_drop hss
    obtain ⟨j, hj, hmoves⟩ := ih hdrop
    have htake : take ignoreCase hidden steps n i = some (i + 1) := by
      rw [take_of_name n hget, if_pos (by simp [hmay, haccepts])]
    exact ⟨j, hj, .take htake hmoves⟩

/-- A directory is admitted iff its names can be taken with a step left. -/
theorem admits_directory {names : List Bytes} :
    admits ignoreCase hidden true steps names = true ↔ LeadsOn ignoreCase hidden steps names := by
  rw [admits_directory_iff_moves]
  exact ⟨fun ⟨_, hj, hmoves⟩ => hmoves.leadsOn hj, LeadsOn.moves (i := 0)⟩

end LineLimit.Step
