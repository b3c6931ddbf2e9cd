import LineLimit.Pattern

/-!
# Names shared out among steps

What it means for names to take the steps of a pattern, said without
positions: the names are shared out among the steps in their order, each `**`
takes as many as it likes, and every other step takes one. `Step.admits`
decides it: a file is admitted if its names take all steps (`Step.Takes`), and
a directory if its names can be taken while steps remain for what lies below
(`Step.LeadsOn`).
-/

namespace LineLimit.Step

/-- The names can be shared out among the steps, none of either left over. -/
inductive Takes (ignoreCase hidden : Bool) : List Step → List Bytes → Prop
  | nothing : Takes ignoreCase hidden [] []
  | directories {taken names : List Bytes} {steps : List Step} :
    (∀ n ∈ taken, mayTake hidden false n = true) → Takes ignoreCase hidden steps names →
      Takes ignoreCase hidden (.directories :: steps) (taken ++ names)
  | name {glob : Glob.Tokens} {dotted : Bool} {n : Bytes} {names : List Bytes}
    {steps : List Step} :
    mayTake hidden dotted n = true → Glob.accepts ignoreCase glob n = true →
      Takes ignoreCase hidden steps names →
        Takes ignoreCase hidden (.name glob dotted :: steps) (n :: names)

/-- The names can be shared out among the first of the steps so that one step
is left that can take more: the next one, or a `**` that has taken the last of
the names. -/
inductive LeadsOn (ignoreCase hidden : Bool) : List Step → List Bytes → Prop
  | here (step : Step) (steps : List Step) : LeadsOn ignoreCase hidden (step :: steps) []
  | within {taken : List Bytes} {steps : List Step} :
    (∀ n ∈ taken, mayTake hidden false n = true) →
      LeadsOn ignoreCase hidden (.directories :: steps) taken
  | directories {taken names : List Bytes} {steps : List Step} :
    (∀ n ∈ taken, mayTake hidden false n = true) → LeadsOn ignoreCase hidden steps names →
      LeadsOn ignoreCase hidden (.directories :: steps) (taken ++ names)
  | name {glob : Glob.Tokens} {dotted : Bool} {n : Bytes} {names : List Bytes}
    {steps : List Step} :
    mayTake hidden dotted n = true → Glob.accepts ignoreCase glob n = true →
      LeadsOn ignoreCase hidden steps names →
        LeadsOn ignoreCase hidden (.name glob dotted :: steps) (n :: names)

end LineLimit.Step
