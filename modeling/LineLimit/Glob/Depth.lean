import LineLimit.Glob.Syntax

/-!
# How deeply a glob is nested

A matcher is built from a regular expression that says what the glob says, and
the engine refuses an expression that is nested too deeply. A level is added by
a group, by the choice between two or more branches, by a row of two or more
items, by a repetition, by a class, and by a class of two or more items once
more. The tokens are spelled

| token        | expression     | levels                                   |
|--------------|----------------|------------------------------------------|
| a character  | its bytes      | 0                                        |
| `?`          | `[^/]`         | 1                                        |
| `*`          | `[^/]*`        | 2                                        |
| `**/`        | `(?:/?\|.*/)`  | 4: group, choice, row, repetition        |
| `/**/`       | `(?:/\|/.*/)`  | 4: the same                              |
| `/**`, `**`  | `/.*`, `.*`    | 1                                        |
| `[…]`        | `[…]`          | 1, or 2 for two items or more            |
| `{…}`        | `(?:…)`        | 1, and those inside                      |
| `{…,…}`      | `(?:…\|…)`     | 2, and those inside                      |

and the whole expression is a row, since it is anchored at both ends.
-/

namespace LineLimit.Glob

/-- How many items the ranges of a class are. A character is one item for each
of its bytes, and a range joins the last byte of its one end to the first byte of
the other. -/
def classItems : List (Char × Char) → Nat
  | [] => 0
  | (low, high) :: ranges =>
    (if low = high then low.utf8Size else low.utf8Size + high.utf8Size - 1) + classItems ranges

/-- How many items of its row a token is. -/
def Token.items : Token → Nat
  | .literal c => c.utf8Size
  | .trailing => 2
  | .group [] => 0
  | _ => 1

/-- How many items a branch is. -/
def items : Tokens → Nat
  | [] => 0
  | t :: ts => t.items + items ts

mutual

/-- The levels that a token adds. -/
def Token.levels : Token → Nat
  | .literal _ => 0
  | .anyByte => 1
  | .star => 2
  | .leading => 4
  | .trailing => 1
  | .between => 4
  | .everything => 1
  | .oneOf _ ranges => min (classItems ranges) 2
  | .group branches => min branches.length 2 + levelsOfSome branches

/-- The most levels that one of the tokens adds. -/
def levels : Tokens → Nat
  | [] => 0
  | t :: ts => max t.levels (levels ts)

/-- The most levels of one of the branches, each with its own row. -/
def levelsOfSome : List Tokens → Nat
  | [] => 0
  | ts :: branches => max ((if items ts ≤ 1 then 0 else 1) + levels ts) (levelsOfSome branches)

end

/-- How many levels a glob is nested. -/
def depth (ts : Tokens) : Nat := 1 + levels ts

/-- Groups one inside the other, each with a level, inside the row of the whole. -/
example : depth [.group [[.group [[.group [[.literal 'a']]]]]]] = 4 := rfl

end LineLimit.Glob
