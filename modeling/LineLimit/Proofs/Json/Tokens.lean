import Mathlib.Data.List.Basic
import LineLimit.Proofs.Json.Reader

/-!
# The tokens of a value

Every value is written as one list of tokens, `Value.tokens`, and the parser reads the value
back from them:

> `parse_tokens`: `parse v.tokens = some v`.

This is an induction on the value, in which a state of the parser stands for what is open
around it: a value that is due is read from its tokens and put there (`Parser.read_tokens`),
and so are the items and members that are left (`Parser.read_itemTokens`,
`Parser.read_memberTokens`).
-/

namespace LineLimit.Json

mutual

/-- The tokens of a value. -/
def Value.tokens : Value → List Token
  | .atom a => [.atom a]
  | .list items => .openList :: [.comma].intercalate (itemTokens items) ++ [.closeList]
  | .object members => .openObject :: [.comma].intercalate (memberTokens members) ++ [.closeObject]

/-- The tokens of each of some values. -/
def itemTokens : List Value → List (List Token)
  | [] => []
  | v :: items => v.tokens :: itemTokens items

/-- The tokens of each of some members. -/
def memberTokens : List (Text × Value) → List (List Token)
  | [] => []
  | (name, v) :: members => (.atom (.text name) :: .colon :: v.tokens) :: memberTokens members

end

/-- What is put between the pieces of a list stands before each piece but the first. -/
theorem intercalate_cons {α : Type} (a : α) (x : List α) (xs : List (List α)) :
    [a].intercalate (x :: xs) = x ++ xs.flatMap (a :: ·) := by
  induction xs generalizing x with
  | nil => simp
  | cons y xs ih => rw [List.intercalate_cons_cons, ih]; simp

namespace Parser

/-- A list that has only begun goes on with its first item. -/
theorem read_firstItem (v : Value) (frames : List Frame) (ts : List Token) :
    read (.firstItem frames) (v.tokens ++ ts) =
      read (.value (.list [] :: frames)) (v.tokens ++ ts) := by
  cases v <;> rfl

mutual

/-- A value that is due is read from its tokens, and put where it belongs. -/
theorem read_tokens : ∀ (v : Value) (frames : List Frame) (ts : List Token),
    read (.value frames) (v.tokens ++ ts) = read (put v frames) ts
  | .atom a, frames, ts => rfl
  | .list [], frames, ts => rfl
  | .list (v :: items), frames, ts => by
    rw [Value.tokens, itemTokens, intercalate_cons]
    simp only [List.cons_append, List.append_assoc, List.nil_append]
    change read (.firstItem frames) (v.tokens ++ _) = _
    rw [read_firstItem, read_tokens v]
    exact read_itemTokens items v [] frames ts
  | .object [], frames, ts => rfl
  | .object ((name, v) :: members), frames, ts => by
    rw [Value.tokens, memberTokens, intercalate_cons]
    simp only [List.cons_append, List.append_assoc, List.nil_append]
    change read (.value (.object [] name :: frames)) (v.tokens ++ _) = _
    rw [read_tokens v]
    exact read_memberTokens members (name, v) [] frames ts

/-- Inside a list, the items that are left are read after those that have been. -/
theorem read_itemTokens : ∀ (items : List Value) (item : Value) (before : List Value)
    (frames : List Frame) (ts : List Token),
    read (.nextItem item before frames)
        ((itemTokens items).flatMap (.comma :: ·) ++ .closeList :: ts) =
      read (put (.list ((item :: before).reverse ++ items)) frames) ts
  | [], item, before, frames, ts => by rw [List.append_nil]; rfl
  | v :: items, item, before, frames, ts => by
    rw [itemTokens, List.flatMap_cons, List.append_assoc]
    change read (.value (.list (item :: before) :: frames)) (v.tokens ++ _) = _
    rw [read_tokens v]
    exact (read_itemTokens items v (item :: before) frames ts).trans (by simp)

/-- Inside an object, the members that are left are read after those that have been. -/
theorem read_memberTokens : ∀ (members : List (Text × Value)) (m : Text × Value)
    (before : List (Text × Value)) (frames : List Frame) (ts : List Token),
    read (.nextMember m before frames)
        ((memberTokens members).flatMap (.comma :: ·) ++ .closeObject :: ts) =
      read (put (.object ((m :: before).reverse ++ members)) frames) ts
  | [], m, before, frames, ts => by rw [List.append_nil]; rfl
  | (name, v) :: members, m, before, frames, ts => by
    rw [memberTokens, List.flatMap_cons, List.append_assoc]
    change read (.value (.object (m :: before) name :: frames)) (v.tokens ++ _) = _
    rw [read_tokens v]
    exact (read_memberTokens members (name, v) (m :: before) frames ts).trans (by simp)

end

end Parser

/-- The parser reads a value from its tokens. -/
theorem parse_tokens (v : Value) : parse v.tokens = some v := by
  have hread := Parser.read_tokens v [] []
  rw [List.append_nil] at hread
  exact hread

end LineLimit.Json
