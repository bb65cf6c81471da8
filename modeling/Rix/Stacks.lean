import Mathlib.Tactic

/-!
# A row of stacks

Stacks under keys that stand in a row: items are popped from the front of the row, leave a stack
from anywhere in it, and go on top of the stacks they belong to.
-/
namespace Stacks

structure Row (κ α : Type*) where
  keys : List κ
  stack : κ → List α

namespace Row

variable {κ α : Type*} [DecidableEq κ] [DecidableEq α]

def empty : Row κ α := ⟨[], fun _ => []⟩

/-- All items, in the order in which they are popped. -/
def items (R : Row κ α) : List α := R.keys.flatMap R.stack

/-- The items of `xs` leave their stacks. -/
def remove (R : Row κ α) (xs : List α) : Row κ α :=
  { R with stack := fun k => (R.stack k).filter fun x => x ∉ xs }

/-- Each item of `xs` goes on top of the stacks it belongs to, the last one uppermost. -/
def push (R : Row κ α) (belongs : κ → α → Bool) (xs : List α) : Row κ α :=
  { R with stack := fun k => (xs.filter (belongs k)).reverse ++ R.stack k }

/-- A stack at the end of the row. -/
def add (R : Row κ α) (k : κ) (xs : List α) : Row κ α :=
  ⟨R.keys ++ [k], Function.update R.stack k xs⟩

end Row

end Stacks
