import Mathlib.Logic.Function.Basic
import SimpleDfs.Base.System

/-!
# What a lock service is for

A table that says for each lock who has it, if anybody has. A lock can be taken only when nobody has
it, and be given back only by whoever has it. The lock services of this repository are compared with
this table: what their users see of them, the returns from `acquire` and the calls of `release`, is
a run of it.
-/

namespace SimpleDfs.Lock

/-- What the users of a lock service see. -/
inductive TableEvent (ι κ : Type*) where
  /-- `acquire` of the lock returns to the user. -/
  | acquired (a : ι) (lid : κ)
  /-- The user calls `release` of the lock. -/
  | released (a : ι) (lid : κ)
  deriving DecidableEq, Repr

variable {ι κ : Type*} [DecidableEq ι] [DecidableEq κ]

/-- The table after an event. -/
def Table.next (table : κ → Option ι) : TableEvent ι κ → Option (κ → Option ι)
  | .acquired a lid => if table lid = none then some (Function.update table lid (some a)) else none
  | .released a lid => if table lid = some a then some (Function.update table lid none) else none

/-- The table, in which nobody has a lock at first. -/
def lockTable (ι κ : Type*) [DecidableEq ι] [DecidableEq κ] :
    System (κ → Option ι) (TableEvent ι κ) where
  init table := table = fun _ => none
  step := Table.next

/-- A lock that nobody has is taken. -/
theorem lockTable_acquired {table : κ → Option ι} {a : ι} {lid : κ} (h : table lid = none) :
    (lockTable ι κ).exec table [.acquired a lid] = some (Function.update table lid (some a)) := by
  show (Table.next table (.acquired a lid)).bind _ = _
  rw [Table.next, if_pos h]
  rfl

/-- A lock is given back by whoever has it. -/
theorem lockTable_released {table : κ → Option ι} {a : ι} {lid : κ} (h : table lid = some a) :
    (lockTable ι κ).exec table [.released a lid] = some (Function.update table lid none) := by
  show (Table.next table (.released a lid)).bind _ = _
  rw [Table.next, if_pos h]
  rfl

end SimpleDfs.Lock
