import StackAssembler.Defect
import StackAssembler.Handle

/-!
# Faults and failures

A fault is a broken promise of the caller: a handle that names no instruction,
a line table that is not written front to back, or numbers that a 32-bit word
has no room for.  An operation fails with a defect of the routine or with a
fault.
-/

namespace StackAssembler

/-- The ways in which a caller can break its promises. -/
inductive Fault where
  /-- The handle names no instruction of the routine. -/
  | staleHandle (handle : Handle)
  /-- A line was recorded before the last recorded position. -/
  | positionDecreases
  /-- A sum leaves the range of its words. -/
  | overflow
  deriving DecidableEq

def Fault.message : Fault → String
  | staleHandle handle => "stale instruction reference " ++ handle.describe
  | positionDecreases => "line table positions must not decrease"
  | overflow => "attempt to add with overflow"

/-- Why an operation on a whole routine has no result. -/
inductive Failure where
  /-- The routine is defective. -/
  | defect (defect : Defect)
  /-- A promise was broken. -/
  | fault (fault : Fault)
  deriving DecidableEq

end StackAssembler
