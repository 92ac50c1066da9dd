/-!
# Handles

A handle names one instruction of a routine.  It holds a place in the handle
pool and the generation of that place.  Retiring a handle starts the next
generation of its place, so the retired handle differs from the one issued for
the same place afterwards.

Places are numbered without a limit.  A new place is taken only if none is
vacant, so 32-bit words are enough for a routine that never holds more than
2 ^ 32 instructions.
-/

namespace StackAssembler

/-- The name of an instruction in a routine. -/
structure Handle where
  index : Nat
  generation : UInt32
  deriving DecidableEq

namespace Handle

/-- Handles are ordered by place, then by generation. -/
def order (first second : Handle) : Ordering :=
  (compare first.index second.index).then
    (compare first.generation second.generation)

def describe (handle : Handle) : String :=
  "InstrRef \x7b index: " ++ toString handle.index ++ ", generation: " ++
    toString handle.generation ++ " \x7d"

end Handle

/-- The places of a routine's handles.  Vacant places are listed with the last
vacated one first. -/
structure HandlePool where
  generations : Array UInt32 := #[]
  vacant : List Nat := []
  deriving DecidableEq

namespace HandlePool

/-- Issue a handle: for the last vacated place, or for a new one. -/
def issue (pool : HandlePool) : Handle × HandlePool :=
  match pool.vacant with
  | index :: vacant =>
      (⟨index, pool.generations.getD index 0⟩, { pool with vacant })
  | [] =>
      (⟨pool.generations.size, 0⟩,
        { pool with generations := pool.generations.push 0 })

/-- Retire a handle: its place is vacated and starts its next generation. -/
def retire (pool : HandlePool) (handle : Handle) : HandlePool where
  generations := pool.generations.modify handle.index (· + 1)
  vacant := handle.index :: pool.vacant

def retireAll (pool : HandlePool) (handles : List Handle) : HandlePool :=
  handles.foldl retire pool

end HandlePool

end StackAssembler
