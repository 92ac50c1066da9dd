import StackAssembler.Location

/-!
# Sets of slots

A finite set of slots, kept as its elements in increasing order.  A set has
only one such list, so sets with the same elements are equal.
-/

namespace StackAssembler

/-- A finite set of slots. -/
structure SlotSet where
  /-- The elements in increasing order. -/
  toList : List Slot := []
  deriving DecidableEq

namespace SlotSet

/-- Put a slot into an increasing list, unless it is there. -/
def insertSorted (slot : Slot) : List Slot → List Slot
  | [] => [slot]
  | other :: rest =>
      if slot < other then slot :: other :: rest
      else if slot = other then other :: rest
      else other :: insertSorted slot rest

def insert (set : SlotSet) (slot : Slot) : SlotSet :=
  ⟨insertSorted slot set.toList⟩

def insertAll (set : SlotSet) (slots : List Slot) : SlotSet :=
  slots.foldl insert set

def contains (set : SlotSet) (slot : Slot) : Bool :=
  slot ∈ set.toList

def text (set : SlotSet) : String :=
  Text.bracketed (set.toList.map toString)

end SlotSet

end StackAssembler
