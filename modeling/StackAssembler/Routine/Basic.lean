import StackAssembler.Instr.Access
import StackAssembler.Instr.Shape
import StackAssembler.LineTable
import StackAssembler.SlotSet

/-!
# Routines

A routine is a sequence of instructions under construction.  Instructions are
addressed by handles: a handle stays valid while its instruction is moved or
replaced, and is refused as stale once the instruction is removed.  The routine
also carries the slots that hold temporaries, the line table that belongs to
its code, and the greatest stack depth found by the depth analysis.
-/

namespace StackAssembler

/-- One instruction of a routine, with its handle and the stack depth before
it, once that is known. -/
structure Entry where
  handle : Handle
  instr : Instr
  depth : Option Int := none

/-- A sequence of instructions under construction. -/
structure Routine where
  entries : List Entry := []
  pool : HandlePool := {}
  temporaries : SlotSet := {}
  lines : LineTable := {}
  maxDepth : Nat := 0

namespace Routine

def instrs (routine : Routine) : List Instr :=
  routine.entries.map (·.instr)

def handles (routine : Routine) : List Handle :=
  routine.entries.map (·.handle)

def codeSize (routine : Routine) : Nat :=
  Instr.codeSize routine.instrs

/-- Split a sequence of entries at a handle into what stands before it, its
entry, and what stands after it. -/
def splitAt? (handle : Handle) :
    List Entry → Option (List Entry × Entry × List Entry)
  | [] => none
  | entry :: rest =>
      if entry.handle = handle then some ([], entry, rest)
      else
        (splitAt? handle rest).map fun (before, found, after) =>
          (entry :: before, found, after)

/-- Split a routine's entries at a handle, which must not be stale. -/
def locate (routine : Routine) (handle : Handle) :
    Except Fault (List Entry × Entry × List Entry) :=
  match splitAt? handle routine.entries with
  | some split => .ok split
  | none => .error (.staleHandle handle)

/-- The entry of a handle that is not stale. -/
def entry? (routine : Routine) (handle : Handle) : Option Entry :=
  (splitAt? handle routine.entries).map (·.2.1)

def head? (routine : Routine) : Option Handle :=
  routine.handles.head?

def last? (routine : Routine) : Option Handle :=
  routine.handles.getLast?

def next (routine : Routine) (handle : Handle) :
    Except Fault (Option Handle) := do
  let (_, _, after) ← routine.locate handle
  return after.head?.map (·.handle)

def previous (routine : Routine) (handle : Handle) :
    Except Fault (Option Handle) := do
  let (before, _, _) ← routine.locate handle
  return before.getLast?.map (·.handle)

def instrAt (routine : Routine) (handle : Handle) : Except Fault Instr := do
  let (_, entry, _) ← routine.locate handle
  return entry.instr

/-- The stack depth before an instruction, once it is known. -/
def depthAt (routine : Routine) (handle : Handle) :
    Except Fault (Option Int) := do
  let (_, entry, _) ← routine.locate handle
  return entry.depth

def markTemporary (routine : Routine) (slot : Slot) : Routine :=
  { routine with temporaries := routine.temporaries.insert slot }

def isTemporary (routine : Routine) (slot : Slot) : Bool :=
  routine.temporaries.contains slot

def slotsUsed (routine : Routine) : SlotSet :=
  SlotSet.insertAll {} (routine.instrs.flatMap (·.access.slots))

def usesSlot (routine : Routine) (slot : Slot) : Bool :=
  routine.instrs.any fun instr =>
    instr.access.writes slot || instr.access.reads slot

end Routine

/-- A routine in which every handle names one instruction. -/
structure NamedRoutine extends Routine where
  nodup_handles : toRoutine.handles.Nodup

end StackAssembler
