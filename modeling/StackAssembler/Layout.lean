import StackAssembler.Flow
import StackAssembler.Routine.Edit

/-!
# Layout

Before code is encoded, its markers go away.  Jumps to labels become jumps by
a distance in code units, counted from the end of the jump.  Line markers go to
the line table; a cue leaves a suspend point in its place.
-/

namespace StackAssembler

namespace Layout

/-- The distance from the end of a jump to the marker of its label. -/
def distance (code : List Instr) (position : Nat) (instr : Instr)
    (label : Label) : Except Defect Int32 :=
  match Flow.labelIndex? code label with
  | none => .error (.danglingLabel label)
  | some index =>
      .ok (Int32.ofInt (Flow.position code index - (position + instr.size)))

/-- Give an instruction at a code position its distance, if it names a
label. -/
def resolveInstr (code : List Instr) (position : Nat) (instr : Instr) :
    Except Defect Instr :=
  match instr.jumpLabel? with
  | none => .ok instr
  | some label => do
      let distance ← distance code position instr label
      return (instr.retarget? (.offset distance)).getD instr

/-- Give the instructions from a code position on their distances. -/
def resolveFrom (code : List Instr) :
    Nat → List Instr → Except Defect (List Instr)
  | _, [] => .ok []
  | position, instr :: rest => do
      let resolved ← resolveInstr code position instr
      let others ← resolveFrom code (position + instr.size) rest
      return resolved :: others

/-- Give all jumps of a run their distances. -/
def resolve (code : List Instr) : Except Defect (List Instr) :=
  match Flow.repeatedLabel? code with
  | some label => .error (.duplicateLabel label)
  | none => resolveFrom code 0 code

def recordLines : LineTable → Nat → List Instr → Except Fault LineTable
  | table, _, [] => .ok table
  | table, position, instr :: rest =>
      match instr with
      | .line pos _ => do
          let table ← table.record position pos
          recordLines table (position + instr.size) rest
      | _ => recordLines table (position + instr.size) rest

def isLine : Instr → Bool
  | .line .. => true
  | _ => false

/-- A line marker that leaves nothing in the code. -/
def vanishes : Instr → Bool
  | .line _ cue => !cue
  | _ => false

/-- What a line marker leaves in the code. -/
def settleLine : Instr → Instr
  | .line .. => .suspend
  | instr => instr

end Layout

namespace Routine

open Layout

/-- Give all jumps their distances.  The result is the number of jumps that
named a label; a defect leaves the routine as it was. -/
def resolveJumps (routine : Routine) : Except Defect (Nat × Routine) := do
  let code ← resolve routine.instrs
  return (routine.instrs.countP (·.jumpLabel?.isSome),
    routine.withInstrs code)

/-- Move all line markers to a new line table.  The result is the number of
markers. -/
def collectLines (routine : Routine) : Except Fault (Nat × Routine) := do
  let lines ← recordLines {} 0 routine.instrs
  return (routine.instrs.countP isLine,
    { (routine.retain fun entry => !vanishes entry.instr).mapInstrs
        settleLine with lines })

def dropJitEntries (routine : Routine) : Routine :=
  routine.retain fun entry => !entry.instr.isJitEntry

end Routine

end StackAssembler
