import StackAssembler.Liveness
import StackAssembler.Window.Patch

/-!
# Window rules

The rules look at the first instructions of a window and propose a patch.
Rules about slots need a temporary whose value is not read again behind the
window.  Rules about the register need to know whether its value is used on the
straight line behind the window.
-/

namespace StackAssembler

namespace Window

open Liveness

/-- What the rules may ask about the code around a window. -/
structure Scope where
  /-- Whether a slot is a temporary that is not read on the paths that start
  with the given code. -/
  dead : Slot → List Instr → Bool
  /-- Whether entry points of compiled code are kept. -/
  keepJitEntries : Bool

/-- The patch for a write that nobody reads.  If the write also loads the
register, and the register is used, only the load is kept. -/
def dropWrite (used : Bool) (instr : Instr) : Patch :=
  match instr with
  | .loadGlobalReadReg4 _ global =>
      if used then [some (.loadGlobal global)] else [none]
  | _ => [none]

/-- Two instructions that hand a value over in a slot, where `dead` says which
slots are not needed behind them: a constant goes into its consumer, a result
goes directly to the copy's destination, and a way there and back goes away. -/
def forward (dead : Slot → Bool) : Instr → Instr → Option Patch
  | .setVar4 slot value, .cmp kind lhs rhs =>
      match kind.immediate? with
      | none => none
      | some kind =>
          if rhs = slot ∧ lhs ≠ slot ∧ dead slot then
            some [none, some (.cmpImm kind lhs value)]
          else none
  | .setVar4 slot value, .binOp op dst lhs rhs =>
      match op.immediate? with
      | none => none
      | some imm =>
          if dst = slot ∨ dead slot then
            if rhs = slot ∧ lhs ≠ slot then
              some [none, some (.binOpImm imm dst lhs value)]
            else if lhs = slot ∧ rhs ≠ slot ∧ op.commutes then
              some [none, some (.binOpImm imm dst rhs value)]
            else none
          else none
  | .binOp op slot lhs rhs, .copyVar4 dst src =>
      if src = slot ∧ dead slot then
        some [some (.binOp op dst lhs rhs), none]
      else none
  | .binOpImm op slot lhs imm, .copyVar4 dst src =>
      if src = slot ∧ dead slot then
        some [some (.binOpImm op dst lhs imm), none]
      else none
  | .setVar4 slot value, .copyVar4 dst src =>
      if src = slot ∧ dead slot then some [some (.setVar4 dst value), none]
      else none
  | .copyRegToVar4 slot, .copyVarToReg4 src =>
      if src = slot ∧ dead slot then some [none, none] else none
  | .copyGlobalToVar4 slot global, .pushVar src =>
      if src = slot ∧ dead slot then some [none, some (.pushGlobal global)]
      else none
  | .setVar4 slot value, .pushVar src =>
      if src = slot ∧ dead slot then some [none, some (.pushConst value)]
      else none
  | .setVar4 slot value, .copyVarToGlobal4 global src =>
      if src = slot ∧ dead slot then
        some [none, some (.setGlobal4 global value)]
      else none
  | _, _ => none

/-- Remove a write that nobody reads, or hand its value over. -/
def unusedValue (scope : Scope) : List Instr → Option Patch
  | [] => none
  | first :: rest =>
      if first.access.write?.any (scope.dead · rest) then
        some (dropWrite (registerUsed rest) first)
      else
        match rest with
        | [] => none
        | second :: rest => forward (scope.dead · rest) first second

/-- Checkpoints around an entry point collapse, and null checks look at a slot
instead of the stack. -/
def checks : List Instr → Option Patch
  | .suspend :: .jitEntry _ :: .suspend :: _ => some [none, none]
  | .line .. :: .jitEntry _ :: .line .. :: _ => some [none, none]
  | .pushFrameAddr slot :: .chkRefS :: .readStack4 :: _ =>
      some [some (.pushVar slot), some .chkRef, none]
  | .pushFrameAddr slot :: .chkRefS :: .pop count :: _ =>
      if 1 ≤ count then
        some [some (.chkNullV slot), none, some (.pop (count - 1))]
      else none
  | .pushVar slot :: .chkRef :: .pop count :: _ =>
      if 1 ≤ count then
        some [some (.chkNullV slot), none, some (.pop (count - 1))]
      else none
  | _ => none

/-- Instructions that have no effect of their own. -/
def idle (keepJitEntries : Bool) : Instr → Bool
  | .jitEntry _ => !keepJitEntries
  | .pop count | .push count => count = 0
  | _ => false

/-- What is pushed and then discarded need not be pushed. -/
def discard (first : Instr) (count : UInt16) : Option Patch :=
  match first with
  | .pushVar _ | .pushConst _ | .pushRegPtr | .pushFrameAddr _
  | .pushVarRef _ =>
      if 1 ≤ count then some [none, some (.pop (count - 1))] else none
  | .pushConst8 _ =>
      if 1 < count then some [none, some (.pop (count - 2))] else none
  | .readStack4 =>
      if 1 ≤ count then some [none, some (.pop count)] else none
  | .readStack8 =>
      if 1 < count then some [none, some (.pop (count - 1))] else none
  | _ => none

/-- Two instructions that meet in the register, which may be used behind them.
Only a load of a global and a read through it may leave it in use. -/
def throughRegister (used : Bool) : Instr → Instr → Option Patch
  | .loadGlobal global, .writeVar4 src =>
      if used then none
      else some [some (.copyVarToGlobal4 global src), none]
  | .loadGlobal global, .readReg4 dst =>
      if used then
        some [some (.loadGlobalReadReg4 dst global), none]
      else some [some (.copyGlobalToVar4 dst global), none]
  | .loadVar slot, .incI =>
      if used then none else some [some (.incVi slot), none]
  | .loadVar slot, .decI =>
      if used then none else some [some (.decVi slot), none]
  | .test cond, .branch .zero target =>
      if used then none
      else some [none, some (.branch cond.negate target)]
  | .test cond, .branch .notZero target =>
      if used then none
      else some [none, some (.branch cond target)]
  | _, _ => none

/-- Two instructions that one can stand for, whatever surrounds them. -/
def merge : Instr → Instr → Option Patch
  | .pushFrameAddr slot, .readStack4 => some [some (.pushVar slot), none]
  | .push first, .push second =>
      if first.toNat + second.toNat < 65536 then
        some [some (.push (first + second)), none]
      else none
  | .pushConst value, .getRef depth =>
      if depth = 0 then
        match Slot.ofInt? value.toInt32.toInt with
        | some slot => some [some (.pushFrameAddr slot), none]
        | none => none
      else none
  | .pop _, .ret count => some [none, some (.ret count)]
  | .suspend, .suspend => some [none, some .suspend]
  | .line .., .line pos cue => some [none, some (.line pos cue)]
  | .jump (.label dest), .label label =>
      if dest = label then some [none, some (.label label)] else none
  | _, _ => none

/-- Two instructions that become one, where the register may be used behind
them. -/
def fuse (used : Bool) (first second : Instr) : Option Patch :=
  match second with
  | .pop count => discard first count
  | second => (throughRegister used first second).or (merge first second)

/-- Remove an instruction without an effect, or fuse two. -/
def simplify (scope : Scope) : List Instr → Option Patch
  | [] => none
  | first :: rest =>
      if idle scope.keepJitEntries first then some [none]
      else
        match rest with
        | [] => none
        | second :: rest => fuse (registerUsed rest) first second

end Window

end StackAssembler
