import StackAssembler.Location
import StackAssembler.Operation

/-!
# Instructions

The instruction set of the machine: a stack of 32-bit units, a frame of slots,
globals, and one value register.  Labels and line markers stand among the
instructions and never reach the encoded code.
-/

namespace StackAssembler

/-- One instruction of a routine. -/
inductive Instr where
  /-- A jump destination; it occupies no code. -/
  | label (name : Label)
  /-- A source position.  With `cue` it holds the place of a suspend point. -/
  | line (pos : SourcePos) (cue : Bool)
  /-- Discard `count` units. -/
  | pop (count : UInt16)
  /-- Reserve `count` units. -/
  | push (count : UInt16)
  | pushConst (value : UInt32)
  | pushConst8 (value : UInt64)
  /-- Push the value of a slot. -/
  | pushVar (slot : Slot)
  /-- Push the address of a slot. -/
  | pushFrameAddr (slot : Slot)
  /-- Push the address of the slot at a distance from the stack's top.  The
  depth analysis replaces it by a frame address. -/
  | pushStackAddr (distance : Slot)
  /-- Push a reference held in a slot. -/
  | pushVarRef (slot : Slot)
  | pushGlobal (global : Global)
  /-- Push the register as a pointer. -/
  | pushRegPtr
  /-- Pop a pointer into the register. -/
  | popRegPtr
  /-- Push the address and the length of a string constant. -/
  | pushString (index : UInt16)
  /-- Exchange the two top units. -/
  | swap4
  /-- Replace the pointer on top by the unit that it points to. -/
  | readStack4
  /-- Replace the pointer on top by the two units that it points to. -/
  | readStack8
  /-- Dereference the slot address that lies `depth` units down. -/
  | getRef (depth : UInt16)
  /-- Check the pointer that the top points to. -/
  | chkRefS
  /-- Check the pointer on top. -/
  | chkRef
  /-- Check the pointer in a slot. -/
  | chkNullV (slot : Slot)
  | setVar4 (dst : Slot) (value : UInt32)
  | setVar8 (dst : Slot) (value : UInt64)
  | copyVar4 (dst src : Slot)
  | copyVarToReg4 (slot : Slot)
  | copyRegToVar4 (slot : Slot)
  | copyVarToGlobal4 (global : Global) (src : Slot)
  | copyGlobalToVar4 (dst : Slot) (global : Global)
  /-- Load the address of a global into the register and its value into a
  slot. -/
  | loadGlobalReadReg4 (dst : Slot) (global : Global)
  | setGlobal4 (global : Global) (value : UInt32)
  /-- Load the address of a global into the register. -/
  | loadGlobal (global : Global)
  /-- Load the address of a slot into the register. -/
  | loadVar (slot : Slot)
  /-- Write a slot through the address in the register. -/
  | writeVar4 (slot : Slot)
  /-- Read through the address in the register into a slot. -/
  | readReg4 (slot : Slot)
  | incVi (slot : Slot)
  | decVi (slot : Slot)
  /-- Increment the integer that the register points to. -/
  | incI
  /-- Decrement the integer that the register points to. -/
  | decI
  | unary (op : UnaryOp) (slot : Slot)
  | binOp (op : ArithOp) (dst lhs rhs : Slot)
  | binOpImm (op : ImmOp) (dst lhs : Slot) (imm : UInt32)
  /-- Compare two slots, with the result in the register. -/
  | cmp (kind : CmpKind) (lhs rhs : Slot)
  | cmpImm (kind : ImmCmpKind) (lhs : Slot) (imm : UInt32)
  /-- Replace the register by one if it meets the condition, else by zero. -/
  | test (cond : Condition)
  | jump (target : Target)
  /-- Jump if the register meets the condition. -/
  | branch (cond : Condition) (target : Target)
  /-- Jump into the `fanOut` instructions that follow, chosen by a slot. -/
  | jumpPtr (slot : Slot) (fanOut : UInt32)
  | call (kind : CallKind) (func : UInt32) (pop : UInt16)
  /-- Allocate an object and run its constructor. -/
  | alloc (typeId func : UInt32) (pop : UInt16)
  | ret (count : UInt16)
  /-- A point where execution may be handed over. -/
  | suspend
  /-- A point where compiled code may hand back to the interpreter. -/
  | jitEntry (index : UInt16)

namespace Instr

/-- Labels and line markers, which have no encoding. -/
def isMarker : Instr → Bool
  | label _ | line .. => true
  | _ => false

/-- Instructions that may continue elsewhere than at their successor. -/
def isJump : Instr → Bool
  | jump _ | branch .. | jumpPtr .. => true
  | _ => false

/-- Instructions that no value may be moved across. -/
def isBarrier : Instr → Bool
  | label _ => true
  | instr => instr.isJump

def isJitEntry : Instr → Bool
  | jitEntry _ => true
  | _ => false

def isSwap : Instr → Bool
  | swap4 => true
  | _ => false

def marks? : Instr → Option Label
  | label name => some name
  | _ => none

def target? : Instr → Option Target
  | jump target | branch _ target => some target
  | _ => none

/-- The label that a jump or branch still names. -/
def jumpLabel? (instr : Instr) : Option Label :=
  instr.target?.bind Target.label?

def retarget? (instr : Instr) (target : Target) : Option Instr :=
  match instr with
  | jump _ => some (jump target)
  | branch cond _ => some (branch cond target)
  | _ => none

/-- Set the cue of a line marker; other instructions are unchanged. -/
def withCue (instr : Instr) (cue : Bool) : Instr :=
  match instr with
  | line pos _ => line pos cue
  | instr => instr

end Instr

end StackAssembler
