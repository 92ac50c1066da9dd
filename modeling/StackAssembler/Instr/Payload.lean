import StackAssembler.Instr.Basic

/-!
# Operand payloads

The operands of an instruction as plain bits: up to three 16-bit words and a
wide part.  The shape of the instruction says which of them are in use.
-/

namespace StackAssembler

/-- The operand bits of an instruction.  The wide part holds one 32-bit value
in its low half, one 64-bit value, or two 32-bit values with the first in the
low half. -/
structure Payload where
  first : UInt16 := 0
  second : UInt16 := 0
  third : UInt16 := 0
  wide : UInt64 := 0
  deriving DecidableEq

namespace Target

/-- The 32 bits of a target: a label's number, or the distance in two's
complement. -/
def bits : Target → UInt32
  | label name => name.id
  | offset distance => distance.toUInt32

end Target

namespace Instr

/-- The operand bits of an instruction, in the order in which its shape packs
them. -/
def payload : Instr → Payload
  | pop n | push n | pushGlobal n | pushString n | getRef n | loadGlobal n
  | ret n | jitEntry n => { first := n }
  | pushStackAddr v | pushVar v | pushFrameAddr v | pushVarRef v | chkNullV v
  | copyVarToReg4 v | copyRegToVar4 v | loadVar v | writeVar4 v | readReg4 v
  | incVi v | decVi v | unary _ v | jumpPtr v _ => { first := v.toUInt16 }
  | pushConst value => { wide := value.toUInt64 }
  | pushConst8 value => { wide := value }
  | jump target | branch _ target => { wide := target.bits.toUInt64 }
  | call _ func _ => { wide := func.toUInt64 }
  | alloc typeId func _ =>
      { wide := typeId.toUInt64 ||| (func.toUInt64 <<< 32) }
  | setVar4 dst value => { first := dst.toUInt16, wide := value.toUInt64 }
  | setVar8 dst value => { first := dst.toUInt16, wide := value }
  | copyVar4 dst src => { first := dst.toUInt16, second := src.toUInt16 }
  | copyVarToGlobal4 global src =>
      { first := global, second := src.toUInt16 }
  | copyGlobalToVar4 dst global | loadGlobalReadReg4 dst global =>
      { first := dst.toUInt16, second := global }
  | setGlobal4 global value => { first := global, wide := value.toUInt64 }
  | binOp _ dst lhs rhs =>
      { first := dst.toUInt16
        second := lhs.toUInt16
        third := rhs.toUInt16 }
  | binOpImm _ dst lhs imm =>
      { first := dst.toUInt16
        second := lhs.toUInt16
        wide := imm.toUInt64 }
  | cmp _ lhs rhs => { first := lhs.toUInt16, second := rhs.toUInt16 }
  | cmpImm _ lhs imm => { first := lhs.toUInt16, wide := imm.toUInt64 }
  | label _ | line .. | pushRegPtr | popRegPtr | swap4 | readStack4
  | readStack8 | chkRefS | chkRef | incI | decI | test _ | suspend => {}

end Instr

end StackAssembler
