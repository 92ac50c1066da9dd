import StackAssembler.Instr.Basic

/-!
# Operand shapes

The shape of an instruction says which operands it has and how they are
packed.  It alone decides how many 32-bit code units the instruction occupies.
-/

namespace StackAssembler

/-- The layout of an instruction's operands.  `word` is 16 bits, `dword` 32,
`qword` 64; a `read` or `write` operand is a slot. -/
inductive Shape where
  | marker
  | noArg
  | word
  | writeVar
  | readVar
  | dword
  | readVarDword
  | qword
  | dwordDword
  | writeReadRead
  | writeVarQword
  | writeRead
  | writeVarDword
  | writeReadDword
  | readRead
  | wordReadVar
  | writeVarWord
  | wordDword
  deriving DecidableEq

namespace Shape

def size : Shape → Nat
  | marker => 0
  | noArg | word | writeVar | readVar => 1
  | dword | readVarDword | writeReadRead | writeRead | writeVarDword
  | readRead | wordReadVar | writeVarWord | wordDword => 2
  | qword | dwordDword | writeVarQword | writeReadDword => 3

def name : Shape → String
  | marker => "Marker"
  | noArg => "NoArg"
  | word => "Word"
  | writeVar => "WriteVar"
  | readVar => "ReadVar"
  | dword => "Dword"
  | readVarDword => "ReadVarDword"
  | qword => "Qword"
  | dwordDword => "DwordDword"
  | writeReadRead => "WriteReadRead"
  | writeVarQword => "WriteVarQword"
  | writeRead => "WriteRead"
  | writeVarDword => "WriteVarDword"
  | writeReadDword => "WriteReadDword"
  | readRead => "ReadRead"
  | wordReadVar => "WordReadVar"
  | writeVarWord => "WriteVarWord"
  | wordDword => "WordDword"

end Shape

namespace Instr

/-- The shape of an instruction.  A line marker has room for a suspend point
exactly if it is a cue. -/
def shape : Instr → Shape
  | label _ => .marker
  | line _ cue => if cue then .noArg else .marker
  | pushRegPtr | popRegPtr | swap4 | readStack4 | readStack8 | chkRefS
  | chkRef | incI | decI | test _ | suspend => .noArg
  | pop _ | push _ | pushStackAddr _ | pushGlobal _ | pushString _ | getRef _
  | loadGlobal _ | ret _ | jitEntry _ => .word
  | copyRegToVar4 _ | readReg4 _ => .writeVar
  | pushVar _ | pushFrameAddr _ | pushVarRef _ | chkNullV _ | copyVarToReg4 _
  | loadVar _ | writeVar4 _ | incVi _ | decVi _ | unary .. | jumpPtr .. =>
      .readVar
  | pushConst _ | jump _ | branch .. | call .. => .dword
  | cmpImm .. => .readVarDword
  | pushConst8 _ => .qword
  | alloc .. => .dwordDword
  | binOp .. => .writeReadRead
  | setVar8 .. => .writeVarQword
  | copyVar4 .. => .writeRead
  | setVar4 .. => .writeVarDword
  | binOpImm .. => .writeReadDword
  | cmp .. => .readRead
  | copyVarToGlobal4 .. => .wordReadVar
  | copyGlobalToVar4 .. | loadGlobalReadReg4 .. => .writeVarWord
  | setGlobal4 .. => .wordDword

def size (instr : Instr) : Nat :=
  instr.shape.size

def codeSize : List Instr → Nat
  | [] => 0
  | instr :: rest => instr.size + codeSize rest

end Instr

end StackAssembler
