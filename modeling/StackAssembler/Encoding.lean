import StackAssembler.Defect
import StackAssembler.Instr.Payload
import StackAssembler.Instr.Shape
import StackAssembler.Instr.Text

/-!
# Encoding

An instruction is encoded as one to three 32-bit units.  The first unit holds
the opcode in its low byte and the first operand word in its high half.  The
shape says which units follow: the other two words together, or the halves of
the wide part.
-/

namespace StackAssembler

namespace Instr

/-- Two 16-bit words in one unit, the first in the low half. -/
def packWords (low high : UInt16) : UInt32 :=
  low.toUInt32 ||| (high.toUInt32 <<< 16)

/-- The units of an instruction with an opcode. -/
def pack (shape : Shape) (opcode : Opcode) (payload : Payload) :
    List UInt32 :=
  let first := packWords opcode.byte.toUInt16 payload.first
  let words := packWords payload.second payload.third
  let low := payload.wide.toUInt32
  let high := (payload.wide >>> 32).toUInt32
  match shape with
  | .marker => []
  | .noArg | .word | .writeVar | .readVar => [first]
  | .dword | .readVarDword | .writeVarDword | .wordDword => [first, low]
  | .qword | .dwordDword | .writeVarQword => [first, low, high]
  | .writeReadRead | .writeRead | .readRead | .wordReadVar | .writeVarWord =>
      [first, words]
  | .writeReadDword => [first, words, low]

/-- The units of an instruction.  Labels have none; a line marker cannot be
encoded. -/
def units (instr : Instr) : Except Defect (List UInt32) :=
  match instr, instr.opcode? with
  | line .., _ => .error (.unexpectedMarker instr.text)
  | _, none => .ok []
  | _, some opcode => .ok (pack instr.shape opcode instr.payload)

end Instr

/-- Encoded code and the positions of its entry points. -/
structure Encoded where
  code : List UInt32
  jitEntries : List Nat
  deriving DecidableEq

namespace Encoded

/-- Encode instructions one after the other, behind the given code. -/
def ofInstrs (encoded : Encoded) : List Instr → Except Defect Encoded
  | [] => .ok encoded
  | instr :: rest =>
      match instr.jumpLabel? with
      | some label => .error (.unresolvedJump label)
      | none => do
          let units ← instr.units
          ofInstrs
            { code := encoded.code ++ units
              jitEntries :=
                if instr.isJitEntry then
                  encoded.jitEntries ++ [encoded.code.length]
                else encoded.jitEntries }
            rest

end Encoded

namespace Instr

def encode (code : List Instr) : Except Defect Encoded := do
  let encoded ← Encoded.ofInstrs ⟨[], []⟩ code
  if encoded.code.length = codeSize code then return encoded
  else throw (.sizeMismatch encoded.code.length (codeSize code))

end Instr

end StackAssembler
