import StackAssembler.Instr.Basic

/-!
# Opcodes

Each encoded instruction starts with an opcode byte.  An opcode fixes the
operation and the kind of every operand, so the byte alone tells how the rest
of the instruction is laid out.  One table gives the byte and the two names of
every opcode.
-/

namespace StackAssembler

/-- The operation of an encoded instruction. -/
inductive Opcode where
  | pop | push | pshC4 | pshC8 | pshV4 | psf | psp | var | pshG4 | pshRPtr
  | popRPtr | str | swap4 | rds4 | rds8 | getRef | chkRefS | chkRef
  | chkNullV | setV4 | setV8 | cpyVtoV4 | cpyVtoR4 | cpyRtoV4 | cpyVtoG4
  | cpyGtoV4 | ldGRdR4 | setG4 | ldg | ldv | wrtV4 | rdr4 | incVi | decVi
  | incI | decI | not | negI | negF | bNot | addI | subI | mulI | divI | modI
  | addF | subF | mulF | divF | modF | bAnd | bOr | bXor | bSll | bSrl | bSra
  | addIi | subIi | mulIi | addIf | subIf | mulIf | cmpI | cmpU | cmpF | cmpD
  | cmpIi | cmpIu | cmpIf | tz | tnz | ts | tns | tp | tnp | jmp | jz | jnz
  | js | jns | jp | jnp | jmpP | call | callSys | callBnd | callIntf | alloc
  | ret | suspend | jitEntry
  deriving DecidableEq

namespace Opcode

/-- What is fixed for an opcode: its byte, its symbolic name, and its mnemonic
in assembly text. -/
structure Row where
  byte : UInt8
  name : String
  mnemonic : String

/-- The table of opcodes. -/
def row : Opcode → Row
  | pop => ⟨0x01, "Pop", "POP"⟩
  | push => ⟨0x02, "Push", "PUSH"⟩
  | pshC4 => ⟨0x03, "PshC4", "PshC4"⟩
  | pshC8 => ⟨0x04, "PshC8", "PshC8"⟩
  | pshV4 => ⟨0x05, "PshV4", "PshV4"⟩
  | psf => ⟨0x06, "Psf", "PSF"⟩
  | psp => ⟨0x07, "Psp", "PSP"⟩
  | var => ⟨0x08, "Var", "VAR"⟩
  | pshG4 => ⟨0x09, "PshG4", "PshG4"⟩
  | pshRPtr => ⟨0x0a, "PshRPtr", "PshRPtr"⟩
  | popRPtr => ⟨0x0b, "PopRPtr", "PopRPtr"⟩
  | str => ⟨0x0c, "Str", "STR"⟩
  | swap4 => ⟨0x0d, "Swap4", "SWAP4"⟩
  | rds4 => ⟨0x0e, "Rds4", "RDS4"⟩
  | rds8 => ⟨0x0f, "Rds8", "RDS8"⟩
  | getRef => ⟨0x10, "GetRef", "GETREF"⟩
  | chkRefS => ⟨0x11, "ChkRefS", "ChkRefS"⟩
  | chkRef => ⟨0x12, "ChkRef", "CHKREF"⟩
  | chkNullV => ⟨0x13, "ChkNullV", "ChkNullV"⟩
  | setV4 => ⟨0x20, "SetV4", "SetV4"⟩
  | setV8 => ⟨0x21, "SetV8", "SetV8"⟩
  | cpyVtoV4 => ⟨0x22, "CpyVtoV4", "CpyVtoV4"⟩
  | cpyVtoR4 => ⟨0x23, "CpyVtoR4", "CpyVtoR4"⟩
  | cpyRtoV4 => ⟨0x24, "CpyRtoV4", "CpyRtoV4"⟩
  | cpyVtoG4 => ⟨0x25, "CpyVtoG4", "CpyVtoG4"⟩
  | cpyGtoV4 => ⟨0x26, "CpyGtoV4", "CpyGtoV4"⟩
  | ldGRdR4 => ⟨0x27, "LdGRdR4", "LdGRdR4"⟩
  | setG4 => ⟨0x28, "SetG4", "SetG4"⟩
  | ldg => ⟨0x29, "Ldg", "LDG"⟩
  | ldv => ⟨0x2a, "Ldv", "LDV"⟩
  | wrtV4 => ⟨0x2b, "WrtV4", "WRTV4"⟩
  | rdr4 => ⟨0x2c, "Rdr4", "RDR4"⟩
  | incVi => ⟨0x2d, "IncVi", "IncVi"⟩
  | decVi => ⟨0x2e, "DecVi", "DecVi"⟩
  | incI => ⟨0x2f, "IncI", "INCi"⟩
  | decI => ⟨0x30, "DecI", "DECi"⟩
  | not => ⟨0x38, "Not", "NOT"⟩
  | negI => ⟨0x39, "NegI", "NEGi"⟩
  | negF => ⟨0x3a, "NegF", "NEGf"⟩
  | bNot => ⟨0x3b, "BNot", "BNOT"⟩
  | addI => ⟨0x40, "AddI", "ADDi"⟩
  | subI => ⟨0x41, "SubI", "SUBi"⟩
  | mulI => ⟨0x42, "MulI", "MULi"⟩
  | divI => ⟨0x43, "DivI", "DIVi"⟩
  | modI => ⟨0x44, "ModI", "MODi"⟩
  | addF => ⟨0x45, "AddF", "ADDf"⟩
  | subF => ⟨0x46, "SubF", "SUBf"⟩
  | mulF => ⟨0x47, "MulF", "MULf"⟩
  | divF => ⟨0x48, "DivF", "DIVf"⟩
  | modF => ⟨0x49, "ModF", "MODf"⟩
  | bAnd => ⟨0x4a, "BAnd", "BAND"⟩
  | bOr => ⟨0x4b, "BOr", "BOR"⟩
  | bXor => ⟨0x4c, "BXor", "BXOR"⟩
  | bSll => ⟨0x4d, "BSll", "BSLL"⟩
  | bSrl => ⟨0x4e, "BSrl", "BSRL"⟩
  | bSra => ⟨0x4f, "BSra", "BSRA"⟩
  | addIi => ⟨0x50, "AddIi", "ADDIi"⟩
  | subIi => ⟨0x51, "SubIi", "SUBIi"⟩
  | mulIi => ⟨0x52, "MulIi", "MULIi"⟩
  | addIf => ⟨0x53, "AddIf", "ADDIf"⟩
  | subIf => ⟨0x54, "SubIf", "SUBIf"⟩
  | mulIf => ⟨0x55, "MulIf", "MULIf"⟩
  | cmpI => ⟨0x58, "CmpI", "CMPi"⟩
  | cmpU => ⟨0x59, "CmpU", "CMPu"⟩
  | cmpF => ⟨0x5a, "CmpF", "CMPf"⟩
  | cmpD => ⟨0x5b, "CmpD", "CMPd"⟩
  | cmpIi => ⟨0x5c, "CmpIi", "CMPIi"⟩
  | cmpIu => ⟨0x5d, "CmpIu", "CMPIu"⟩
  | cmpIf => ⟨0x5e, "CmpIf", "CMPIf"⟩
  | tz => ⟨0x60, "Tz", "TZ"⟩
  | tnz => ⟨0x61, "Tnz", "TNZ"⟩
  | ts => ⟨0x62, "Ts", "TS"⟩
  | tns => ⟨0x63, "Tns", "TNS"⟩
  | tp => ⟨0x64, "Tp", "TP"⟩
  | tnp => ⟨0x65, "Tnp", "TNP"⟩
  | jmp => ⟨0x70, "Jmp", "JMP"⟩
  | jz => ⟨0x71, "Jz", "JZ"⟩
  | jnz => ⟨0x72, "Jnz", "JNZ"⟩
  | js => ⟨0x73, "Js", "JS"⟩
  | jns => ⟨0x74, "Jns", "JNS"⟩
  | jp => ⟨0x75, "Jp", "JP"⟩
  | jnp => ⟨0x76, "Jnp", "JNP"⟩
  | jmpP => ⟨0x77, "JmpP", "JMPP"⟩
  | call => ⟨0x78, "Call", "CALL"⟩
  | callSys => ⟨0x79, "CallSys", "CALLSYS"⟩
  | callBnd => ⟨0x7a, "CallBnd", "CALLBND"⟩
  | callIntf => ⟨0x7b, "CallIntf", "CALLINTF"⟩
  | alloc => ⟨0x7c, "Alloc", "ALLOC"⟩
  | ret => ⟨0x7d, "Ret", "RET"⟩
  | suspend => ⟨0x7e, "Suspend", "SUSPEND"⟩
  | jitEntry => ⟨0x7f, "JitEntry", "JitEntry"⟩

def byte (opcode : Opcode) : UInt8 := opcode.row.byte

def name (opcode : Opcode) : String := opcode.row.name

def mnemonic (opcode : Opcode) : String := opcode.row.mnemonic

end Opcode

def Condition.testOpcode : Condition → Opcode
  | zero => .tz
  | notZero => .tnz
  | negative => .ts
  | notNegative => .tns
  | positive => .tp
  | notPositive => .tnp

def Condition.branchOpcode : Condition → Opcode
  | zero => .jz
  | notZero => .jnz
  | negative => .js
  | notNegative => .jns
  | positive => .jp
  | notPositive => .jnp

def ArithOp.opcode : ArithOp → Opcode
  | addI => .addI
  | subI => .subI
  | mulI => .mulI
  | divI => .divI
  | modI => .modI
  | addF => .addF
  | subF => .subF
  | mulF => .mulF
  | divF => .divF
  | modF => .modF
  | and => .bAnd
  | or => .bOr
  | xor => .bXor
  | shl => .bSll
  | shr => .bSrl
  | sar => .bSra

def ImmOp.opcode : ImmOp → Opcode
  | addI => .addIi
  | subI => .subIi
  | mulI => .mulIi
  | addF => .addIf
  | subF => .subIf
  | mulF => .mulIf

def UnaryOp.opcode : UnaryOp → Opcode
  | not => .not
  | negI => .negI
  | negF => .negF
  | bitNot => .bNot

def CmpKind.opcode : CmpKind → Opcode
  | int => .cmpI
  | uint => .cmpU
  | float => .cmpF
  | double => .cmpD

def ImmCmpKind.opcode : ImmCmpKind → Opcode
  | int => .cmpIi
  | uint => .cmpIu
  | float => .cmpIf

def CallKind.opcode : CallKind → Opcode
  | script => .call
  | system => .callSys
  | bound => .callBnd
  | interface => .callIntf

/-- The opcode of an instruction; markers have none. -/
def Instr.opcode? : Instr → Option Opcode
  | .label _ | .line .. => none
  | .pop _ => some .pop
  | .push _ => some .push
  | .pushConst _ => some .pshC4
  | .pushConst8 _ => some .pshC8
  | .pushVar _ => some .pshV4
  | .pushFrameAddr _ => some .psf
  | .pushStackAddr _ => some .psp
  | .pushVarRef _ => some .var
  | .pushGlobal _ => some .pshG4
  | .pushRegPtr => some .pshRPtr
  | .popRegPtr => some .popRPtr
  | .pushString _ => some .str
  | .swap4 => some .swap4
  | .readStack4 => some .rds4
  | .readStack8 => some .rds8
  | .getRef _ => some .getRef
  | .chkRefS => some .chkRefS
  | .chkRef => some .chkRef
  | .chkNullV _ => some .chkNullV
  | .setVar4 .. => some .setV4
  | .setVar8 .. => some .setV8
  | .copyVar4 .. => some .cpyVtoV4
  | .copyVarToReg4 _ => some .cpyVtoR4
  | .copyRegToVar4 _ => some .cpyRtoV4
  | .copyVarToGlobal4 .. => some .cpyVtoG4
  | .copyGlobalToVar4 .. => some .cpyGtoV4
  | .loadGlobalReadReg4 .. => some .ldGRdR4
  | .setGlobal4 .. => some .setG4
  | .loadGlobal _ => some .ldg
  | .loadVar _ => some .ldv
  | .writeVar4 _ => some .wrtV4
  | .readReg4 _ => some .rdr4
  | .incVi _ => some .incVi
  | .decVi _ => some .decVi
  | .incI => some .incI
  | .decI => some .decI
  | .unary op _ => some op.opcode
  | .binOp op .. => some op.opcode
  | .binOpImm op .. => some op.opcode
  | .cmp kind .. => some kind.opcode
  | .cmpImm kind .. => some kind.opcode
  | .test cond => some cond.testOpcode
  | .jump _ => some .jmp
  | .branch cond _ => some cond.branchOpcode
  | .jumpPtr .. => some .jmpP
  | .call kind .. => some kind.opcode
  | .alloc .. => some .alloc
  | .ret _ => some .ret
  | .suspend => some .suspend
  | .jitEntry _ => some .jitEntry

end StackAssembler
