import StackAssembler.Instr.Basic

/-!
# Slots and the register

Which slots an instruction reads and writes, which instructions use or replace
the value register, and how an instruction looks after its slots are renamed.
-/

namespace StackAssembler

/-- The slots that one instruction reads and writes.  An instruction writes at
most one slot and reads at most two. -/
structure Access where
  write? : Option Slot
  first? : Option Slot
  second? : Option Slot
  deriving DecidableEq

namespace Access

def none : Access := ⟨.none, .none, .none⟩

def read (slot : Slot) : Access := ⟨.none, some slot, .none⟩

def write (slot : Slot) : Access := ⟨some slot, .none, .none⟩

def reads (access : Access) (slot : Slot) : Bool :=
  access.first? = some slot || access.second? = some slot

def writes (access : Access) (slot : Slot) : Bool :=
  access.write? = some slot

/-- The slots touched, the written one first. -/
def slots (access : Access) : List Slot :=
  access.write?.toList ++ access.first?.toList ++ access.second?.toList

end Access

namespace Instr

/-- The slots that an instruction reads and writes.  Operations that update a
slot in place count as reads of it. -/
def access : Instr → Access
  | pushVar slot | pushFrameAddr slot | pushVarRef slot | chkNullV slot
  | copyVarToReg4 slot | loadVar slot | writeVar4 slot | incVi slot
  | decVi slot | jumpPtr slot _ | copyVarToGlobal4 _ slot | cmpImm _ slot _
  | unary _ slot => .read slot
  | copyRegToVar4 slot | readReg4 slot | setVar4 slot _ | setVar8 slot _
  | copyGlobalToVar4 slot _ | loadGlobalReadReg4 slot _ => .write slot
  | copyVar4 dst src | binOpImm _ dst src _ => ⟨some dst, some src, none⟩
  | binOp _ dst lhs rhs => ⟨some dst, some lhs, some rhs⟩
  | cmp _ lhs rhs => ⟨none, some lhs, some rhs⟩
  | _ => .none

/-- Instructions after which no temporary is needed: a return leaves the
frame, and a suspend point may hand it over. -/
def dropsTemporaries : Instr → Bool
  | ret _ | suspend => true
  | _ => false

/-- Let an instruction that computes a slot from slots compute another one. -/
def redirect? (instr : Instr) (dst : Slot) : Option Instr :=
  match instr with
  | binOp op _ lhs rhs => some (binOp op dst lhs rhs)
  | binOpImm op _ lhs imm => some (binOpImm op dst lhs imm)
  | _ => none

def renameSlots (rename : Slot → Slot) : Instr → Instr
  | pushVar slot => pushVar (rename slot)
  | pushFrameAddr slot => pushFrameAddr (rename slot)
  | pushVarRef slot => pushVarRef (rename slot)
  | chkNullV slot => chkNullV (rename slot)
  | copyVarToReg4 slot => copyVarToReg4 (rename slot)
  | copyRegToVar4 slot => copyRegToVar4 (rename slot)
  | loadVar slot => loadVar (rename slot)
  | writeVar4 slot => writeVar4 (rename slot)
  | readReg4 slot => readReg4 (rename slot)
  | incVi slot => incVi (rename slot)
  | decVi slot => decVi (rename slot)
  | unary op slot => unary op (rename slot)
  | jumpPtr slot fanOut => jumpPtr (rename slot) fanOut
  | setVar4 dst value => setVar4 (rename dst) value
  | setVar8 dst value => setVar8 (rename dst) value
  | copyVar4 dst src => copyVar4 (rename dst) (rename src)
  | copyVarToGlobal4 global src => copyVarToGlobal4 global (rename src)
  | copyGlobalToVar4 dst global => copyGlobalToVar4 (rename dst) global
  | loadGlobalReadReg4 dst global => loadGlobalReadReg4 (rename dst) global
  | binOp op dst lhs rhs => binOp op (rename dst) (rename lhs) (rename rhs)
  | binOpImm op dst lhs imm => binOpImm op (rename dst) (rename lhs) imm
  | cmp kind lhs rhs => cmp kind (rename lhs) (rename rhs)
  | cmpImm kind lhs imm => cmpImm kind (rename lhs) imm
  | instr => instr

/-- Instructions that use the value in the register. -/
def readsRegister : Instr → Bool
  | incI | decI | writeVar4 _ | readReg4 _ | pushRegPtr | copyRegToVar4 _
  | test _ | branch .. => true
  | _ => false

/-- Instructions that replace the value in the register, or that leave the
straight line on which its use is looked for. -/
def endsRegisterScan : Instr → Bool
  | call .. | alloc .. | popRegPtr | suspend | copyVarToReg4 _
  | loadGlobalReadReg4 .. | loadGlobal _ | loadVar _ | cmp .. | cmpImm ..
  | test _ | jump _ | branch .. | jumpPtr .. | label _ => true
  | _ => false

end Instr

end StackAssembler
