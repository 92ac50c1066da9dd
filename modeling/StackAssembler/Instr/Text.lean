import StackAssembler.Instr.Opcode

/-!
# Instruction texts

An instruction has two texts.  The assembly line is a mnemonic with its
operands.  The structural text names the instruction and each of its operands
and shows every field; it is printed from the instruction's form, which lists
the fields in order.
-/

namespace StackAssembler

namespace Instr

/-- The operands as they stand after the mnemonic; `none` where the mnemonic
stands alone. -/
def operandText? : Instr → Option String
  | pop n | push n | pushGlobal n | pushString n | getRef n | loadGlobal n
  | ret n | jitEntry n => some (toString n)
  | pushStackAddr distance => some ("sp" ++ Text.signed distance.toInt)
  | pushVar v | pushFrameAddr v | pushVarRef v | chkNullV v | copyVarToReg4 v
  | copyRegToVar4 v | loadVar v | writeVar4 v | readReg4 v | incVi v | decVi v
  | unary _ v => some s!"v{v}"
  | jumpPtr v fanOut => some s!"v{v}, max {fanOut}"
  | pushConst value => some (Text.hex value.toNat)
  | pushConst8 value => some (Text.hex value.toNat)
  | jump target | branch _ target => some target.text
  | call _ func count => some s!"{func} ({count} args)"
  | alloc typeId func _ => some s!"{typeId}, {func}"
  | setVar4 dst value => some s!"v{dst}, {Text.hex value.toNat}"
  | setVar8 dst value => some s!"v{dst}, {Text.hex value.toNat}"
  | copyVar4 dst src => some s!"v{dst}, v{src}"
  | copyVarToGlobal4 global src => some s!"g{global}, v{src}"
  | copyGlobalToVar4 dst global | loadGlobalReadReg4 dst global =>
      some s!"v{dst}, g{global}"
  | setGlobal4 global value => some s!"g{global}, {Text.hex value.toNat}"
  | binOp _ dst lhs rhs => some s!"v{dst}, v{lhs}, v{rhs}"
  | binOpImm _ dst lhs imm =>
      some s!"v{dst}, v{lhs}, {Text.hex imm.toNat}"
  | cmp _ lhs rhs => some s!"v{lhs}, v{rhs}"
  | cmpImm _ lhs imm => some s!"v{lhs}, {Text.hex imm.toNat}"
  | label _ | line .. | pushRegPtr | popRegPtr | swap4 | readStack4
  | readStack8 | chkRefS | chkRef | incI | decI | test _ | suspend => none

/-- The assembly line of an instruction.  Mnemonics stand in a field of eight
characters, and a line marker is a comment. -/
def text (instr : Instr) : String :=
  match instr, instr.opcode? with
  | label name, _ => name.text ++ ":"
  | line pos cue, _ =>
      "# line " ++ pos.text ++ (if cue then " (cue)" else "")
  | instr, some opcode =>
      match instr.operandText? with
      | some operands =>
          Text.alignLeft 8 opcode.mnemonic ++ " " ++ operands
      | none => opcode.mnemonic
  | _, none => ""

end Instr

/-- One operand of an instruction. -/
inductive Operand where
  | slot (value : Slot)
  | word (value : UInt16)
  | dword (value : UInt32)
  | qword (value : UInt64)
  | flag (value : Bool)
  /-- A choice from a closed family, by its symbolic name. -/
  | choice (name : String)
  | label (value : Label)
  | target (value : Target)
  | pos (value : SourcePos)

namespace Operand

def describe : Operand → String
  | slot value => toString value
  | word value => toString value
  | dword value => toString value
  | qword value => toString value
  | flag value => toString value
  | choice name => name
  | label value => value.describe
  | target value => value.describe
  | pos value => value.describe

end Operand

namespace Instr

/-- The symbolic name of an instruction and its operands in order. -/
inductive Form where
  /-- The operands have no field names. -/
  | plain (name : String) (operands : List Operand)
  /-- Every operand has a field name. -/
  | fields (name : String) (operands : List (String × Operand))

namespace Form

def name : Form → String
  | plain name _ | fields name _ => name

def operands : Form → List Operand
  | plain _ operands => operands
  | fields _ operands => operands.map (·.2)

/-- The text of a form: field names in braces, plain operands in round
brackets, and a bare name if there are no operands. -/
def describe : Form → String
  | plain name [] => name
  | plain name operands =>
      name ++ "(" ++
        String.intercalate ", " (operands.map Operand.describe) ++ ")"
  | fields name operands =>
      name ++ " \x7b " ++
        String.intercalate ", "
          (operands.map fun field => field.1 ++ ": " ++ field.2.describe) ++
        " \x7d"

end Form

def form : Instr → Form
  | label name => .plain "Label" [.label name]
  | line pos cue => .fields "Line" [("pos", .pos pos), ("cue", .flag cue)]
  | pop n => .plain "Pop" [.word n]
  | push n => .plain "Push" [.word n]
  | pushConst value => .plain "PushConst" [.dword value]
  | pushConst8 value => .plain "PushConst8" [.qword value]
  | pushVar v => .plain "PushVar" [.slot v]
  | pushFrameAddr v => .plain "PushFrameAddr" [.slot v]
  | pushStackAddr distance => .plain "PushStackAddr" [.slot distance]
  | pushVarRef v => .plain "PushVarRef" [.slot v]
  | pushGlobal global => .plain "PushGlobal" [.word global]
  | pushRegPtr => .plain "PushRegPtr" []
  | popRegPtr => .plain "PopRegPtr" []
  | pushString index => .plain "PushString" [.word index]
  | swap4 => .plain "Swap4" []
  | readStack4 => .plain "ReadStack4" []
  | readStack8 => .plain "ReadStack8" []
  | getRef depth => .plain "GetRef" [.word depth]
  | chkRefS => .plain "ChkRefS" []
  | chkRef => .plain "ChkRef" []
  | chkNullV v => .plain "ChkNullV" [.slot v]
  | setVar4 dst value =>
      .fields "SetVar4" [("dst", .slot dst), ("value", .dword value)]
  | setVar8 dst value =>
      .fields "SetVar8" [("dst", .slot dst), ("value", .qword value)]
  | copyVar4 dst src =>
      .fields "CopyVar4" [("dst", .slot dst), ("src", .slot src)]
  | copyVarToReg4 v => .plain "CopyVarToReg4" [.slot v]
  | copyRegToVar4 v => .plain "CopyRegToVar4" [.slot v]
  | copyVarToGlobal4 global src =>
      .fields "CopyVarToGlobal4" [("global", .word global), ("src", .slot src)]
  | copyGlobalToVar4 dst global =>
      .fields "CopyGlobalToVar4" [("dst", .slot dst), ("global", .word global)]
  | loadGlobalReadReg4 dst global =>
      .fields "LoadGlobalReadReg4"
        [("dst", .slot dst), ("global", .word global)]
  | setGlobal4 global value =>
      .fields "SetGlobal4" [("global", .word global), ("value", .dword value)]
  | loadGlobal global => .plain "LoadGlobal" [.word global]
  | loadVar v => .plain "LoadVar" [.slot v]
  | writeVar4 v => .plain "WriteVar4" [.slot v]
  | readReg4 v => .plain "ReadReg4" [.slot v]
  | incVi v => .plain "IncVi" [.slot v]
  | decVi v => .plain "DecVi" [.slot v]
  | incI => .plain "IncI" []
  | decI => .plain "DecI" []
  | unary op v => .fields "Unary" [("op", .choice op.name), ("var", .slot v)]
  | binOp op dst lhs rhs =>
      .fields "BinOp"
        [("op", .choice op.name), ("dst", .slot dst), ("lhs", .slot lhs),
          ("rhs", .slot rhs)]
  | binOpImm op dst lhs imm =>
      .fields "BinOpImm"
        [("op", .choice op.name), ("dst", .slot dst), ("lhs", .slot lhs),
          ("imm", .dword imm)]
  | cmp kind lhs rhs =>
      .fields "Cmp"
        [("kind", .choice kind.name), ("lhs", .slot lhs), ("rhs", .slot rhs)]
  | cmpImm kind lhs imm =>
      .fields "CmpImm"
        [("kind", .choice kind.name), ("lhs", .slot lhs), ("imm", .dword imm)]
  | test cond => .plain "Test" [.choice cond.name]
  | jump target => .plain "Jump" [.target target]
  | branch cond target =>
      .fields "Branch" [("cond", .choice cond.name), ("target", .target target)]
  | jumpPtr v fanOut =>
      .fields "JumpPtr" [("var", .slot v), ("fan_out", .dword fanOut)]
  | call kind func count =>
      .fields "Call"
        [("kind", .choice kind.name), ("func", .dword func),
          ("pop", .word count)]
  | alloc typeId func count =>
      .fields "Alloc"
        [("type_id", .dword typeId), ("func", .dword func),
          ("pop", .word count)]
  | ret n => .plain "Ret" [.word n]
  | suspend => .plain "Suspend" []
  | jitEntry index => .plain "JitEntry" [.word index]

def describe (instr : Instr) : String :=
  instr.form.describe

end Instr

end StackAssembler
