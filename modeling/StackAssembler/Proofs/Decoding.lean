import StackAssembler.Proofs.Emission
import Mathlib.Tactic.ByContra

/-!
# Reading code back

Encoded code can be read from front to back.  The low byte of a unit gives the
opcode, the opcode gives the shape, and the shape says how many units follow
and which operand bits they hold.  So the units of a run of instructions tell
the whole run apart from its labels, which leave no unit, and from the three
operands that no shape has room for: the units that a call or an allocation
pops, and the fan-out of a jump table.
-/

namespace StackAssembler

section Bits

theorem Instr.toNat_packWords (low high : UInt16) :
    (Instr.packWords low high).toNat = 65536 * high.toNat + low.toNat := by
  have lowSmall := low.toNat_lt
  have highSmall := high.toNat_lt
  have sixteen : (16 : UInt32).toNat % 32 = 16 := rfl
  have shifted : high.toNat <<< 16 = 65536 * high.toNat := by
    rw [Nat.shiftLeft_eq, Nat.mul_comm]
  have fits : high.toNat <<< 16 < 2 ^ 32 := by omega
  have joined := Nat.shiftLeft_add_eq_or_of_lt lowSmall high.toNat
  rw [Instr.packWords, UInt32.toNat_or, UInt32.toNat_shiftLeft, sixteen,
    UInt16.toNat_toUInt32, UInt16.toNat_toUInt32, Nat.mod_eq_of_lt fits,
    Nat.or_comm, ← joined, shifted]

/-- The 64 bits of two units, the first in the low half. -/
def joinUnits (low high : UInt32) : UInt64 :=
  low.toUInt64 ||| (high.toUInt64 <<< 32)

theorem toNat_joinUnits (low high : UInt32) :
    (joinUnits low high).toNat = 4294967296 * high.toNat + low.toNat := by
  have lowSmall := low.toNat_lt
  have highSmall := high.toNat_lt
  have thirtyTwo : (32 : UInt64).toNat % 64 = 32 := rfl
  have shifted : high.toNat <<< 32 = 4294967296 * high.toNat := by
    rw [Nat.shiftLeft_eq, Nat.mul_comm]
  have fits : high.toNat <<< 32 < 2 ^ 64 := by omega
  have joined := Nat.shiftLeft_add_eq_or_of_lt lowSmall high.toNat
  rw [joinUnits, UInt64.toNat_or, UInt64.toNat_shiftLeft, thirtyTwo,
    UInt32.toNat_toUInt64, UInt32.toNat_toUInt64, Nat.mod_eq_of_lt fits,
    Nat.or_comm, ← joined, shifted]

def lowWord (unit : UInt32) : UInt16 :=
  unit.toUInt16

def highWord (unit : UInt32) : UInt16 :=
  (unit >>> 16).toUInt16

/-- The second half of a wide part. -/
def highUnit (wide : UInt64) : UInt32 :=
  (wide >>> 32).toUInt32

@[simp]
theorem lowWord_packWords (low high : UInt16) :
    lowWord (Instr.packWords low high) = low := by
  apply UInt16.toNat_inj.mp
  have small := low.toNat_lt
  rw [lowWord, UInt32.toNat_toUInt16, Instr.toNat_packWords]
  omega

@[simp]
theorem highWord_packWords (low high : UInt16) :
    highWord (Instr.packWords low high) = high := by
  apply UInt16.toNat_inj.mp
  have lowSmall := low.toNat_lt
  have highSmall := high.toNat_lt
  have sixteen : (16 : UInt32).toNat % 32 = 16 := rfl
  rw [highWord, UInt32.toNat_toUInt16, UInt32.toNat_shiftRight, sixteen,
    Instr.toNat_packWords, Nat.shiftRight_eq_div_pow]
  omega

/-- The opcode stands alone in the low half of its unit. -/
@[simp]
theorem toUInt8_packWords (byte : UInt8) (high : UInt16) :
    (Instr.packWords byte.toUInt16 high).toUInt8 = byte := by
  apply UInt8.toNat_inj.mp
  have small := byte.toNat_lt
  rw [UInt32.toNat_toUInt8, Instr.toNat_packWords, UInt8.toNat_toUInt16]
  omega

@[simp]
theorem toUInt32_joinUnits (low high : UInt32) :
    (joinUnits low high).toUInt32 = low := by
  apply UInt32.toNat_inj.mp
  have small := low.toNat_lt
  rw [UInt64.toNat_toUInt32, toNat_joinUnits]
  omega

@[simp]
theorem highUnit_joinUnits (low high : UInt32) :
    highUnit (joinUnits low high) = high := by
  apply UInt32.toNat_inj.mp
  have lowSmall := low.toNat_lt
  have highSmall := high.toNat_lt
  have thirtyTwo : (32 : UInt64).toNat % 64 = 32 := rfl
  rw [highUnit, UInt64.toNat_toUInt32, UInt64.toNat_shiftRight, thirtyTwo,
    toNat_joinUnits, Nat.shiftRight_eq_div_pow]
  omega

@[simp]
theorem joinUnits_toUInt32_highUnit (wide : UInt64) :
    joinUnits wide.toUInt32 (highUnit wide) = wide := by
  apply UInt64.toNat_inj.mp
  have small := wide.toNat_lt
  have thirtyTwo : (32 : UInt64).toNat % 64 = 32 := rfl
  rw [toNat_joinUnits, highUnit, UInt64.toNat_toUInt32,
    UInt64.toNat_toUInt32, UInt64.toNat_shiftRight, thirtyTwo,
    Nat.shiftRight_eq_div_pow]
  omega

end Bits

namespace Opcode

def all : List Opcode :=
  [pop, push, pshC4, pshC8, pshV4, psf, psp, var, pshG4, pshRPtr, popRPtr,
    str, swap4, rds4, rds8, getRef, chkRefS, chkRef, chkNullV, setV4, setV8,
    cpyVtoV4, cpyVtoR4, cpyRtoV4, cpyVtoG4, cpyGtoV4, ldGRdR4, setG4, ldg,
    ldv, wrtV4, rdr4, incVi, decVi, incI, decI, not, negI, negF, bNot, addI,
    subI, mulI, divI, modI, addF, subF, mulF, divF, modF, bAnd, bOr, bXor,
    bSll, bSrl, bSra, addIi, subIi, mulIi, addIf, subIf, mulIf, cmpI, cmpU,
    cmpF, cmpD, cmpIi, cmpIu, cmpIf, tz, tnz, ts, tns, tp, tnp, jmp, jz, jnz,
    js, jns, jp, jnp, jmpP, call, callSys, callBnd, callIntf, alloc, ret,
    suspend, jitEntry]

def ofByte? (byte : UInt8) : Option Opcode :=
  all.find? (·.byte = byte)

@[simp]
theorem ofByte?_byte (opcode : Opcode) : ofByte? opcode.byte = some opcode := by
  cases opcode <;> rfl

/-- The instruction of an opcode with the given operand bits.  Operands that
are not encoded are zero. -/
def instr (opcode : Opcode) (payload : Payload) : Instr :=
  let word := payload.first
  let slot := payload.first.toInt16
  let second := payload.second.toInt16
  let third := payload.third.toInt16
  let low := payload.wide.toUInt32
  let target := Target.offset low.toInt32
  match opcode with
  | pop => .pop word
  | push => .push word
  | pshC4 => .pushConst low
  | pshC8 => .pushConst8 payload.wide
  | pshV4 => .pushVar slot
  | psf => .pushFrameAddr slot
  | psp => .pushStackAddr slot
  | var => .pushVarRef slot
  | pshG4 => .pushGlobal word
  | pshRPtr => .pushRegPtr
  | popRPtr => .popRegPtr
  | str => .pushString word
  | swap4 => .swap4
  | rds4 => .readStack4
  | rds8 => .readStack8
  | getRef => .getRef word
  | chkRefS => .chkRefS
  | chkRef => .chkRef
  | chkNullV => .chkNullV slot
  | setV4 => .setVar4 slot low
  | setV8 => .setVar8 slot payload.wide
  | cpyVtoV4 => .copyVar4 slot second
  | cpyVtoR4 => .copyVarToReg4 slot
  | cpyRtoV4 => .copyRegToVar4 slot
  | cpyVtoG4 => .copyVarToGlobal4 word second
  | cpyGtoV4 => .copyGlobalToVar4 slot payload.second
  | ldGRdR4 => .loadGlobalReadReg4 slot payload.second
  | setG4 => .setGlobal4 word low
  | ldg => .loadGlobal word
  | ldv => .loadVar slot
  | wrtV4 => .writeVar4 slot
  | rdr4 => .readReg4 slot
  | incVi => .incVi slot
  | decVi => .decVi slot
  | incI => .incI
  | decI => .decI
  | not => .unary .not slot
  | negI => .unary .negI slot
  | negF => .unary .negF slot
  | bNot => .unary .bitNot slot
  | addI => .binOp .addI slot second third
  | subI => .binOp .subI slot second third
  | mulI => .binOp .mulI slot second third
  | divI => .binOp .divI slot second third
  | modI => .binOp .modI slot second third
  | addF => .binOp .addF slot second third
  | subF => .binOp .subF slot second third
  | mulF => .binOp .mulF slot second third
  | divF => .binOp .divF slot second third
  | modF => .binOp .modF slot second third
  | bAnd => .binOp .and slot second third
  | bOr => .binOp .or slot second third
  | bXor => .binOp .xor slot second third
  | bSll => .binOp .shl slot second third
  | bSrl => .binOp .shr slot second third
  | bSra => .binOp .sar slot second third
  | addIi => .binOpImm .addI slot second low
  | subIi => .binOpImm .subI slot second low
  | mulIi => .binOpImm .mulI slot second low
  | addIf => .binOpImm .addF slot second low
  | subIf => .binOpImm .subF slot second low
  | mulIf => .binOpImm .mulF slot second low
  | cmpI => .cmp .int slot second
  | cmpU => .cmp .uint slot second
  | cmpF => .cmp .float slot second
  | cmpD => .cmp .double slot second
  | cmpIi => .cmpImm .int slot low
  | cmpIu => .cmpImm .uint slot low
  | cmpIf => .cmpImm .float slot low
  | tz => .test .zero
  | tnz => .test .notZero
  | ts => .test .negative
  | tns => .test .notNegative
  | tp => .test .positive
  | tnp => .test .notPositive
  | jmp => .jump target
  | jz => .branch .zero target
  | jnz => .branch .notZero target
  | js => .branch .negative target
  | jns => .branch .notNegative target
  | jp => .branch .positive target
  | jnp => .branch .notPositive target
  | jmpP => .jumpPtr slot 0
  | call => .call .script low 0
  | callSys => .call .system low 0
  | callBnd => .call .bound low 0
  | callIntf => .call .interface low 0
  | alloc => .alloc low (highUnit payload.wide) 0
  | ret => .ret word
  | suspend => .suspend
  | jitEntry => .jitEntry word

def shape (opcode : Opcode) : Shape :=
  (opcode.instr {}).shape

/-- The operand bits have no say in the shape. -/
theorem shape_instr (opcode : Opcode) (payload : Payload) :
    (opcode.instr payload).shape = opcode.shape := by
  cases opcode <;> rfl

theorem shape_ne_marker (opcode : Opcode) : opcode.shape ≠ .marker := by
  cases opcode <;> decide

end Opcode

/-- The operand bits that a shape has room for; the others are zero. -/
def Payload.within (payload : Payload) : Shape → Payload
  | .marker => {}
  | .noArg | .word | .writeVar | .readVar => { first := payload.first }
  | .dword | .readVarDword | .writeVarDword | .wordDword =>
      { first := payload.first, wide := payload.wide.toUInt32.toUInt64 }
  | .qword | .dwordDword | .writeVarQword =>
      { first := payload.first, wide := payload.wide }
  | .writeReadRead | .writeRead | .readRead | .wordReadVar | .writeVarWord =>
      { payload with wide := 0 }
  | .writeReadDword =>
      { payload with wide := payload.wide.toUInt32.toUInt64 }

/-- The operand bits in the units of a shape, where `unit` is the first one and
`units` follow it.  The result includes the units that are left. -/
def Shape.unpack? (shape : Shape) (unit : UInt32) (units : List UInt32) :
    Option (Payload × List UInt32) :=
  let first := highWord unit
  match shape, units with
  | .marker, _ => none
  | .noArg, rest | .word, rest | .writeVar, rest | .readVar, rest =>
      some ({ first }, rest)
  | .dword, low :: rest | .readVarDword, low :: rest
  | .writeVarDword, low :: rest | .wordDword, low :: rest =>
      some ({ first, wide := low.toUInt64 }, rest)
  | .qword, low :: high :: rest | .dwordDword, low :: high :: rest
  | .writeVarQword, low :: high :: rest =>
      some ({ first, wide := joinUnits low high }, rest)
  | .writeReadRead, words :: rest | .writeRead, words :: rest
  | .readRead, words :: rest | .wordReadVar, words :: rest
  | .writeVarWord, words :: rest =>
      some ({ first, second := lowWord words, third := highWord words }, rest)
  | .writeReadDword, words :: low :: rest =>
      some ({ first, second := lowWord words, third := highWord words,
              wide := low.toUInt64 }, rest)
  | _, _ => none

theorem Shape.unpack?_pack {shape : Shape} (plain : shape ≠ .marker)
    (opcode : Opcode) (payload : Payload) (rest : List UInt32) :
    ∃ unit units, Instr.pack shape opcode payload = unit :: units ∧
      unit.toUInt8 = opcode.byte ∧
      shape.unpack? unit (units ++ rest) =
        some (payload.within shape, rest) := by
  have halves : joinUnits payload.wide.toUInt32
      (payload.wide >>> 32).toUInt32 = payload.wide :=
    joinUnits_toUInt32_highUnit payload.wide
  cases shape with
  | marker => exact absurd rfl plain
  | _ => simp [Instr.pack, unpack?, Payload.within, halves]

theorem Shape.length_le_of_unpack? {shape : Shape} {unit : UInt32}
    {units rest : List UInt32} {payload : Payload}
    (read : shape.unpack? unit units = some (payload, rest)) :
    rest.length ≤ units.length := by
  unfold unpack? at read
  split at read <;> simp_all <;> omega

namespace Instr

/-- Read one instruction.  The result includes the units that are left. -/
def read? : List UInt32 → Option (Instr × List UInt32)
  | [] => none
  | unit :: units => do
      let opcode ← Opcode.ofByte? unit.toUInt8
      let (payload, rest) ← opcode.shape.unpack? unit units
      return (opcode.instr payload, rest)

theorem length_lt_of_read? {units rest : List UInt32} {instr : Instr}
    (read : read? units = some (instr, rest)) :
    rest.length < units.length := by
  cases units with
  | nil => simp [read?] at read
  | cons unit units =>
      simp only [read?, Option.bind_eq_bind, Option.bind_eq_some_iff] at read
      obtain ⟨opcode, -, ⟨payload, left⟩, unpacked, same⟩ := read
      obtain ⟨-, rfl⟩ := Prod.mk.inj (Option.some.inj same)
      exact Nat.lt_succ_of_le (Shape.length_le_of_unpack? unpacked)

/-- Read instructions up to the end of the code. -/
def decode (code : List UInt32) : Option (List Instr) :=
  match code with
  | [] => some []
  | unit :: units =>
      match _read : read? (unit :: units) with
      | none => none
      | some (instr, rest) => (decode rest).map (instr :: ·)
termination_by code.length
decreasing_by exact length_lt_of_read? _read

/-- An instruction without the operands that are not encoded. -/
def legible : Instr → Instr
  | call kind func _ => call kind func 0
  | alloc typeId func _ => alloc typeId func 0
  | jumpPtr slot _ => jumpPtr slot 0
  | instr => instr

def legibleCode (code : List Instr) : List Instr :=
  (code.filter (·.marks?.isNone)).map legible

theorem shape_legible (instr : Instr) : instr.legible.shape = instr.shape := by
  cases instr <;> rfl

/-- The operand bits of an instruction are those its shape has room for. -/
theorem within_payload (instr : Instr) :
    instr.payload.within instr.shape = instr.payload := by
  cases instr with
  | line pos cue => cases cue <;> rfl
  | _ => simp [payload, shape, Payload.within]

theorem instr_payload {instr : Instr} {opcode : Opcode}
    (coded : instr.opcode? = some opcode)
    (resolved : instr.jumpLabel? = none) :
    opcode.instr instr.payload = instr.legible := by
  have halves (low high : UInt32) :
      low.toUInt64 ||| (high.toUInt64 <<< 32) = joinUnits low high := rfl
  cases instr with
  | label | line => cases coded
  | unary op | binOp op | binOpImm op =>
      obtain rfl := Option.some.inj coded
      cases op <;> simp [Opcode.instr, payload, legible, UnaryOp.opcode,
        ArithOp.opcode, ImmOp.opcode]
  | cmp kind | cmpImm kind | call kind =>
      obtain rfl := Option.some.inj coded
      cases kind <;> simp [Opcode.instr, payload, legible, CmpKind.opcode,
        ImmCmpKind.opcode, CallKind.opcode]
  | test cond =>
      obtain rfl := Option.some.inj coded
      cases cond <;> rfl
  | jump target =>
      obtain rfl := Option.some.inj coded
      cases target with
      | label name => cases resolved
      | offset distance => simp [Opcode.instr, payload, legible, Target.bits]
  | branch cond target =>
      obtain rfl := Option.some.inj coded
      cases target with
      | label name => cases resolved
      | offset distance =>
          cases cond <;> simp [Opcode.instr, payload, legible, Target.bits,
            Condition.branchOpcode]
  | _ =>
      obtain rfl := Option.some.inj coded
      simp [Opcode.instr, payload, legible, halves]

theorem shape_of_opcode? {instr : Instr} {opcode : Opcode}
    (coded : instr.opcode? = some opcode)
    (resolved : instr.jumpLabel? = none) : opcode.shape = instr.shape := by
  rw [← shape_legible, ← instr_payload coded resolved, Opcode.shape_instr]

theorem read?_emitted {instr : Instr} (noMarker : instr.isMarker = false)
    (resolved : instr.jumpLabel? = none) (rest : List UInt32) :
    ∃ unit units, instr.emitted = unit :: units ∧
      read? (unit :: (units ++ rest)) = some (instr.legible, rest) := by
  obtain ⟨opcode, coded⟩ := exists_opcode? noMarker
  have sameShape := shape_of_opcode? coded resolved
  obtain ⟨unit, units, packed, byte, unpacked⟩ :=
    Shape.unpack?_pack opcode.shape_ne_marker opcode instr.payload rest
  have carried : instr.payload.within opcode.shape = instr.payload := by
    rw [sameShape, within_payload]
  refine ⟨unit, units, ?_, ?_⟩
  · rw [emitted_of_opcode? coded, ← sameShape, packed]
  · simp [read?, byte, unpacked, carried, instr_payload coded resolved]

theorem decode_flatMap_emitted {code : List Instr}
    (plain : ∀ instr ∈ code,
      Layout.isLine instr = false ∧ instr.jumpLabel? = none) :
    decode (code.flatMap emitted) = some (legibleCode code) := by
  induction code with
  | nil => simp [decode, legibleCode]
  | cons instr code ih =>
      obtain ⟨noLine, resolved⟩ := plain instr List.mem_cons_self
      have later := ih fun other member =>
        plain other (List.mem_cons_of_mem _ member)
      by_cases marked : instr.marks? = none
      · have noMarker : instr.isMarker = false := by
          cases instr with
          | label => cases marked
          | line => cases noLine
          | _ => rfl
        obtain ⟨unit, units, emits, read⟩ :=
          read?_emitted noMarker resolved (code.flatMap emitted)
        have kept : legibleCode (instr :: code) =
            instr.legible :: legibleCode code := by
          simp [legibleCode, marked]
        rw [List.flatMap_cons, emits, List.cons_append, decode, kept]
        split
        · rename_i unread
          cases unread.symm.trans read
        · rename_i found rest known
          obtain ⟨rfl, rfl⟩ :=
            Prod.mk.inj (Option.some.inj (known.symm.trans read))
          rw [later]
          rfl
      · obtain ⟨name, isLabel⟩ := Option.ne_none_iff_exists'.mp marked
        obtain rfl := marks?_eq_some_iff.mp isLabel
        exact later

/-- What is not plain is refused for what it is. -/
theorem ofInstrs_eq_error {code : List Instr} {instr : Instr}
    (member : instr ∈ code)
    (refused : ¬(Layout.isLine instr = false ∧ instr.jumpLabel? = none))
    (encoded : Encoded) :
    ∃ defect, Encoded.ofInstrs encoded code = .error defect ∧
      ((∃ name, defect = .unresolvedJump name) ∨
        ∃ text, defect = .unexpectedMarker text) := by
  induction code generalizing encoded with
  | nil => simp at member
  | cons first code ih =>
      rw [Encoded.ofInstrs]
      cases named : first.jumpLabel? with
      | some name => exact ⟨_, rfl, .inl ⟨name, rfl⟩⟩
      | none =>
          cases noLine : Layout.isLine first with
          | true =>
              cases first with
              | line pos cue => exact ⟨_, rfl, .inr ⟨_, rfl⟩⟩
              | _ => cases noLine
          | false =>
              have later : instr ∈ code := by
                rcases List.mem_cons.mp member with rfl | later
                · exact absurd ⟨noLine, named⟩ refused
                · exact later
              simp only [units_eq_ok noLine, bind, Except.bind]
              exact ih later _

theorem encode_eq_error {code : List Instr} {instr : Instr}
    (member : instr ∈ code)
    (refused : ¬(Layout.isLine instr = false ∧ instr.jumpLabel? = none)) :
    ∃ defect, encode code = .error defect ∧
      ((∃ name, defect = .unresolvedJump name) ∨
        ∃ text, defect = .unexpectedMarker text) := by
  obtain ⟨defect, failed, kind⟩ := ofInstrs_eq_error member refused ⟨[], []⟩
  refine ⟨defect, ?_, kind⟩
  unfold encode
  rw [failed]
  rfl

theorem emitted_legible (instr : Instr) :
    instr.legible.emitted = instr.emitted := by
  cases instr <;> rfl

theorem flatMap_emitted_legibleCode (code : List Instr) :
    (legibleCode code).flatMap emitted = code.flatMap emitted := by
  induction code with
  | nil => rfl
  | cons instr code ih =>
      unfold legibleCode at ih ⊢
      cases marked : instr.marks? with
      | none => simp [marked, ih, emitted_legible]
      | some name =>
          obtain rfl := marks?_eq_some_iff.mp marked
          simpa [marked, emitted] using ih

/-- Instructions of one, two and three units, with a label and operands that
are not encoded. -/
def dispatchCode : List Instr :=
  [.label ⟨3⟩, .setVar8 (-2) 0x0102030405060708, .binOpImm .subF 1 (-1) 7,
    .call .bound 9 4, .alloc 5 6 2, .jumpPtr 3 8, .jump (.offset (-4)), .ret 1]

/-- The same instructions with another label and other unencoded operands. -/
def dispatchTwin : List Instr :=
  [.setVar8 (-2) 0x0102030405060708, .binOpImm .subF 1 (-1) 7,
    .call .bound 9 0, .alloc 5 6 7, .label ⟨8⟩, .jumpPtr 3 2,
    .jump (.offset (-4)), .ret 1]

end Instr

end StackAssembler
