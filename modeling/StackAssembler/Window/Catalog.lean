import StackAssembler.Window.Rules

/-!
# The catalog of window rules

Every rule of the window is listed once as a relation between a window and the
patch for it, with all that the rule asks for.  Whatever the rules propose is
in the catalog, and every patch in it makes the code lighter.
-/

namespace StackAssembler

namespace Window

open Liveness

/-- Instructions that push one unit and do nothing else. -/
inductive UnitPush : Instr → Prop
  | var (slot : Slot) : UnitPush (.pushVar slot)
  | const (value : UInt32) : UnitPush (.pushConst value)
  | register : UnitPush .pushRegPtr
  | frameAddr (slot : Slot) : UnitPush (.pushFrameAddr slot)
  | varRef (slot : Slot) : UnitPush (.pushVarRef slot)

/-- A rule proposes a patch for a window. -/
inductive Rule (scope : Scope) : List Instr → Patch → Prop
  -- Values that nobody reads, or that are handed over in a slot.
  | unusedWrite {instr : Instr} {slot : Slot} {rest : List Instr}
      (writes : instr.access.write? = some slot)
      (dead : scope.dead slot rest = true)
      (unused : ∀ dst global, instr = .loadGlobalReadReg4 dst global →
        registerUsed rest = false) :
      Rule scope (instr :: rest) [none]
  | unusedGlobalRead {slot : Slot} {global : Global} {rest : List Instr}
      (dead : scope.dead slot rest = true)
      (used : registerUsed rest = true) :
      Rule scope (.loadGlobalReadReg4 slot global :: rest)
        [some (.loadGlobal global)]
  | compareConst {slot lhs : Slot} {value : UInt32} {kind : CmpKind}
      {imm : ImmCmpKind} {rest : List Instr}
      (form : kind.immediate? = some imm) (other : lhs ≠ slot)
      (dead : scope.dead slot rest = true) :
      Rule scope (.setVar4 slot value :: .cmp kind lhs slot :: rest)
        [none, some (.cmpImm imm lhs value)]
  | arithConst {slot dst lhs : Slot} {value : UInt32} {op : ArithOp}
      {imm : ImmOp} {rest : List Instr} (form : op.immediate? = some imm)
      (other : lhs ≠ slot)
      (dead : dst = slot ∨ scope.dead slot rest = true) :
      Rule scope (.setVar4 slot value :: .binOp op dst lhs slot :: rest)
        [none, some (.binOpImm imm dst lhs value)]
  | arithConstLeft {slot dst rhs : Slot} {value : UInt32} {op : ArithOp}
      {imm : ImmOp} {rest : List Instr} (form : op.immediate? = some imm)
      (other : rhs ≠ slot) (commutes : op.commutes = true)
      (dead : dst = slot ∨ scope.dead slot rest = true) :
      Rule scope (.setVar4 slot value :: .binOp op dst slot rhs :: rest)
        [none, some (.binOpImm imm dst rhs value)]
  | arithCopy {op : ArithOp} {slot lhs rhs dst : Slot} {rest : List Instr}
      (dead : scope.dead slot rest = true) :
      Rule scope (.binOp op slot lhs rhs :: .copyVar4 dst slot :: rest)
        [some (.binOp op dst lhs rhs), none]
  | arithImmCopy {op : ImmOp} {slot lhs dst : Slot} {imm : UInt32}
      {rest : List Instr} (dead : scope.dead slot rest = true) :
      Rule scope (.binOpImm op slot lhs imm :: .copyVar4 dst slot :: rest)
        [some (.binOpImm op dst lhs imm), none]
  | constCopy {slot dst : Slot} {value : UInt32} {rest : List Instr}
      (dead : scope.dead slot rest = true) :
      Rule scope (.setVar4 slot value :: .copyVar4 dst slot :: rest)
        [some (.setVar4 dst value), none]
  | registerBack {slot : Slot} {rest : List Instr}
      (dead : scope.dead slot rest = true) :
      Rule scope (.copyRegToVar4 slot :: .copyVarToReg4 slot :: rest)
        [none, none]
  | globalPush {slot : Slot} {global : Global} {rest : List Instr}
      (dead : scope.dead slot rest = true) :
      Rule scope (.copyGlobalToVar4 slot global :: .pushVar slot :: rest)
        [none, some (.pushGlobal global)]
  | constPush {slot : Slot} {value : UInt32} {rest : List Instr}
      (dead : scope.dead slot rest = true) :
      Rule scope (.setVar4 slot value :: .pushVar slot :: rest)
        [none, some (.pushConst value)]
  | constStore {slot : Slot} {value : UInt32} {global : Global}
      {rest : List Instr} (dead : scope.dead slot rest = true) :
      Rule scope
        (.setVar4 slot value :: .copyVarToGlobal4 global slot :: rest)
        [none, some (.setGlobal4 global value)]
  -- Checks.
  | suspendBefore {index : UInt16} {rest : List Instr} :
      Rule scope (.suspend :: .jitEntry index :: .suspend :: rest)
        [none, none]
  | lineBefore {first second : SourcePos} {firstCue secondCue : Bool}
      {index : UInt16} {rest : List Instr} :
      Rule scope (.line first firstCue :: .jitEntry index ::
        .line second secondCue :: rest) [none, none]
  | checkRead {slot : Slot} {rest : List Instr} :
      Rule scope (.pushFrameAddr slot :: .chkRefS :: .readStack4 :: rest)
        [some (.pushVar slot), some .chkRef, none]
  | checkFrame {slot : Slot} {count : UInt16} {rest : List Instr}
      (enough : 1 ≤ count) :
      Rule scope (.pushFrameAddr slot :: .chkRefS :: .pop count :: rest)
        [some (.chkNullV slot), none, some (.pop (count - 1))]
  | checkVar {slot : Slot} {count : UInt16} {rest : List Instr}
      (enough : 1 ≤ count) :
      Rule scope (.pushVar slot :: .chkRef :: .pop count :: rest)
        [some (.chkNullV slot), none, some (.pop (count - 1))]
  -- Instructions without an effect, and pushes that are discarded.
  | jitEntry {index : UInt16} {rest : List Instr}
      (dropped : scope.keepJitEntries = false) :
      Rule scope (.jitEntry index :: rest) [none]
  | popNone {rest : List Instr} : Rule scope (.pop 0 :: rest) [none]
  | pushNone {rest : List Instr} : Rule scope (.push 0 :: rest) [none]
  | discardUnit {first : Instr} {count : UInt16} {rest : List Instr}
      (pushes : UnitPush first) (enough : 1 ≤ count) :
      Rule scope (first :: .pop count :: rest)
        [none, some (.pop (count - 1))]
  | discardConst8 {value : UInt64} {count : UInt16} {rest : List Instr}
      (enough : 1 < count) :
      Rule scope (.pushConst8 value :: .pop count :: rest)
        [none, some (.pop (count - 2))]
  | discardRead {count : UInt16} {rest : List Instr} (enough : 1 ≤ count) :
      Rule scope (.readStack4 :: .pop count :: rest)
        [none, some (.pop count)]
  | discardRead8 {count : UInt16} {rest : List Instr} (enough : 1 < count) :
      Rule scope (.readStack8 :: .pop count :: rest)
        [none, some (.pop (count - 1))]
  -- Values that are handed over in the register.
  | globalWrite {global : Global} {src : Slot} {rest : List Instr}
      (unused : registerUsed rest = false) :
      Rule scope (.loadGlobal global :: .writeVar4 src :: rest)
        [some (.copyVarToGlobal4 global src), none]
  | globalReadUsed {global : Global} {dst : Slot} {rest : List Instr}
      (used : registerUsed rest = true) :
      Rule scope (.loadGlobal global :: .readReg4 dst :: rest)
        [some (.loadGlobalReadReg4 dst global), none]
  | globalRead {global : Global} {dst : Slot} {rest : List Instr}
      (unused : registerUsed rest = false) :
      Rule scope (.loadGlobal global :: .readReg4 dst :: rest)
        [some (.copyGlobalToVar4 dst global), none]
  | increment {slot : Slot} {rest : List Instr}
      (unused : registerUsed rest = false) :
      Rule scope (.loadVar slot :: .incI :: rest)
        [some (.incVi slot), none]
  | decrement {slot : Slot} {rest : List Instr}
      (unused : registerUsed rest = false) :
      Rule scope (.loadVar slot :: .decI :: rest)
        [some (.decVi slot), none]
  | branchUnless {cond : Condition} {target : Target} {rest : List Instr}
      (unused : registerUsed rest = false) :
      Rule scope (.test cond :: .branch .zero target :: rest)
        [none, some (.branch cond.negate target)]
  | branchIf {cond : Condition} {target : Target} {rest : List Instr}
      (unused : registerUsed rest = false) :
      Rule scope (.test cond :: .branch .notZero target :: rest)
        [none, some (.branch cond target)]
  -- Neighbours of which one can stand for both.
  | frameRead {slot : Slot} {rest : List Instr} :
      Rule scope (.pushFrameAddr slot :: .readStack4 :: rest)
        [some (.pushVar slot), none]
  | pushTwice {first second : UInt16} {rest : List Instr}
      (fits : first.toNat + second.toNat < 65536) :
      Rule scope (.push first :: .push second :: rest)
        [some (.push (first + second)), none]
  | constRef {value : UInt32} {slot : Slot} {rest : List Instr}
      (inFrame : Slot.ofInt? value.toInt32.toInt = some slot) :
      Rule scope (.pushConst value :: .getRef 0 :: rest)
        [some (.pushFrameAddr slot), none]
  | popReturn {count units : UInt16} {rest : List Instr} :
      Rule scope (.pop count :: .ret units :: rest)
        [none, some (.ret units)]
  | suspendTwice {rest : List Instr} :
      Rule scope (.suspend :: .suspend :: rest) [none, some .suspend]
  | lineTwice {first second : SourcePos} {firstCue secondCue : Bool}
      {rest : List Instr} :
      Rule scope (.line first firstCue :: .line second secondCue :: rest)
        [none, some (.line second secondCue)]
  | jumpNext {name : Label} {rest : List Instr} :
      Rule scope (.jump (.label name) :: .label name :: rest)
        [none, some (.label name)]

section Proposals

variable {scope : Scope} {code rest : List Instr} {first second : Instr}
  {patch : Patch}

theorem rule_of_forward :
    forward (scope.dead · rest) first second = some patch →
      Rule scope (first :: second :: rest) patch := by
  fun_cases forward (scope.dead · rest) first second with
  | case2 slot value kind lhs rhs imm form handed =>
      rintro ⟨⟩
      obtain ⟨rfl, other, dead⟩ := handed
      exact .compareConst form other dead
  | case5 slot value op dst lhs rhs imm form dead handed =>
      rintro ⟨⟩
      obtain ⟨rfl, other⟩ := handed
      exact .arithConst form other dead
  | case6 slot value op dst lhs rhs imm form dead _ handed =>
      rintro ⟨⟩
      obtain ⟨rfl, other, commutes⟩ := handed
      exact .arithConstLeft form other commutes dead
  | case9 op slot lhs rhs dst src handed =>
      rintro ⟨⟩
      obtain ⟨rfl, dead⟩ := handed
      exact .arithCopy dead
  | case11 op slot lhs imm dst src handed =>
      rintro ⟨⟩
      obtain ⟨rfl, dead⟩ := handed
      exact .arithImmCopy dead
  | case13 slot value dst src handed =>
      rintro ⟨⟩
      obtain ⟨rfl, dead⟩ := handed
      exact .constCopy dead
  | case15 slot src handed =>
      rintro ⟨⟩
      obtain ⟨rfl, dead⟩ := handed
      exact .registerBack dead
  | case17 slot global src handed =>
      rintro ⟨⟩
      obtain ⟨rfl, dead⟩ := handed
      exact .globalPush dead
  | case19 slot value src handed =>
      rintro ⟨⟩
      obtain ⟨rfl, dead⟩ := handed
      exact .constPush dead
  | case21 slot value global src handed =>
      rintro ⟨⟩
      obtain ⟨rfl, dead⟩ := handed
      exact .constStore dead
  | _ => simp

theorem rule_of_unusedValue
    (proposed : unusedValue scope code = some patch) :
    Rule scope code patch := by
  unfold unusedValue at proposed
  split at proposed
  · contradiction
  rename_i first rest
  split at proposed
  · rename_i unread
    obtain ⟨slot, writes, dead⟩ : ∃ slot,
        first.access.write? = some slot ∧ scope.dead slot rest = true := by
      simpa [Option.any_eq_true] using unread
    obtain rfl := Option.some.inj proposed
    unfold dropWrite
    split
    · rename_i dst global
      obtain rfl := Option.some.inj writes
      split
      · exact .unusedGlobalRead dead ‹_›
      · exact .unusedWrite writes dead fun _ _ _ => by simp_all
    · rename_i plain
      exact .unusedWrite writes dead fun dst global loads =>
        absurd loads (plain dst global)
  · split at proposed
    · contradiction
    · exact rule_of_forward proposed

theorem rule_of_checks :
    checks code = some patch → Rule scope code patch := by
  fun_cases checks code with
  | case1 index rest =>
      rintro ⟨⟩
      exact .suspendBefore
  | case2 =>
      rintro ⟨⟩
      exact .lineBefore
  | case3 slot rest =>
      rintro ⟨⟩
      exact .checkRead
  | case4 slot count rest enough =>
      rintro ⟨⟩
      exact .checkFrame enough
  | case6 slot count rest enough =>
      rintro ⟨⟩
      exact .checkVar enough
  | _ => simp

theorem rule_of_idle (proposed : idle scope.keepJitEntries first = true) :
    Rule scope (first :: rest) [none] := by
  unfold idle at proposed
  split at proposed
  · exact .jitEntry (by simpa using proposed)
  · obtain rfl := of_decide_eq_true proposed
    exact .popNone
  · obtain rfl := of_decide_eq_true proposed
    exact .pushNone
  · contradiction

theorem rule_of_discard {count : UInt16} :
    discard first count = some patch →
      Rule scope (first :: .pop count :: rest) patch := by
  fun_cases discard first count with
  | case1 slot enough =>
      rintro ⟨⟩
      exact .discardUnit (.var slot) enough
  | case3 value enough =>
      rintro ⟨⟩
      exact .discardUnit (.const value) enough
  | case5 enough =>
      rintro ⟨⟩
      exact .discardUnit .register enough
  | case7 slot enough =>
      rintro ⟨⟩
      exact .discardUnit (.frameAddr slot) enough
  | case9 slot enough =>
      rintro ⟨⟩
      exact .discardUnit (.varRef slot) enough
  | case11 value enough =>
      rintro ⟨⟩
      exact .discardConst8 enough
  | case13 enough =>
      rintro ⟨⟩
      exact .discardRead enough
  | case15 enough =>
      rintro ⟨⟩
      exact .discardRead8 enough
  | _ => simp

theorem rule_of_throughRegister :
    throughRegister (registerUsed rest) first second = some patch →
      Rule scope (first :: second :: rest) patch := by
  fun_cases throughRegister (registerUsed rest) first second with
  | case2 global src unused =>
      rintro ⟨⟩
      exact .globalWrite (eq_false_of_ne_true unused)
  | case3 global dst used =>
      rintro ⟨⟩
      exact .globalReadUsed used
  | case4 global dst unused =>
      rintro ⟨⟩
      exact .globalRead (eq_false_of_ne_true unused)
  | case6 slot unused =>
      rintro ⟨⟩
      exact .increment (eq_false_of_ne_true unused)
  | case8 slot unused =>
      rintro ⟨⟩
      exact .decrement (eq_false_of_ne_true unused)
  | case10 cond target unused =>
      rintro ⟨⟩
      exact .branchUnless (eq_false_of_ne_true unused)
  | case12 cond target unused =>
      rintro ⟨⟩
      exact .branchIf (eq_false_of_ne_true unused)
  | _ => simp

theorem rule_of_merge :
    merge first second = some patch →
      Rule scope (first :: second :: rest) patch := by
  fun_cases merge first second with
  | case1 slot =>
      rintro ⟨⟩
      exact .frameRead
  | case2 first second fits =>
      rintro ⟨⟩
      exact .pushTwice fits
  | case4 value slot inFrame =>
      rintro ⟨⟩
      exact .constRef inFrame
  | case7 count units =>
      rintro ⟨⟩
      exact .popReturn
  | case8 =>
      rintro ⟨⟩
      exact .suspendTwice
  | case9 first firstCue second secondCue =>
      rintro ⟨⟩
      exact .lineTwice
  | case10 name =>
      rintro ⟨⟩
      exact .jumpNext
  | _ => simp

theorem rule_of_fuse
    (proposed : fuse (registerUsed rest) first second = some patch) :
    Rule scope (first :: second :: rest) patch := by
  unfold fuse at proposed
  split at proposed
  · exact rule_of_discard proposed
  · rcases Option.or_eq_some_iff.mp proposed with registered | ⟨-, merged⟩
    · exact rule_of_throughRegister registered
    · exact rule_of_merge merged

theorem rule_of_simplify (proposed : simplify scope code = some patch) :
    Rule scope code patch := by
  unfold simplify at proposed
  split at proposed
  · contradiction
  · split at proposed
    · obtain rfl := Option.some.inj proposed
      exact rule_of_idle ‹_›
    · split at proposed
      · contradiction
      · exact rule_of_fuse proposed

end Proposals

/-- A patch makes the code lighter. -/
def Lightens (patch : Patch) (code : List Instr) : Prop :=
  Instr.totalWeight (patch.fillInstrs code) < Instr.totalWeight code

theorem Rule.lightens {scope : Scope} {window : List Instr} {patch : Patch}
    (rule : Rule scope window patch) : Lightens patch window := by
  unfold Lightens
  cases rule with
  | @unusedWrite instr slot rest =>
      have positive := instr.two_le_weight
      simp only [Patch.fillInstrs, Instr.totalWeight_cons]
      omega
  | @discardUnit first count rest =>
      have positive := first.two_le_weight
      have same : (Instr.pop (count - 1)).weight = (Instr.pop count).weight :=
        rfl
      simp only [Patch.fillInstrs, Instr.totalWeight_cons]
      omega
  | _ =>
      simp only [Patch.fillInstrs, Instr.totalWeight_cons, Instr.weight]
      omega

end Window

end StackAssembler
