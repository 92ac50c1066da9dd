import StackAssembler.Proofs.AcceptedRuns
import StackAssembler.Proofs.ForgottenValues

/-!
# Tightening keeps the effects on globals

Code that computes with slots, the stack, the register and globals, where no
slot has an address.  Every revision of the window keeps what is seen of a run:
the slots that are no temporaries, the memory, and the stack.  A load of a
global that fuses with the instruction behind it may leave another value in the
register, but only if that is not used.
-/

namespace StackAssembler

/-- Instructions that compute with slots, the stack, the register and
globals. -/
def Instr.isFusible : Instr → Bool
  | setVar4 .. | copyVar4 .. | incVi _ | decVi _ | binOp .. | binOpImm ..
  | pushConst _ | pushVar _ | pushGlobal _ | push _ | pop _ | swap4
  | copyVarToReg4 _ | copyRegToVar4 _ | copyVarToGlobal4 ..
  | copyGlobalToVar4 .. | loadGlobalReadReg4 .. | setGlobal4 .. | loadGlobal _
  | writeVar4 _ | readReg4 _ | cmp .. | cmpImm .. | test _ => true
  | _ => false

theorem Instr.hasStraightMeaning_of_isFusible {instr : Instr}
    (fusible : instr.isFusible = true) : instr.hasStraightMeaning = true := by
  cases instr <;> first | rfl | cases fusible

namespace Straight

open Evaluation (Machine Breakdown Dead dead_of_scopeOf)
open Liveness RunState Window

theorem tame_of_isFusible {space : Space} (separate : space.Separate)
    {instr : Instr} (fusible : instr.isFusible = true) : Tame space instr := by
  cases instr <;> trivial

section Windows

variable {machine : Machine} {space : Space} {temporaries : SlotSet}
  {keepJitEntries : Bool} {code rest : List Instr} {state : State}

theorem seen_pop_push {count : UInt16} (enough : 1 ≤ count) (value : UInt32) :
    seen machine space temporaries (.pop count :: rest) (state.push value) =
      seen machine space temporaries (.pop (count - 1) :: rest) state := by
  have fewer : count.toNat = (count - 1).toNat + 1 := by
    have positive : 1 ≤ count.toNat := UInt16.le_iff_toNat_le.mp enough
    rw [UInt16.toNat_sub_of_le _ _ enough]
    exact (Nat.sub_add_cancel positive).symm
  simp [seen, run, step, RunState.push, fewer]

theorem alike_set_register {slot : Slot} {register : UInt32}
    (forgotten : Forgotten space temporaries code rest register slot)
    (state : State) (value : UInt32) :
    Alike space temporaries code rest
      { state.set slot value with register } { state with register } :=
  @agree_set _ _ _ _ { state with register } slot forgotten
    value

/-- What a plain push pushes depends on the slots only. -/
theorem step_plainPush (machine : Machine) (space : Space) {instr : Instr}
    (pushes : isPlainPush instr = true) (fusible : instr.isFusible = true) :
    ∃ value : (Slot → UInt32) → UInt32, ∀ state : State,
      step machine space state instr =
        .ok (state.push (value state.slots)) := by
  cases instr with
  | pushConst value => exact ⟨fun _ => value, fun _ => rfl⟩
  | pushVar slot => exact ⟨fun slots => slots slot, fun _ => rfl⟩
  | pushFrameAddr slot => cases fusible
  | _ => cases pushes

theorem seen_exchange {first second : Instr}
    (firstPush : isPlainPush first = true)
    (secondPush : isPlainPush second = true)
    (firstFusible : first.isFusible = true)
    (secondFusible : second.isFusible = true) :
    seen machine space temporaries (first :: second :: .swap4 :: rest) state =
      seen machine space temporaries (second :: first :: rest) state := by
  obtain ⟨value, pushed⟩ := step_plainPush machine space firstPush firstFusible
  obtain ⟨other, otherPushed⟩ :=
    step_plainPush machine space secondPush secondFusible
  rw [seen_of_ok (pushed state), seen_of_ok (otherPushed _), seen_of_ok rfl,
    seen_of_ok (otherPushed state), seen_of_ok (pushed _)]
  rfl

section Separate

variable (separate : space.Separate)

include separate

theorem forgotten_of_scopeOf {slot : Slot}
    (dead : (scopeOf temporaries keepJitEntries code).dead slot rest = true)
    (register : UInt32) :
    Forgotten space temporaries code rest register slot := by
  refine ⟨dead_of_scopeOf dead, fun there => ?_⟩
  cases (separate register).symm.trans there

theorem seen_unusedWrite {instr : Instr} {slot : Slot}
    (tame : ∀ instr ∈ rest, Tame space instr)
    (fusible : instr.isFusible = true)
    (writes : instr.access.write? = some slot)
    (dead : (scopeOf temporaries keepJitEntries code).dead slot rest = true)
    (unused : ∀ dst global, instr = .loadGlobalReadReg4 dst global →
      registerUsed rest = false) :
    seen machine space temporaries (instr :: rest) state =
      seen machine space temporaries rest state := by
  have forgotten := forgotten_of_scopeOf separate dead state.register
  cases instr with
  | setVar4 | copyVar4 | binOp | binOpImm | copyRegToVar4 | readReg4
  | copyGlobalToVar4 =>
      obtain rfl := Option.some.inj writes
      rw [seen_of_ok rfl]
      exact seen_alike tame (agree_set forgotten _)
  | loadGlobalReadReg4 dst global =>
      obtain rfl := Option.some.inj writes
      rw [seen_of_ok rfl]
      have idle := unused dst global rfl
      exact seen_alike tame
        { @agree_set _ _ _ False _ _ forgotten _ with register := .inr idle }
  | setVar8 => cases fusible
  | _ => cases writes

/-- A rule keeps what is seen of a run from its window on. -/
theorem seen_of_rule {window : List Instr} {patch : Patch}
    (rule : Rule (scopeOf temporaries keepJitEntries code) window patch)
    (fusible : ∀ instr ∈ window, instr.isFusible = true) :
    seen machine space temporaries window state =
      seen machine space temporaries (patch.fillInstrs window) state := by
  have tame (instr : Instr) (member : instr ∈ window) : Tame space instr :=
    tame_of_isFusible separate (fusible instr member)
  cases rule with
  | unusedWrite writes dead unused =>
      exact seen_unusedWrite separate (List.forall_mem_cons.mp tame).2
        (fusible _ List.mem_cons_self) writes dead unused
  | @unusedGlobalRead slot global rest dead =>
      have forgotten := forgotten_of_scopeOf separate dead
        (space.global global)
      refine ((seen_of_ok rfl).trans ?_).trans (seen_of_ok rfl).symm
      exact seen_alike (List.forall_mem_cons.mp tame).2
        (alike_set_register forgotten _ _)
  | @compareConst slot lhs value kind imm rest form other dead =>
      refine seen_fuse code tame rfl rfl rfl ?_
      rw [slots_set_of_ne other, slots_set_self, machine.compareImm_eq form]
      exact alike_set_register (forgotten_of_scopeOf separate dead _) _ _
  | arithConst form other dead =>
      refine seen_fuse code tame rfl rfl rfl ?_
      rw [slots_set_of_ne other, slots_set_self, machine.arithImm_eq form]
      exact agree_set_set
        (dead.imp_right fun dead => forgotten_of_scopeOf separate dead _) _ _
  | arithConstLeft form other commutes dead =>
      refine seen_fuse code tame rfl rfl rfl ?_
      rw [slots_set_of_ne other, slots_set_self, machine.arithImm_eq form,
        machine.arith_comm commutes]
      exact agree_set_set
        (dead.imp_right fun dead => forgotten_of_scopeOf separate dead _) _ _
  | arithCopy dead | arithImmCopy dead | constCopy dead =>
      refine seen_fuse code tame rfl rfl rfl ?_
      rw [slots_set_self]
      exact agree_set_set (.inr (forgotten_of_scopeOf separate dead _)) _ _
  | registerBack dead =>
      rw [seen_of_ok rfl, seen_of_ok rfl, slots_set_self]
      exact seen_alike (List.forall_mem_cons.mp (List.forall_mem_cons.mp
        tame).2).2 (agree_set (forgotten_of_scopeOf separate dead _) _)
  | globalPush dead | constPush dead =>
      refine seen_fuse code tame rfl rfl rfl ?_
      rw [slots_set_self]
      have forgotten := forgotten_of_scopeOf separate dead state.register
      exact (agree_set forgotten _).push _
  | constStore dead =>
      refine seen_fuse code tame rfl rfl rfl ?_
      rw [slots_set_self]
      exact Alike.save (agree_set (forgotten_of_scopeOf separate dead _) _) _ _
  | popNone | pushNone => exact seen_of_ok rfl
  | discardUnit pushes enough =>
      cases pushes with
      | var | const => exact (seen_of_ok rfl).trans (seen_pop_push enough _)
      | register | frameAddr | varRef => cases fusible _ List.mem_cons_self
  | globalWrite unused =>
      refine seen_fuse code tame rfl rfl rfl ?_
      rw [save_register]
      exact alike_register unused _ _
  | globalReadUsed =>
      exact seen_fuse code tame rfl rfl rfl (.refl _ _ _)
  | globalRead unused =>
      exact seen_fuse code tame rfl rfl rfl (alike_register unused _ _)
  | @pushTwice first second rest fits =>
      have sum : (first + second).toNat = second.toNat + first.toNat := by
        rw [UInt16.toNat_add, Nat.add_comm second.toNat]
        exact Nat.mod_eq_of_lt fits
      refine seen_fuse code tame rfl rfl rfl ?_
      rw [← List.append_assoc, List.replicate_append_replicate, sum]
      exact .refl _ _ _
  | suspendBefore | lineBefore | checkRead | checkFrame | jitEntry
  | discardConst8 | discardRead | discardRead8 | increment | decrement
  | frameRead | suspendTwice | lineTwice | jumpNext =>
      cases fusible _ List.mem_cons_self
  | checkVar | branchUnless | branchIf | constRef | popReturn =>
      cases fusible _ (List.mem_cons_of_mem _ List.mem_cons_self)

/-- A revision keeps what is seen of a run from its window on. -/
theorem seen_of_revision {old new : List Instr}
    (revision : Revision temporaries keepJitEntries code old new)
    (fusible : ∀ instr ∈ old, instr.isFusible = true) :
    seen machine space temporaries old state =
      seen machine space temporaries new state := by
  cases revision with
  | patch rule => exact seen_of_rule separate rule fusible
  | postpone passed =>
      rw [seen_of_ok rfl]
      apply seen_postpone passed
      · intro instr member
        exact tame_of_isFusible separate (fusible instr (by simp [member]))
      · intro there
        cases (separate _).symm.trans there
  | exchange firstPush secondPush =>
      exact seen_exchange firstPush secondPush (fusible _ (by simp))
        (fusible _ (by simp))

end Separate

end Windows

section Programs

variable {temporaries : SlotSet} {keepJitEntries : Bool}

theorem isFusible_of_rule {code window : List Instr} {patch : Patch}
    (rule : Rule (scopeOf temporaries keepJitEntries code) window patch)
    (fusible : ∀ instr ∈ window, instr.isFusible = true) :
    ∀ instr, some instr ∈ patch → instr.isFusible = true := by
  cases rule with
  | unusedWrite | registerBack | popNone | pushNone => simp
  | unusedGlobalRead | compareConst | arithConst | arithConstLeft | arithCopy
  | arithImmCopy | constCopy | globalPush | constPush | constStore
  | discardUnit | globalWrite | globalReadUsed | globalRead | pushTwice =>
      simp [Instr.isFusible]
  | suspendBefore | lineBefore | checkRead | checkFrame | jitEntry
  | discardConst8 | discardRead | discardRead8 | increment | decrement
  | frameRead | suspendTwice | lineTwice | jumpNext =>
      cases fusible _ List.mem_cons_self
  | checkVar | branchUnless | branchIf | constRef | popReturn =>
      cases fusible _ (List.mem_cons_of_mem _ List.mem_cons_self)

theorem seen_of_rewrites {before after : List Entry}
    (rewrites : Relation.ReflTransGen (Rewrite temporaries keepJitEntries)
      before after)
    (fusible : ∀ instr ∈ before.map (·.instr), instr.isFusible = true)
    (machine : Machine) {space : Space} (separate : space.Separate)
    (state : State) :
    seen machine space temporaries (after.map (·.instr)) state =
      seen machine space temporaries (before.map (·.instr)) state := by
  -- Every rewrite leaves fusible code for the ones behind it.
  suffices kept : seen machine space temporaries (after.map (·.instr)) state =
      seen machine space temporaries (before.map (·.instr)) state ∧
        ∀ instr ∈ after.map (·.instr), instr.isFusible = true from kept.1
  induction rewrites with
  | refl => exact ⟨rfl, fusible⟩
  | tail _ rewrite ih =>
      obtain ⟨same, middle⟩ := ih
      refine ⟨?_, forall_mem_of_rewrite isFusible_of_rule rewrite middle⟩
      obtain ⟨front, old, new, oldEq, newEq, revision⟩ := rewrite.revision
      rw [← same, oldEq, newEq]
      rw [oldEq] at middle
      refine (seen_append (fun state => ?_) front state).symm
      exact seen_of_revision separate revision fun instr member =>
        middle instr (List.mem_append_right front member)

end Programs

/-- Tightening accepted code that computes with slots, the stack, the register
and globals changes nothing that is seen of its runs: where no slot has an
address, a run over the tightened code ends with the same slots, apart from the
temporaries, the same memory and the same stack.  It does end, if there are two
units on the stack in case some are exchanged. -/
theorem tighten_preserves_fusible {routine measured : Routine}
    {analysis : StackDepth.Analysis}
    (accepted : routine.measureDepths = (.ok analysis, measured))
    (fusible : ∀ instr ∈ routine.instrs, instr.isFusible = true)
    (keepJitEntries : Bool) :
    ∃ count tightened,
      measured.tighten keepJitEntries = .ok (count, tightened) ∧
        ∀ machine space, space.Separate → ∀ state,
          seen machine space routine.temporaries tightened.instrs state =
              seen machine space routine.temporaries routine.instrs state ∧
            ((.swap4 ∈ routine.instrs → 2 ≤ state.stack.length) →
              ∃ final, run machine space routine.instrs state =
                .ok final) := by
  have meaningful : ∀ instr ∈ routine.instrs,
      instr.hasStraightMeaning = true := fun instr member =>
    Instr.hasStraightMeaning_of_isFusible (fusible instr member)
  obtain ⟨count, tightened, done, same, rewrites⟩ :=
    exists_rewrites accepted meaningful keepJitEntries
  refine ⟨count, tightened, done, fun machine space separate state =>
    ⟨?_, exists_run accepted meaningful machine space⟩⟩
  rw [← same] at fusible ⊢
  exact seen_of_rewrites rewrites fusible machine separate state

/-- A global that is read into a temporary, changed by a constant in another
one, pushed and written back. -/
def tallying : Routine :=
  ((Routine.ofList [.loadGlobal 3, .readReg4 1, .setVar4 2 5,
    .binOp .addI 1 1 2, .pushVar 1, .setVar4 0 7, .pushVar 0, .swap4,
    .loadGlobal 3, .writeVar4 1, .copyVarToReg4 0, .copyRegToVar4 4,
    .pop 1]).markTemporary 1).markTemporary 2

theorem tighten_preserves_tallying :
    tallying.measureDepths.1 = .ok ⟨2, 0, []⟩ ∧
      ∃ count tightened,
        tallying.measureDepths.2.tighten true = .ok (count, tightened) ∧
          ∀ machine space, space.Separate → ∀ state,
            seen machine space tallying.temporaries tightened.instrs state =
                seen machine space tallying.temporaries tallying.instrs
                  state ∧
              ((.swap4 ∈ tallying.instrs → 2 ≤ state.stack.length) →
                ∃ final, run machine space tallying.instrs state =
                  .ok final) := by
  have accepted : tallying.measureDepths.1 = .ok ⟨2, 0, []⟩ := by cbv
  have fusible : ∀ instr ∈ tallying.instrs,
      instr.isFusible = true := by decide
  exact ⟨accepted,
    tighten_preserves_fusible (Prod.ext accepted rfl) fusible true⟩

end Straight

end StackAssembler
