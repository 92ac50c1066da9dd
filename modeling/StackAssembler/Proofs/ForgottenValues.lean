import StackAssembler.Proofs.ParallelRuns
import StackAssembler.Proofs.StraightRuns
import StackAssembler.Proofs.WindowRefinement

/-!
# Forgotten values

A temporary that is not read by name may still be read through the register.
It is forgotten only if the register does not lead to it, or is not used before
it is replaced.  States that differ in forgotten temporaries and in a register
that is not used cannot be told apart by a straight run.

This takes instructions that put the address of a slot in the register by naming
the slot, or code for which no slot has an address.
-/

namespace StackAssembler

namespace Straight

open Evaluation (Machine Breakdown Dead)
open Liveness RunState Window

/-! ## States that cannot be told apart -/

/-- A temporary that is not read from a place on, neither by name nor through
the register. -/
def Forgotten (space : Space) (temporaries : SlotSet)
    (code rest : List Instr) (register : UInt32) (slot : Slot) : Prop :=
  Dead temporaries code rest slot ∧
    (space.slotAt? register = some slot → registerUsed rest = false)

/-- States that differ only in what is forgotten from a place on. -/
def Alike (space : Space) (temporaries : SlotSet) (code rest : List Instr)
    (first second : State) : Prop :=
  Agree (Forgotten space temporaries code rest second.register)
    (registerUsed rest = false) first second

/-- The instruction puts the address of a slot in the register only by naming
the slot.  What else it may put there, or finds in memory, is no slot. -/
def Tame (space : Space) : Instr → Prop
  | .loadVar slot => space.slotAt? (space.slot slot) = some slot
  | .copyVarToReg4 _ | .cmp .. | .cmpImm .. | .test _ | .loadGlobal _
  | .loadGlobalReadReg4 .. | .pushGlobal _ | .copyVarToGlobal4 ..
  | .copyGlobalToVar4 .. | .setGlobal4 .. => space.Separate
  | _ => True

section Steps

variable {machine : Machine} {space : Space} {temporaries : SlotSet}
  {code rest : List Instr} {instr : Instr} {first second : State}

/-- What a tame instruction does to the register. -/
theorem register_of_step {state after : State} (tame : Tame space instr)
    (stepped : step machine space state instr = .ok after) :
    (instr.endsRegisterScan = false ∧ after.register = state.register) ∨
      (∃ slot, instr = .loadVar slot ∧ after.register = space.slot slot) ∨
        space.Separate := by
  cases instr with
  | loadVar slot =>
      obtain rfl := Except.ok.inj stepped
      exact .inr (.inl ⟨slot, rfl, rfl⟩)
  | copyVarToReg4 | cmp | cmpImm | test | loadGlobal | loadGlobalReadReg4
  | pushGlobal | copyVarToGlobal4 | copyGlobalToVar4 | setGlobal4 =>
      exact .inr (.inr tame)
  | setVar4 | copyVar4 | incVi | decVi | binOp | binOpImm | push | pushConst
  | pushVar | copyRegToVar4 | readReg4 =>
      obtain rfl := Except.ok.inj stepped
      exact .inl ⟨rfl, rfl⟩
  | writeVar4 | incI | decI =>
      obtain rfl := Except.ok.inj stepped
      exact .inl ⟨rfl, register_save _ _ _⟩
  | pop count =>
      rw [step] at stepped
      split at stepped
      · obtain rfl := Except.ok.inj stepped
        exact .inl ⟨rfl, rfl⟩
      · cases stepped
  | swap4 =>
      rw [step] at stepped
      split at stepped
      · obtain rfl := Except.ok.inj stepped
        exact .inl ⟨rfl, rfl⟩
      · cases stepped
  | _ => cases stepped

theorem Alike.read
    (alike : Alike space temporaries code (instr :: rest) first second)
    (slot : Slot)
    (reads : instr.access.first? = some slot ∨
      instr.access.second? = some slot) :
    first.slots slot = second.slots slot :=
  Agree.read alike slot (fun forgotten => forgotten.1.2) reads

/-- An instruction that uses the register finds the same value where it leads
to. -/
theorem Alike.load
    (alike : Alike space temporaries code (instr :: rest) first second)
    (reads : instr.readsRegister = true) :
    first.load space second.register = second.load space second.register := by
  unfold State.load
  split
  · rename_i slot there
    rcases alike.slots slot with equal | ⟨-, hidden⟩
    · exact equal
    · simp [not_readsRegister (hidden there)] at reads
  · rw [alike.outside]

/-- Behind an instruction that keeps the register, slots that it does not write
stay forgotten. -/
theorem Forgotten.next {register : UInt32} {slot : Slot}
    (forgotten : Forgotten space temporaries code (instr :: rest) register
      slot)
    (falls : instr.fallsThrough = true)
    (kept : (instr.access.writes slot || instr.dropsTemporaries) = false)
    (scanned : instr.endsRegisterScan = false) :
    Forgotten space temporaries code rest register slot :=
  ⟨forgotten.1.next falls kept, fun there =>
    registerUsed_next (forgotten.2 there) scanned⟩

theorem Alike.next
    (alike : Alike space temporaries code (instr :: rest) first second)
    (falls : instr.fallsThrough = true)
    (writesNone : instr.access.write? = none)
    (keeps : instr.dropsTemporaries = false)
    (scanned : instr.endsRegisterScan = false) :
    Alike space temporaries code rest first second :=
  (Agree.behind alike writesNone keeps fun _ forgotten kept =>
    forgotten.next falls kept scanned).weaken (fun _ => id)
      fun unused => registerUsed_next unused scanned

theorem Alike.set
    (alike : Alike space temporaries code (instr :: rest) first second)
    {slot : Slot} {value : UInt32} (falls : instr.fallsThrough = true)
    (writesOne : instr.access.write? = some slot ∨
      instr.access.write? = none)
    (keeps : instr.dropsTemporaries = false)
    (scanned : instr.endsRegisterScan = false) :
    Alike space temporaries code rest (first.set slot value)
      (second.set slot value) :=
  Agree.write alike writesOne keeps scanned fun _ forgotten kept =>
    forgotten.next falls kept scanned

theorem Alike.save (alike : Alike space temporaries code rest first second)
    (address value : UInt32) :
    Alike space temporaries code rest (first.save space address value)
      (second.save space address value) := by
  unfold Alike
  rw [register_save]
  unfold State.save
  split
  · exact (Agree.set alike _ value).weaken (fun _ dead => dead.1) id
  · exact { alike with outside := by simp [alike.outside] }

/-- States stay alike when the same value is put in the register of both,
unless it leads to a slot in which they differ. -/
theorem Alike.reload
    (alike : Alike space temporaries code (instr :: rest) first second)
    {register : UInt32} (falls : instr.fallsThrough = true)
    (writesNone : instr.access.write? = none)
    (keeps : instr.dropsTemporaries = false)
    (same : ∀ slot, space.slotAt? register = some slot →
      first.slots slot = second.slots slot) :
    Alike space temporaries code rest { first with register }
      { second with register } where
  slots slot := by
    by_cases there : space.slotAt? register = some slot
    · exact .inl (same slot there)
    · refine (alike.slots slot).imp_right fun forgotten => ⟨?_, ?_⟩
      · exact forgotten.1.next falls
          (by simp [Access.writes, writesNone, keeps])
      · intro leads
        exact absurd leads there
  stack := alike.stack
  register := .inl rfl
  outside := alike.outside

theorem Alike.view (alike : Alike space temporaries code rest first second) :
    first.view temporaries = second.view temporaries := by
  unfold State.view
  congr 1
  · funext slot
    rcases alike.slots slot with equal | ⟨⟨temporary, -⟩, -⟩
    · rw [equal]
    · rw [if_pos temporary, if_pos temporary]
  · exact alike.outside
  · exact alike.stack

variable (machine) in
/-- One step from alike states fails for the same cause or leads to alike
states. -/
theorem step_alike (tame : Tame space instr)
    (alike : Alike space temporaries code (instr :: rest) first second) :
    Agreeing (Alike space temporaries code rest)
      (step machine space first instr) (step machine space second instr) := by
  have apart (separate : space.Separate) {register : UInt32} (slot : Slot)
      (there : space.slotAt? register = some slot) :
      first.slots slot = second.slots slot := by
    cases (separate register).symm.trans there
  cases instr with
  | setVar4 dst value => exact .ok (alike.set rfl (.inl rfl) rfl rfl)
  | copyVar4 dst src =>
      rw [step, step, alike.read src (.inl rfl)]
      exact .ok (alike.set rfl (.inl rfl) rfl rfl)
  | incVi slot | decVi slot =>
      rw [step, step, alike.read slot (.inl rfl)]
      exact .ok (alike.set rfl (.inr rfl) rfl rfl)
  | binOp op dst lhs rhs =>
      rw [step, step, alike.read lhs (.inl rfl), alike.read rhs (.inr rfl)]
      exact .ok (alike.set rfl (.inl rfl) rfl rfl)
  | binOpImm op dst lhs imm =>
      rw [step, step, alike.read lhs (.inl rfl)]
      exact .ok (alike.set rfl (.inl rfl) rfl rfl)
  | cmp kind lhs rhs =>
      rw [step, step, alike.read lhs (.inl rfl), alike.read rhs (.inr rfl)]
      exact .ok (alike.reload rfl rfl rfl (apart tame))
  | cmpImm kind lhs imm =>
      rw [step, step, alike.read lhs (.inl rfl)]
      exact .ok (alike.reload rfl rfl rfl (apart tame))
  | test cond =>
      rw [step, step, alike.readRegister rfl]
      exact .ok (alike.reload rfl rfl rfl (apart tame))
  | copyVarToReg4 src =>
      rw [step, step, alike.read src (.inl rfl)]
      exact .ok (alike.reload rfl rfl rfl (apart tame))
  | loadGlobal global =>
      exact .ok (alike.reload rfl rfl rfl (apart tame))
  | loadVar slot =>
      -- The address leads to the slot that is named, which is read here.
      refine .ok (alike.reload rfl rfl rfl fun other there => ?_)
      obtain rfl := Option.some.inj (tame.symm.trans there)
      exact alike.read _ (.inl rfl)
  | loadGlobalReadReg4 dst global =>
      rw [step, step, load_of_separate tame, load_of_separate tame,
        alike.outside]
      refine .ok (((Agree.set alike dst _).withRegister _).weaken ?_ id)
      rintro slot ⟨forgotten, other⟩
      refine ⟨forgotten.1.next rfl ?_, fun there => ?_⟩
      · simp [Instr.access, Access.write, Access.writes, Ne.symm other,
          Instr.dropsTemporaries]
      · cases (tame _).symm.trans there
  | copyRegToVar4 dst =>
      rw [step, step, alike.readRegister rfl]
      exact .ok (alike.set rfl (.inl rfl) rfl rfl)
  | readReg4 dst =>
      rw [step, step, alike.readRegister rfl, alike.load rfl]
      exact .ok (alike.set rfl (.inl rfl) rfl rfl)
  | writeVar4 src =>
      rw [step, step, alike.readRegister rfl, alike.read src (.inl rfl)]
      exact .ok ((alike.next rfl rfl rfl rfl).save _ _)
  | incI | decI =>
      rw [step, step, alike.readRegister rfl, alike.load rfl]
      exact .ok ((alike.next rfl rfl rfl rfl).save _ _)
  | copyVarToGlobal4 global src =>
      rw [step, step, alike.read src (.inl rfl)]
      exact .ok ((alike.next rfl rfl rfl rfl).save _ _)
  | setGlobal4 global value =>
      exact .ok ((alike.next rfl rfl rfl rfl).save _ _)
  | copyGlobalToVar4 dst global =>
      rw [step, step, load_of_separate tame, load_of_separate tame,
        alike.outside]
      exact .ok (alike.set rfl (.inl rfl) rfl rfl)
  | push count =>
      rw [step, step, alike.stack]
      exact .ok ((alike.next rfl rfl rfl rfl).withStack _)
  | pop count =>
      rw [step, step, alike.stack]
      split
      · exact .ok ((alike.next rfl rfl rfl rfl).withStack _)
      · exact .error _
  | swap4 =>
      rw [step, step, alike.stack]
      split
      · exact .ok ((alike.next rfl rfl rfl rfl).withStack _)
      · exact .error _
  | pushConst value => exact .ok ((alike.next rfl rfl rfl rfl).push value)
  | pushVar slot =>
      rw [step, step, alike.read slot (.inl rfl)]
      exact .ok ((alike.next rfl rfl rfl rfl).push _)
  | pushGlobal global =>
      rw [step, step, load_of_separate tame, load_of_separate tame,
        alike.outside]
      exact .ok ((alike.next rfl rfl rfl rfl).push _)
  | _ => exact .error _

theorem seen_alike (tame : ∀ instr ∈ rest, Tame space instr)
    (alike : Alike space temporaries code rest first second) :
    seen machine space temporaries rest first =
      seen machine space temporaries rest second := by
  induction rest generalizing first second with
  | nil => exact congrArg Except.ok alike.view
  | cons instr rest ih =>
      have stepped := step_alike machine (tame instr List.mem_cons_self) alike
      rw [seen, seen, run, run]
      generalize step machine space first instr = early at stepped ⊢
      generalize step machine space second instr = late at stepped ⊢
      cases stepped with
      | error cause => rfl
      | ok alike =>
          exact ih (fun other member =>
            tame other (List.mem_cons_of_mem _ member)) alike

end Steps

/-! ## Values that are written in vain or too early -/

section Writes

variable {machine : Machine} {space : Space} {temporaries : SlotSet}
  {code rest : List Instr}

theorem alike_register (unused : registerUsed rest = false) (state : State)
    (register : UInt32) :
    Alike space temporaries code rest { state with register } state :=
  agree_register unused register

/-- Two instructions and another one that lead to alike states. -/
theorem seen_fuse (code : List Instr) {first second new : Instr}
    {state middle after other : State}
    (tame : ∀ instr ∈ first :: second :: rest, Tame space instr)
    (firstStep : step machine space state first = .ok middle)
    (secondStep : step machine space middle second = .ok after)
    (newStep : step machine space state new = .ok other)
    (alike : Alike space temporaries code rest after other) :
    seen machine space temporaries (first :: second :: rest) state =
      seen machine space temporaries (new :: rest) state := by
  rw [seen_of_ok firstStep, seen_of_ok secondStep, seen_of_ok newStep]
  exact seen_alike (List.forall_mem_cons.mp (List.forall_mem_cons.mp
    tame).2).2 alike

variable (machine) in
/-- An instruction that a constant may be moved across, and that does not work
on its slot through the register, does the same before and behind the write of
the constant. -/
theorem step_set {instr : Instr} {slot : Slot} {state : State}
    (crossable : Crossable slot instr) (tame : Tame space instr)
    (elsewhere : instr.readsRegister = true →
      space.slotAt? state.register ≠ some slot) (value : UInt32) :
    (∃ after, step machine space state instr = .ok after ∧
      step machine space (state.set slot value) instr =
        .ok (after.set slot value)) ∨
    ∃ cause, step machine space state instr = .error cause ∧
      step machine space (state.set slot value) instr = .error cause := by
  obtain ⟨unread, unbarred⟩ := crossable
  have apart {other : Slot}
      (reads : instr.access.first? = some other ∨
        instr.access.second? = some other) :
      other ≠ slot := by
    rintro rfl
    rcases reads with reads | reads <;> simp [Access.reads, reads] at unread
  have unwritten {other : Slot}
      (writes : instr.access.write? = some other) : other ≠ slot := by
    rintro rfl
    simp [Access.writes, writes] at unbarred
  have outside (separate : space.Separate) (address : UInt32) :
      space.slotAt? address ≠ some slot := by
    rw [separate address]
    exact (Option.some_ne_none slot).symm
  cases instr with
  | push | pushConst | test | loadVar | loadGlobal =>
      exact .inl ⟨_, rfl, rfl⟩
  | setVar4 dst =>
      exact .inl ⟨_, rfl, by rw [step, set_comm (unwritten rfl)]⟩
  | copyRegToVar4 dst =>
      exact .inl ⟨_, rfl, by rw [step, set_comm (unwritten rfl)]; rfl⟩
  | copyVar4 dst src | binOpImm op dst src =>
      refine .inl ⟨_, rfl, ?_⟩
      rw [step, slots_set_of_ne (apart (.inl rfl)), set_comm (unwritten rfl)]
  | incVi other | decVi other =>
      refine .inl ⟨_, rfl, ?_⟩
      rw [step, slots_set_of_ne (apart (.inl rfl)),
        set_comm (apart (.inl rfl))]
  | binOp op dst lhs rhs =>
      refine .inl ⟨_, rfl, ?_⟩
      rw [step, slots_set_of_ne (apart (.inl rfl)),
        slots_set_of_ne (apart (.inr rfl)), set_comm (unwritten rfl)]
  | cmp kind lhs rhs =>
      refine .inl ⟨_, rfl, ?_⟩
      rw [step, slots_set_of_ne (apart (.inl rfl)),
        slots_set_of_ne (apart (.inr rfl))]
      rfl
  | cmpImm | pushVar | copyVarToReg4 =>
      refine .inl ⟨_, rfl, ?_⟩
      rw [step, slots_set_of_ne (apart (.inl rfl))]
      rfl
  | copyVarToGlobal4 global src =>
      refine .inl ⟨_, rfl, ?_⟩
      rw [step, slots_set_of_ne (apart (.inl rfl)),
        save_set (outside tame _)]
  | setGlobal4 global imm =>
      exact .inl ⟨_, rfl, by rw [step, save_set (outside tame _)]⟩
  | pushGlobal global =>
      exact .inl ⟨_, rfl, by rw [step, load_set (outside tame _)]; rfl⟩
  | copyGlobalToVar4 dst global =>
      refine .inl ⟨_, rfl, ?_⟩
      rw [step, load_set (outside tame _), set_comm (unwritten rfl)]
  | loadGlobalReadReg4 dst global =>
      refine .inl ⟨_, rfl, ?_⟩
      rw [step, load_set (outside tame _), set_comm (unwritten rfl)]
      rfl
  | readReg4 dst =>
      refine .inl ⟨_, rfl, ?_⟩
      rw [step, register_set, load_set (elsewhere rfl),
        set_comm (unwritten rfl)]
  | writeVar4 src =>
      refine .inl ⟨_, rfl, ?_⟩
      rw [step, register_set, slots_set_of_ne (apart (.inl rfl)),
        save_set (elsewhere rfl)]
  | incI | decI =>
      refine .inl ⟨_, rfl, ?_⟩
      rw [step, register_set, load_set (elsewhere rfl),
        save_set (elsewhere rfl)]
  | pop count =>
      by_cases enough : count.toNat ≤ state.stack.length
      · exact .inl ⟨_, if_pos enough, if_pos enough⟩
      · exact .inr ⟨_, if_neg enough, if_neg enough⟩
  | swap4 =>
      rcases shape : state.stack with _ | ⟨first, _ | ⟨second, more⟩⟩
      · exact .inr ⟨.shortSwap, by simp [step, shape],
          by simp [step, RunState.set, shape]⟩
      · exact .inr ⟨.shortSwap, by simp [step, shape],
          by simp [step, RunState.set, shape]⟩
      · exact .inl ⟨{ state with stack := second :: first :: more },
          by simp [step, shape], by simp [step, RunState.set, shape]⟩
  | _ => exact .inr ⟨_, rfl, rfl⟩

/-- A constant may be written later, if nothing up to there looks at it, neither
by name nor through the register. -/
theorem seen_postpone {slot : Slot} {value : UInt32}
    {skipped : List Instr} {state : State}
    (passed : ∀ instr ∈ skipped, Crossable slot instr)
    (tame : ∀ instr ∈ skipped, Tame space instr)
    (hidden : space.slotAt? state.register = some slot →
      registerUsed (skipped ++ rest) = false) :
    seen machine space temporaries (skipped ++ rest) (state.set slot value) =
      seen machine space temporaries (skipped ++ .setVar4 slot value :: rest)
        state := by
  induction skipped generalizing state with
  | nil => exact (seen_of_ok rfl).symm
  | cons instr skipped ih =>
      have crossable := passed instr List.mem_cons_self
      have instrTame := tame instr List.mem_cons_self
      have elsewhere (reads : instr.readsRegister = true) :
          space.slotAt? state.register ≠ some slot := by
        intro there
        simp [not_readsRegister (hidden there)] at reads
      rcases step_set machine crossable instrTame elsewhere value with
        ⟨after, stepped, shifted⟩ | ⟨cause, stepped, shifted⟩
      · rw [List.cons_append, List.cons_append, seen_of_ok stepped,
          seen_of_ok shifted]
        apply ih
        · intro other member
          exact passed other (List.mem_cons_of_mem _ member)
        · intro other member
          exact tame other (List.mem_cons_of_mem _ member)
        · intro there
          rcases register_of_step instrTame stepped with
            ⟨scanned, same⟩ | ⟨named, rfl, same⟩ | separate
          · rw [same] at there
            exact registerUsed_next (hidden there) scanned
          -- The slot would have been read in order to point to it.
          · rw [same] at there
            obtain rfl := Option.some.inj (instrTame.symm.trans there)
            have unread := crossable.unread
            simp [Instr.access, Access.read, Access.reads] at unread
          · cases (separate _).symm.trans there
      · rw [List.cons_append, List.cons_append, seen_of_error stepped,
          seen_of_error shifted]

end Writes

/-! ## The instructions of rewritten code -/

theorem mem_fillInstrs {patch : Patch} {window : List Instr} {instr : Instr}
    (member : instr ∈ patch.fillInstrs window) :
    some instr ∈ patch ∨ instr ∈ window := by
  fun_induction Patch.fillInstrs patch window with
  | case1 window => exact .inr member
  | case2 => cases member
  | case3 new patch old window ih =>
      rcases List.mem_cons.mp member with rfl | later
      · exact .inl List.mem_cons_self
      · exact (ih later).imp (List.mem_cons_of_mem _) (List.mem_cons_of_mem _)
  | case4 patch old window ih =>
      exact (ih member).imp (List.mem_cons_of_mem _) (List.mem_cons_of_mem _)

/-- What holds of all instructions, and of those that the rules put in their
place, holds of all instructions after a rewrite. -/
theorem forall_mem_of_rewrite {temporaries : SlotSet} {keepJitEntries : Bool}
    {good : Instr → Prop}
    (rules : ∀ {code window : List Instr} {patch : Patch},
      Rule (scopeOf temporaries keepJitEntries code) window patch →
        (∀ instr ∈ window, good instr) →
          ∀ instr, some instr ∈ patch → good instr)
    {before after : List Entry}
    (rewrite : Rewrite temporaries keepJitEntries before after)
    (all : ∀ instr ∈ before.map (·.instr), good instr) :
    ∀ instr ∈ after.map (·.instr), good instr := by
  obtain ⟨front, old, new, oldEq, newEq, revision⟩ := rewrite.revision
  rw [oldEq, List.forall_mem_append] at all
  rw [newEq, List.forall_mem_append]
  refine ⟨all.1, fun instr member => ?_⟩
  cases revision with
  | patch rule =>
      rcases mem_fillInstrs member with put | kept
      · exact rules rule all.2 instr put
      · exact all.2 instr kept
  | postpone | exchange =>
      apply all.2 instr
      simp only [List.mem_append, List.mem_cons] at member ⊢
      grind

end Straight

end StackAssembler
