import StackAssembler.Proofs.DeadValues
import StackAssembler.Proofs.Rewriting

/-!
# The meaning of a revised window

Every revision of the window keeps the trace of the code from there on, within
the same program.  The exception is a run that would break down anyway, for
want of stack units or at an instruction without a meaning: a discarded pop
before a return, for instance, no longer breaks down.
-/

namespace StackAssembler

namespace Evaluation

open Flow Liveness RunState Window

/-- The second trace is the first one, unless that fails. -/
def Trace.RefinedBy (first second : Trace) : Prop :=
  first = second ∨ first.Fails

namespace Trace.RefinedBy

theorem refl (trace : Trace) : trace.RefinedBy trace := .inl rfl

theorem trans {first second third : Trace} (early : first.RefinedBy second)
    (late : second.RefinedBy third) : first.RefinedBy third := by
  rcases early with rfl | fails
  · exact late
  · exact .inr fails

end Trace.RefinedBy

theorem dead_of_scopeOf {temporaries : SlotSet} {code rest : List Instr}
    {keepJitEntries : Bool} {slot : Slot}
    (dead : (scopeOf temporaries keepJitEntries code).dead slot rest = true) :
    Dead temporaries code rest slot := by
  obtain ⟨temporary, unread⟩ := Bool.and_eq_true_iff.mp dead
  exact ⟨temporary, unread_of_unreadFrom unread⟩

theorem handOver_handOver (machine : Machine) (temporaries : SlotSet)
    (passes : Nat) (state : State) :
    (state.handOver machine temporaries passes).handOver machine temporaries
        passes =
      state.handOver machine temporaries passes := by
  unfold State.handOver
  congr 1
  funext slot
  by_cases temporary : temporaries.contains slot = true <;> simp [temporary]

theorem holds_negate (cond : Condition) (value : Int32) :
    cond.negate.holds value = !cond.holds value := by
  rw [Bool.eq_iff_iff]
  cases cond <;>
    simp [Condition.negate, Condition.holds, Int32.not_lt, Int32.not_le]

theorem holds_zero_test (held : Bool) :
    Condition.zero.holds (if held then 1 else 0) = !held := by
  cases held <;> rfl

theorem holds_notZero_test (held : Bool) :
    Condition.notZero.holds (if held then 1 else 0) = held := by
  cases held <;> rfl

section Rules

variable {machine : Machine} {temporaries : SlotSet} {keepJitEntries : Bool}
  {code front window : List Instr} {patch : Patch}

theorem run_pop_push {rest : List Instr} {count : UInt16}
    (enough : 1 ≤ count) (value : UInt32) (passes : Nat) (state : State) :
    run machine temporaries code passes (.pop count :: rest)
        (state.push value) =
      run machine temporaries code passes (.pop (count - 1) :: rest)
        state := by
  have fewer : count.toNat = (count - 1).toNat + 1 := by
    have positive : 1 ≤ count.toNat := UInt16.le_iff_toNat_le.mp enough
    rw [UInt16.toNat_sub_of_le _ _ enough]
    exact (Nat.sub_add_cancel positive).symm
  simp [run, step, RunState.push, State.ends, fewer]

theorem run_test_branch {rest : List Instr} {cond tested direct : Condition}
    (same : ∀ value, tested.holds (if cond.holds value then 1 else 0) =
      direct.holds value)
    (unused : registerUsed rest = false) (target : Target) (passes : Nat)
    (state : State) :
    (run machine temporaries code passes
        (.test cond :: .branch tested target :: rest) state).RefinedBy
      (run machine temporaries code passes (.branch direct target :: rest)
        state) := by
  cases target with
  | offset distance => exact .inr (.inr (by simp [run, step, State.ends]))
  | label name =>
      left
      simp only [run, step, same]
      cases direct.holds state.register with
      | true => rfl
      | false => exact run_alike (agree_register unused _)

theorem refinedBy_of_rule
    (rule : Rule (scopeOf temporaries keepJitEntries code) window patch)
    (split : code = front ++ window) (distinct : (labels code).Nodup)
    (passes : Nat) (state : State) :
    (run machine temporaries code passes window state).RefinedBy
      (run machine temporaries code passes (patch.fillInstrs window)
        state) := by
  cases rule with
  | @unusedWrite instr slot rest writes dead _ =>
      cases instr with
      | setVar4 | copyVar4 | binOp | binOpImm =>
          obtain rfl := Option.some.inj writes
          left
          simp only [run, step]
          exact run_alike (agree_set (dead_of_scopeOf dead) _)
      -- These have no meaning, so the run of the old code fails at once.
      | copyRegToVar4 | readReg4 | setVar8 | copyGlobalToVar4
      | loadGlobalReadReg4 =>
          exact .inr (.inr (by simp [run, step, State.ends]))
      | _ => cases writes
  | compareConst form other dead =>
      left
      simp only [run, step, Patch.fillInstrs, slots_set_self,
        slots_set_of_ne other, machine.compareImm_eq form]
      exact run_alike ((@agree_set _ _ _ False _ _ (dead_of_scopeOf dead)
        _).withRegister _)
  | arithConst form other dead =>
      left
      simp only [run, step, Patch.fillInstrs, slots_set_self,
        slots_set_of_ne other, machine.arithImm_eq form]
      exact run_alike (agree_set_set (dead.imp_right dead_of_scopeOf) _ _)
  | arithConstLeft form other commutes dead =>
      left
      simp only [run, step, Patch.fillInstrs, slots_set_self,
        slots_set_of_ne other, machine.arithImm_eq form]
      rw [machine.arith_comm commutes]
      exact run_alike (agree_set_set (dead.imp_right dead_of_scopeOf) _ _)
  | arithCopy dead | arithImmCopy dead | constCopy dead =>
      left
      simp only [run, step, Patch.fillInstrs, slots_set_self]
      exact run_alike (agree_set_set (.inr (dead_of_scopeOf dead)) _ _)
  | constPush dead =>
      left
      simp only [run, step, Patch.fillInstrs, slots_set_self]
      exact run_alike ((agree_set (dead_of_scopeOf dead) _).push _)
  | constStore dead =>
      left
      simp only [run, step, Patch.fillInstrs, slots_set_self]
      exact run_alike ((agree_set (dead_of_scopeOf dead) _).emit _)
  | suspendBefore | suspendTwice =>
      left
      simp only [run, step, Patch.fillInstrs, handOver_handOver]
  | lineBefore | jitEntry | lineTwice =>
      left
      simp only [run, step, Patch.fillInstrs]
  | popNone | pushNone =>
      left
      simp [run, step, Patch.fillInstrs]
  | discardUnit pushes enough =>
      cases pushes with
      | var | const =>
          exact .inl ((run_of_next rfl).trans (run_pop_push enough _ _ _))
      | register | frameAddr | varRef =>
          exact .inr (.inr (by simp [run, step, State.ends]))
  | branchUnless unused =>
      refine run_test_branch (fun value => ?_) unused _ _ _
      rw [holds_zero_test, holds_negate]
  | branchIf unused =>
      exact run_test_branch (fun value => holds_notZero_test _) unused _ _ _
  | @pushTwice first second rest fits =>
      left
      have sum : (first + second).toNat = second.toNat + first.toNat := by
        rw [UInt16.toNat_add, Nat.add_comm second.toNat]
        exact Nat.mod_eq_of_lt fits
      simp only [run, step, Patch.fillInstrs, sum, ← List.append_assoc,
        List.replicate_append_replicate]
  | constRef inFrame =>
      exact .inr (.inr (by simp [run, step, State.ends]))
  | @popReturn count units rest =>
      by_cases enough : count.toNat ≤ state.stack.length
      · left
        simp only [run, step, Patch.fillInstrs, if_pos enough]
        rfl
      -- The old code breaks here, while the new one returns.
      · exact .inr (.inl (by simp [run, step, State.ends, enough]))
  | @jumpNext name rest =>
      left
      have located : codeBehind? code name = some rest := by
        rw [split, ← List.singleton_append, ← List.append_assoc] at distinct ⊢
        exact codeBehind?_append_label distinct
      simp only [run, step, Patch.fillInstrs, located]
  | unusedGlobalRead | registerBack | globalPush | checkRead | checkFrame
  | checkVar | discardConst8 | discardRead | discardRead8 | globalWrite
  | globalReadUsed | globalRead | increment | decrement | frameRead =>
      exact .inr (.inr (by simp [run, step, State.ends]))

/-- An instruction that a constant may be moved across does the same before
and behind the write of the constant. -/
theorem step_set {instr : Instr} {slot : Slot}
    (crossable : Crossable slot instr) (passes : Nat) (state : State)
    (value : UInt32) :
    (∃ after, step machine temporaries passes state instr = .next after ∧
      step machine temporaries passes (state.set slot value) instr =
        .next (after.set slot value)) ∨
    ∃ ending, step machine temporaries passes state instr =
        .done (state.ends ending) ∧
      step machine temporaries passes (state.set slot value) instr =
        .done (state.ends ending) := by
  obtain ⟨unread, unbarred⟩ := crossable
  have apart {other : Slot}
      (reads : instr.access.first? = some other ∨
        instr.access.second? = some other) :
      other ≠ slot := by
    rintro rfl
    rcases reads with reads | reads <;> simp [Access.reads, reads] at unread
  have elsewhere {other : Slot}
      (writes : instr.access.write? = some other) : other ≠ slot := by
    rintro rfl
    simp [Access.writes, writes] at unbarred
  cases instr with
  | label | suspend | jump | branch | jumpPtr | ret =>
      simp [Instr.dropsTemporaries, Instr.isBarrier, Instr.isJump] at unbarred
  | line | jitEntry | push | pushConst | setGlobal4 | test =>
      exact .inl ⟨_, rfl, rfl⟩
  | setVar4 dst =>
      exact .inl ⟨_, rfl, by rw [step, set_comm (elsewhere rfl)]⟩
  | copyVar4 dst src | binOpImm op dst src =>
      refine .inl ⟨_, rfl, ?_⟩
      rw [step, slots_set_of_ne (apart (.inl rfl)), set_comm (elsewhere rfl)]
  | incVi other | decVi other =>
      refine .inl ⟨_, rfl, ?_⟩
      rw [step, slots_set_of_ne (apart (.inl rfl)),
        set_comm (apart (.inl rfl))]
  | binOp op dst lhs rhs =>
      refine .inl ⟨_, rfl, ?_⟩
      rw [step, slots_set_of_ne (apart (.inl rfl)),
        slots_set_of_ne (apart (.inr rfl)), set_comm (elsewhere rfl)]
  | cmp kind lhs rhs =>
      refine .inl ⟨_, rfl, ?_⟩
      rw [step, slots_set_of_ne (apart (.inl rfl)),
        slots_set_of_ne (apart (.inr rfl))]
      rfl
  | cmpImm | pushVar | copyVarToGlobal4 =>
      refine .inl ⟨_, rfl, ?_⟩
      rw [step, slots_set_of_ne (apart (.inl rfl))]
      rfl
  | pop count | call _ _ count =>
      by_cases enough : count.toNat ≤ state.stack.length
      · exact .inl ⟨_, if_pos enough, if_pos enough⟩
      · exact .inr ⟨_, if_neg enough, if_neg enough⟩
  | swap4 =>
      rcases shape : state.stack with _ | ⟨first, _ | ⟨second, more⟩⟩
      · exact .inr ⟨.broken .shortSwap, by simp [step, shape],
          by simp [step, RunState.set, State.ends, shape]⟩
      · exact .inr ⟨.broken .shortSwap, by simp [step, shape],
          by simp [step, RunState.set, State.ends, shape]⟩
      · exact .inl ⟨{ state with stack := second :: first :: more },
          by simp [step, shape], by simp [step, RunState.set, shape]⟩
  | _ => exact .inr ⟨_, rfl, rfl⟩

/-- A constant may be written later, if nothing up to there looks at it. -/
theorem run_postpone {slot : Slot} {value : UInt32}
    {skipped rest : List Instr}
    (passed : ∀ instr ∈ skipped, Crossable slot instr) (passes : Nat)
    (state : State) :
    run machine temporaries code passes (skipped ++ rest)
        (state.set slot value) =
      run machine temporaries code passes
        (skipped ++ .setVar4 slot value :: rest) state := by
  induction skipped generalizing state with
  | nil => exact (run_of_next rfl).symm
  | cons instr skipped ih =>
      rcases step_set (passed instr List.mem_cons_self) passes state value with
        ⟨after, stepped, shifted⟩ | ⟨ending, stepped, shifted⟩
      · rw [List.cons_append, List.cons_append, run_of_next stepped,
          run_of_next shifted]
        exact ih (fun other member =>
          passed other (List.mem_cons_of_mem _ member)) after
      · rw [List.cons_append, List.cons_append, run, run, stepped, shifted]

variable (machine temporaries) in
/-- What a plain push pushes depends on the slots only. -/
theorem step_plainPush {instr : Instr} (pushes : isPlainPush instr = true)
    (passes : Nat) :
    (∃ value : (Slot → UInt32) → UInt32, ∀ state : State,
      step machine temporaries passes state instr =
        .next (state.push (value state.slots))) ∨
    ∀ state : State, step machine temporaries passes state instr =
      .done (state.ends (.broken .noMeaning)) := by
  cases instr with
  | pushConst value => exact .inl ⟨fun _ => value, fun _ => rfl⟩
  | pushVar slot => exact .inl ⟨fun slots => slots slot, fun _ => rfl⟩
  | pushFrameAddr slot => exact .inr fun _ => rfl
  | _ => simp [isPlainPush] at pushes

theorem refinedBy_exchange {first second : Instr} {rest : List Instr}
    (firstPush : isPlainPush first = true)
    (secondPush : isPlainPush second = true) (passes : Nat) (state : State) :
    (run machine temporaries code passes (first :: second :: .swap4 :: rest)
        state).RefinedBy
      (run machine temporaries code passes (second :: first :: rest)
        state) := by
  rcases step_plainPush machine temporaries firstPush passes with
    ⟨value, pushed⟩ | broken
  · rcases step_plainPush machine temporaries secondPush passes with
      ⟨other, otherPushed⟩ | broken
    · left
      rw [run_of_next (pushed state), run_of_next (otherPushed _),
        run_of_next rfl, run_of_next (otherPushed state),
        run_of_next (pushed _)]
      rfl
    · exact .inr (.inr (by simp [run, pushed, broken, State.ends]))
  · exact .inr (.inr (by simp [run, broken, State.ends]))

theorem refinedBy_of_revision {old new : List Instr}
    (revision : Revision temporaries keepJitEntries code old new)
    (split : code = front ++ old) (distinct : (labels code).Nodup)
    (passes : Nat) (state : State) :
    (run machine temporaries code passes old state).RefinedBy
      (run machine temporaries code passes new state) := by
  cases revision with
  | patch rule => exact refinedBy_of_rule rule split distinct passes state
  | postpone passed =>
      exact .inl ((run_of_next rfl).trans (run_postpone passed passes state))
  | exchange firstPush secondPush =>
      exact refinedBy_exchange firstPush secondPush passes state

end Rules

end Evaluation

end StackAssembler
