import StackAssembler.Proofs.Evaluation
import StackAssembler.Proofs.SlotLiveness

/-!
# Dead values

Two states are alike at a place of the code if they differ only in values that
the liveness queries call dead there: in temporaries that are not read, and in a
register that is not used.  Evaluation cannot tell them apart: one step takes
them to the same place, where they are alike again, and so their runs have the
same trace.
-/

namespace StackAssembler

namespace RunState.Agree

open Evaluation

variable {dead dead' : Slot → Prop} {idle idle' : Prop} {first second : State}

theorem emit (agree : Agree dead idle first second) (event : Event) :
    Agree dead idle (State.emit first event) (State.emit second event) :=
  { agree with outside := by simp [State.emit, agree.outside] }

theorem clobber (agree : Agree dead idle first second) (machine : Machine)
    (passes : Nat) :
    Agree dead idle' (State.clobber machine passes first)
      (State.clobber machine passes second) :=
  { agree with register := .inl (by simp [State.clobber, agree.outside]) }

/-- Where only temporaries are dead, nothing need be dead after they were given
up. -/
theorem handOver {temporaries : SlotSet} (agree : Agree dead idle first second)
    (temporary : ∀ slot, dead slot → temporaries.contains slot = true)
    (machine : Machine) (passes : Nat) :
    Agree dead' idle' (State.handOver machine temporaries passes first)
      (State.handOver machine temporaries passes second) where
  slots slot := by
    refine .inl ?_
    by_cases given : temporaries.contains slot = true
    · simp [State.handOver, given, agree.outside]
    · rcases agree.slots slot with equal | dies
      · simp [State.handOver, given, equal]
      · exact absurd (temporary slot dies) given
  stack := agree.stack
  register := .inl (by simp [State.handOver, agree.outside])
  outside := agree.outside

end RunState.Agree

namespace Evaluation

open Flow Liveness RunState

/-- A temporary that is not read from a place on. -/
def Dead (temporaries : SlotSet) (code rest : List Instr) (slot : Slot) :
    Prop :=
  temporaries.contains slot = true ∧ Unread code slot rest

/-- States that differ only in what is dead from a place on. -/
def Alike (temporaries : SlotSet) (code rest : List Instr)
    (first second : State) : Prop :=
  Agree (Dead temporaries code rest) (registerUsed rest = false) first second

section Steps

variable {machine : Machine} {temporaries : SlotSet}
  {code rest : List Instr} {instr : Instr} {passes : Nat}
  {first second : State}

theorem Alike.read
    (alike : Alike temporaries code (instr :: rest) first second)
    (slot : Slot)
    (reads : instr.access.first? = some slot ∨
      instr.access.second? = some slot) :
    first.slots slot = second.slots slot :=
  Agree.read alike slot (fun dead => dead.2) reads

theorem Dead.next {slot : Slot}
    (dead : Dead temporaries code (instr :: rest) slot)
    (falls : instr.fallsThrough = true)
    (kept : (instr.access.writes slot || instr.dropsTemporaries) = false) :
    Dead temporaries code rest slot :=
  ⟨dead.1, dead.2.next falls kept⟩

theorem Alike.behind
    (alike : Alike temporaries code (instr :: rest) first second)
    (falls : instr.fallsThrough = true)
    (writesNone : instr.access.write? = none)
    (keeps : instr.dropsTemporaries = false) :
    Agree (Dead temporaries code rest) (registerUsed (instr :: rest) = false)
      first second :=
  Agree.behind alike writesNone keeps fun _ dead => dead.next falls

theorem Alike.next
    (alike : Alike temporaries code (instr :: rest) first second)
    (falls : instr.fallsThrough = true)
    (writesNone : instr.access.write? = none)
    (keeps : instr.dropsTemporaries = false)
    (scanned : instr.readsRegister = true ∨
      instr.endsRegisterScan = false) :
    Alike temporaries code rest first second := by
  refine (alike.behind falls writesNone keeps).weaken (fun _ => id) ?_
  intro unused
  rcases scanned with reads | scanned
  · simp [not_readsRegister unused] at reads
  · exact registerUsed_next unused scanned

theorem Alike.set
    (alike : Alike temporaries code (instr :: rest) first second)
    {slot : Slot} {value : UInt32} (falls : instr.fallsThrough = true)
    (writesOne : instr.access.write? = some slot ∨
      instr.access.write? = none)
    (keeps : instr.dropsTemporaries = false)
    (scanned : instr.endsRegisterScan = false) :
    Alike temporaries code rest (first.set slot value)
      (second.set slot value) :=
  Agree.write alike writesOne keeps scanned fun _ dead => dead.next falls

/-- What one instruction leads to from alike states. -/
inductive Outcome.Alike (machine : Machine) (temporaries : SlotSet)
    (code rest : List Instr) : Outcome → Outcome → Prop
  | next {first second : State}
      (alike : Evaluation.Alike temporaries code rest first second) :
      Outcome.Alike machine temporaries code rest (.next first) (.next second)
  | pass {first second : State} (events : first.outside = second.outside)
      (alike : ∀ passes, Evaluation.Alike temporaries code rest
        (first.clobber machine passes) (second.clobber machine passes)) :
      Outcome.Alike machine temporaries code rest (.pass first) (.pass second)
  | goto {first second : State} {name : Label}
      (events : first.outside = second.outside)
      (alike : ∀ passes behind, codeBehind? code name = some behind →
        Evaluation.Alike temporaries code behind
          (first.clobber machine passes) (second.clobber machine passes)) :
      Outcome.Alike machine temporaries code rest
        (.goto name first) (.goto name second)
  | done (trace : Trace) :
      Outcome.Alike machine temporaries code rest (.done trace) (.done trace)

theorem Alike.ends (alike : Alike temporaries code rest first second)
    (ending : Ending) : first.ends ending = second.ends ending := by
  simp [State.ends, alike.outside]

theorem Alike.returns (alike : Alike temporaries code rest first second) :
    first.returns temporaries = second.returns temporaries := by
  unfold State.returns
  rw [alike.ends]
  congr 2
  funext slot
  rcases alike.slots slot with equal | ⟨temporary, -⟩
  · rw [equal]
  · rw [if_pos temporary, if_pos temporary]

theorem Alike.goto {name : Label} {behind : List Instr}
    (alike : Alike temporaries code (instr :: rest) first second)
    (aimed : instr.target? = some (.label name)) (passes : Nat)
    (located : codeBehind? code name = some behind) :
    Alike temporaries code behind (first.clobber machine passes)
      (second.clobber machine passes) :=
  (Agree.weaken alike (fun _ dead => ⟨dead.1, dead.2.goto aimed located⟩)
    id).clobber machine passes

/-- One step from alike states leads to the same place, where they are alike
again. -/
theorem step_alike
    (alike : Alike temporaries code (instr :: rest) first second) :
    Outcome.Alike machine temporaries code rest
      (step machine temporaries passes first instr)
      (step machine temporaries passes second instr) := by
  have ended (ending : Ending) :
      Outcome.Alike machine temporaries code rest
        (.done (first.ends ending)) (.done (second.ends ending)) := by
    rw [Alike.ends alike]
    exact .done _
  cases instr with
  | label name =>
      exact .pass alike.outside
        ((Alike.behind alike rfl rfl rfl).clobber machine)
  | line | jitEntry =>
      exact .next (Alike.next alike rfl rfl rfl (.inr rfl))
  | suspend =>
      -- Dead slots are temporaries, and the temporaries are all replaced.
      exact .next (Agree.handOver alike (fun _ dead => dead.1) machine _)
  | setVar4 dst value =>
      exact .next (Alike.set alike rfl (.inl rfl) rfl rfl)
  | copyVar4 dst src =>
      rw [step, step, Alike.read alike src (.inl rfl)]
      exact .next (Alike.set alike rfl (.inl rfl) rfl rfl)
  | incVi slot | decVi slot =>
      rw [step, step, Alike.read alike slot (.inl rfl)]
      exact .next (Alike.set alike rfl (.inr rfl) rfl rfl)
  | binOp op dst lhs rhs =>
      rw [step, step, Alike.read alike lhs (.inl rfl),
        Alike.read alike rhs (.inr rfl)]
      exact .next (Alike.set alike rfl (.inl rfl) rfl rfl)
  | binOpImm op dst lhs imm =>
      rw [step, step, Alike.read alike lhs (.inl rfl)]
      exact .next (Alike.set alike rfl (.inl rfl) rfl rfl)
  | cmp kind lhs rhs =>
      rw [step, step, Alike.read alike lhs (.inl rfl),
        Alike.read alike rhs (.inr rfl)]
      exact .next ((Alike.behind alike rfl rfl rfl).withRegister _)
  | cmpImm kind lhs imm =>
      rw [step, step, Alike.read alike lhs (.inl rfl)]
      exact .next ((Alike.behind alike rfl rfl rfl).withRegister _)
  | test cond =>
      rw [step, step, Agree.readRegister alike rfl]
      exact .next ((Alike.behind alike rfl rfl rfl).withRegister _)
  | jump target =>
      cases target with
      | label name =>
          exact .goto alike.outside fun passes behind located =>
            Alike.goto alike rfl passes located
      | offset distance => exact ended _
  | branch cond target =>
      cases target with
      | label name =>
          rw [step, step, Agree.readRegister alike rfl]
          split
          · exact .goto alike.outside fun passes behind located =>
              Alike.goto alike rfl passes located
          · exact .next (Alike.next alike rfl rfl rfl (.inl rfl))
      | offset distance => exact ended _
  | push count =>
      rw [step, step, alike.stack]
      exact .next ((Alike.next alike rfl rfl rfl (.inr rfl)).withStack _)
  | pop count =>
      rw [step, step, alike.stack]
      split
      · exact .next ((Alike.next alike rfl rfl rfl (.inr rfl)).withStack _)
      · exact ended _
  | pushConst value =>
      exact .next ((Alike.next alike rfl rfl rfl (.inr rfl)).push value)
  | pushVar slot =>
      rw [step, step, Alike.read alike slot (.inl rfl)]
      exact .next ((Alike.next alike rfl rfl rfl (.inr rfl)).push _)
  | swap4 =>
      rw [step, step, alike.stack]
      split
      · exact .next ((Alike.next alike rfl rfl rfl (.inr rfl)).withStack _)
      · exact ended _
  | call kind func count =>
      rw [step, step, alike.stack]
      split
      · exact .next ((((Alike.behind alike rfl rfl rfl).withStack _).emit
          _).clobber machine _)
      · exact ended _
  | copyVarToGlobal4 global src =>
      rw [step, step, Alike.read alike src (.inl rfl)]
      exact .next ((Alike.next alike rfl rfl rfl (.inr rfl)).emit _)
  | setGlobal4 global value =>
      exact .next ((Alike.next alike rfl rfl rfl (.inr rfl)).emit _)
  | ret count =>
      rw [step, step, Alike.returns alike]
      exact .done _
  | _ => exact ended _

theorem exists_step_alike {outcome : Outcome}
    (alike : Alike temporaries code (instr :: rest) first second)
    (stepped : step machine temporaries passes first instr = outcome) :
    ∃ other, step machine temporaries passes second instr = other ∧
      Outcome.Alike machine temporaries code rest outcome other :=
  ⟨_, rfl, stepped ▸ step_alike alike⟩

theorem run_alike
    (alike : Alike temporaries code rest first second) :
    run machine temporaries code passes rest first =
      run machine temporaries code passes rest second := by
  fun_induction run machine temporaries code passes rest first
    generalizing second with
  | case1 passes first =>
      rw [run]
      exact alike.returns
  | case2 passes instr rest first after stepped ih =>
      obtain ⟨_, stepped', outcome⟩ := exists_step_alike alike stepped
      cases outcome with
      | next alike =>
          rw [run, stepped']
          exact ih alike
  | case3 instr rest first after stepped =>
      obtain ⟨_, stepped', outcome⟩ := exists_step_alike alike stepped
      cases outcome with
      | pass events => simp [run, stepped', State.ends, events]
  | case4 instr rest first after passes stepped ih =>
      obtain ⟨_, stepped', outcome⟩ := exists_step_alike alike stepped
      cases outcome with
      | pass events alike =>
          rw [run, stepped']
          exact ih (alike passes)
  | case5 passes instr rest first name after stepped lost =>
      obtain ⟨_, stepped', outcome⟩ := exists_step_alike alike stepped
      cases outcome with
      | goto events => simp [run, stepped', lost, State.ends, events]
  | case6 instr rest first name after behind located stepped =>
      obtain ⟨_, stepped', outcome⟩ := exists_step_alike alike stepped
      cases outcome with
      | goto events => simp [run, stepped', located, State.ends, events]
  | case7 instr rest first name after behind located passes stepped ih =>
      obtain ⟨_, stepped', outcome⟩ := exists_step_alike alike stepped
      cases outcome with
      | goto events alike =>
          simpa [run, stepped', located] using ih (alike _ _ located)
  | case8 passes instr rest first trace stepped =>
      obtain ⟨_, stepped', outcome⟩ := exists_step_alike alike stepped
      cases outcome with
      | done => rw [run, stepped']

end Steps

end Evaluation

end StackAssembler
