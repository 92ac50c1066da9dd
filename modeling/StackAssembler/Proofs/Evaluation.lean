import StackAssembler.Proofs.RunStates

/-!
# Evaluation

A reference evaluator for code whose jumps still name labels.  It gives the
trace of a run: the calls with their arguments, the stores to globals, and the
values of the slots at the end.

What arithmetic and comparisons compute is left open, and so is what other code
leaves behind.  A call and a suspend point hand control to other code, which
may change the register.  A label is a place that other code may jump to, so
the register is not kept across it either.  A suspend point also gives up the
temporaries.  What is found afterwards may depend on all events up to then and
on the labels passed, but not on what was there before.

A run is followed up to a number of label passes.  Every loop goes through a
label, so this bounds the run.
-/

namespace StackAssembler

/-- The instructions that the evaluation gives a meaning to.  A jump or branch
has to name a label. -/
def Instr.hasMeaning : Instr → Bool
  | label _ | line .. | jitEntry _ | suspend | setVar4 .. | copyVar4 ..
  | incVi _ | decVi _ | binOp .. | binOpImm .. | cmp .. | cmpImm .. | test _
  | jump (.label _) | branch _ (.label _) | push _ | pop _ | pushConst _
  | pushVar _ | swap4 | call .. | copyVarToGlobal4 .. | setGlobal4 ..
  | ret _ => true
  | _ => false

namespace Evaluation

/-- Something that a run lets its caller see. -/
inductive Event where
  | call (func : UInt32) (args : List UInt32)
  | store (global : Global) (value : UInt32)

/-- Why a run cannot go on. -/
inductive Breakdown where
  /-- More units are taken from the stack than it has. -/
  | underflow
  /-- The stack has no two units to exchange. -/
  | shortSwap
  /-- The label of a jump marks no place. -/
  | lostLabel
  /-- The instruction has no meaning here. -/
  | noMeaning

/-- How a run ends. -/
inductive Ending where
  /-- With the values of the slots that are no temporaries. -/
  | returned (slots : Slot → Option UInt32)
  /-- At a label, after the given number of label passes. -/
  | cutOff
  | broken (cause : Breakdown)

/-- What is seen of a run. -/
structure Trace where
  events : List Event
  ending : Ending

/-- The run broke down for want of stack units or of a meaning. -/
def Trace.Fails (trace : Trace) : Prop :=
  trace.ending = .broken .underflow ∨ trace.ending = .broken .noMeaning

/-- What the evaluation depends on.  The form of an operation with a constant
operand computes the same as the operation itself, and operations whose
operands may be exchanged commute. -/
structure Machine where
  arith : ArithOp → UInt32 → UInt32 → UInt32
  arithImm : ImmOp → UInt32 → UInt32 → UInt32
  compare : CmpKind → UInt32 → UInt32 → Int32
  compareImm : ImmCmpKind → UInt32 → UInt32 → Int32
  /-- What other code leaves in the register, by the number of label passes
  left and the events so far. -/
  registerAfter : Nat → List Event → Int32
  /-- What other code leaves in a temporary. -/
  temporaryAfter : Nat → List Event → Slot → UInt32
  arithImm_eq : ∀ {op : ArithOp} {imm : ImmOp},
    op.immediate? = some imm → arithImm imm = arith op
  compareImm_eq : ∀ {kind : CmpKind} {imm : ImmCmpKind},
    kind.immediate? = some imm → compareImm imm = compare kind
  arith_comm : ∀ {op : ArithOp}, op.commutes = true →
    ∀ lhs rhs, arith op lhs rhs = arith op rhs lhs

/-- The state of a run.  Outside of it are the events, the last one first. -/
abbrev State := RunState Int32 (List Event)

namespace State

def emit (state : State) (event : Event) : State :=
  { state with outside := event :: state.outside }

def clobber (machine : Machine) (passes : Nat) (state : State) : State :=
  { state with register := machine.registerAfter passes state.outside }

/-- Give up the register and the temporaries. -/
def handOver (machine : Machine) (temporaries : SlotSet) (passes : Nat)
    (state : State) : State :=
  { state with
    slots := fun slot =>
      if temporaries.contains slot then
        machine.temporaryAfter passes state.outside slot
      else state.slots slot
    register := machine.registerAfter passes state.outside }

def ends (state : State) (ending : Ending) : Trace where
  events := state.outside.reverse
  ending := ending

def returns (temporaries : SlotSet) (state : State) : Trace :=
  state.ends <| .returned fun slot =>
    if temporaries.contains slot then none else some (state.slots slot)

end State

/-- What the evaluation of one instruction leads to. -/
inductive Outcome where
  /-- The next instruction follows. -/
  | next (state : State)
  /-- A marker was passed, and the next instruction follows. -/
  | pass (state : State)
  /-- The marker of a label follows. -/
  | goto (name : Label) (state : State)
  /-- The run is over. -/
  | done (trace : Trace)

/-- Evaluate one instruction, with a number of label passes left. -/
def step (machine : Machine) (temporaries : SlotSet) (passes : Nat)
    (state : State) : Instr → Outcome
  | .label _ => .pass state
  | .line .. | .jitEntry _ => .next state
  | .suspend => .next (state.handOver machine temporaries passes)
  | .setVar4 dst value => .next (state.set dst value)
  | .copyVar4 dst src => .next (state.set dst (state.slots src))
  | .incVi slot => .next (state.set slot (state.slots slot + 1))
  | .decVi slot => .next (state.set slot (state.slots slot - 1))
  | .binOp op dst lhs rhs =>
      .next (state.set dst
        (machine.arith op (state.slots lhs) (state.slots rhs)))
  | .binOpImm op dst lhs imm =>
      .next (state.set dst (machine.arithImm op (state.slots lhs) imm))
  | .cmp kind lhs rhs =>
      .next { state with
        register := machine.compare kind (state.slots lhs) (state.slots rhs) }
  | .cmpImm kind lhs imm =>
      .next { state with
        register := machine.compareImm kind (state.slots lhs) imm }
  | .test cond =>
      .next { state with
        register := if cond.holds state.register then 1 else 0 }
  | .jump (.label name) => .goto name state
  | .branch cond (.label name) =>
      if cond.holds state.register then .goto name state else .next state
  | .push count =>
      .next { state with
        stack := List.replicate count.toNat 0 ++ state.stack }
  | .pop count =>
      if count.toNat ≤ state.stack.length then
        .next { state with stack := state.stack.drop count.toNat }
      else .done (state.ends (.broken .underflow))
  | .pushConst value => .next (state.push value)
  | .pushVar slot => .next (state.push (state.slots slot))
  | .swap4 =>
      match state.stack with
      | first :: second :: rest =>
          .next { state with stack := second :: first :: rest }
      | _ => .done (state.ends (.broken .shortSwap))
  | .call _ func count =>
      if count.toNat ≤ state.stack.length then
        .next <| State.clobber machine passes <| State.emit
          { state with stack := state.stack.drop count.toNat }
          (.call func (state.stack.take count.toNat).reverse)
      else .done (state.ends (.broken .underflow))
  | .copyVarToGlobal4 global src =>
      .next (state.emit (.store global (state.slots src)))
  | .setGlobal4 global value => .next (state.emit (.store global value))
  | .ret _ => .done (state.returns temporaries)
  | _ => .done (state.ends (.broken .noMeaning))

/-- Evaluate code from a place on, where `code` is the whole of it.  A jump
passes the marker of its label; the marker that would be one too many ends the
run. -/
def run (machine : Machine) (temporaries : SlotSet) (code : List Instr) :
    Nat → List Instr → State → Trace
  | _, [], state => state.returns temporaries
  | passes, instr :: rest, state =>
      match step machine temporaries passes state instr with
      | .next state => run machine temporaries code passes rest state
      | .pass state =>
          match passes with
          | 0 => state.ends .cutOff
          | passes + 1 =>
              run machine temporaries code passes rest
                (state.clobber machine passes)
      | .goto name state =>
          match Flow.codeBehind? code name with
          | none => state.ends (.broken .lostLabel)
          | some rest =>
              match passes with
              | 0 => state.ends .cutOff
              | passes + 1 =>
                  run machine temporaries code passes rest
                    (state.clobber machine passes)
      | .done trace => trace
termination_by passes rest => (passes, rest.length)

theorem run_of_next {machine : Machine} {temporaries : SlotSet}
    {code rest : List Instr} {instr : Instr} {passes : Nat}
    {state after : State}
    (stepped : step machine temporaries passes state instr = .next after) :
    run machine temporaries code passes (instr :: rest) state =
      run machine temporaries code passes rest after := by
  rw [run, stepped]

/-- The trace of code from its start on, with an empty stack, up to a number of
label passes. -/
def trace (machine : Machine) (temporaries : SlotSet) (code : List Instr)
    (slots : Slot → UInt32) (register : Int32) (passes : Nat) : Trace :=
  run machine temporaries code passes code ⟨slots, [], register, []⟩

end Evaluation

end StackAssembler
