import StackAssembler.Proofs.Evaluation
import StackAssembler.SlotSet

/-!
# Straight runs over memory

An evaluation of code without jumps that knows where values are kept.  Globals
live in memory, slots may have addresses as well, and the register holds a
number that may be the address of either.  Instructions that work through the
register read or change whatever it leads to.

What arithmetic and comparisons compute is left open, and so is where globals
and slots are kept.
-/

namespace StackAssembler

namespace Straight

open Evaluation (Machine Breakdown)
open RunState

/-- Where globals and slots are kept, and the slot at an address, if there is
one. -/
structure Space where
  global : Global → UInt32
  slot : Slot → UInt32
  slotAt? : UInt32 → Option Slot

/-- No address leads to a slot. -/
def Space.Separate (space : Space) : Prop :=
  ∀ address, space.slotAt? address = none

/-- The address of a slot leads to that slot. -/
def Space.Addressed (space : Space) : Prop :=
  ∀ slot, space.slotAt? (space.slot slot) = some slot

/-- The state of a run.  Outside of it is the memory. -/
abbrev State := RunState UInt32 (UInt32 → UInt32)

/-- What is seen of a state: all but the temporaries and the register. -/
structure View where
  slots : Slot → Option UInt32
  memory : UInt32 → UInt32
  stack : List UInt32

namespace State

def load (space : Space) (state : State) (address : UInt32) : UInt32 :=
  match space.slotAt? address with
  | some slot => state.slots slot
  | none => state.outside address

def save (space : Space) (state : State) (address value : UInt32) : State :=
  match space.slotAt? address with
  | some slot => state.set slot value
  | none =>
      { state with
        outside := fun other =>
          if other = address then value else state.outside other }

def view (temporaries : SlotSet) (state : State) : View where
  slots slot :=
    if temporaries.contains slot then none else some (state.slots slot)
  memory := state.outside
  stack := state.stack

end State

section States

variable {space : Space}

@[simp]
theorem register_save (state : State) (address value : UInt32) :
    (state.save space address value).register = state.register := by
  unfold State.save
  split <;> rfl

theorem stack_save (state : State) (address value : UInt32) :
    (state.save space address value).stack = state.stack := by
  unfold State.save
  split <;> rfl

theorem save_register (state : State) (address value register : UInt32) :
    State.save space { state with register } address value =
      { state.save space address value with register } := by
  unfold State.save
  split <;> rfl

theorem load_of_separate (separate : space.Separate) (state : State)
    (address : UInt32) : state.load space address = state.outside address := by
  rw [State.load, separate address]

theorem load_slot (addressed : space.Addressed) (state : State) (slot : Slot) :
    state.load space (space.slot slot) = state.slots slot := by
  rw [State.load, addressed slot]

theorem save_slot (addressed : space.Addressed) (state : State) (slot : Slot)
    (value : UInt32) :
    state.save space (space.slot slot) value = state.set slot value := by
  rw [State.save, addressed slot]

/-- Reading and writing at an address that does not lead to a slot commutes with
a write of the slot. -/
theorem load_set {slot : Slot} {address : UInt32}
    (elsewhere : space.slotAt? address ≠ some slot) (state : State)
    (value : UInt32) :
    State.load space (state.set slot value) address =
      state.load space address := by
  unfold State.load
  split
  · rename_i other there
    have apart : other ≠ slot := by
      rintro rfl
      exact elsewhere there
    exact slots_set_of_ne apart state value
  · rfl

theorem save_set {slot : Slot} {address : UInt32}
    (elsewhere : space.slotAt? address ≠ some slot) (state : State)
    (first second : UInt32) :
    State.save space (state.set slot first) address second =
      (state.save space address second).set slot first := by
  unfold State.save
  split
  · rename_i other there
    have apart : other ≠ slot := by
      rintro rfl
      exact elsewhere there
    exact set_comm apart state first second
  · rfl

end States

def step (machine : Machine) (space : Space) (state : State) :
    Instr → Except Breakdown State
  | .setVar4 dst value => .ok (state.set dst value)
  | .copyVar4 dst src => .ok (state.set dst (state.slots src))
  | .incVi slot => .ok (state.set slot (state.slots slot + 1))
  | .decVi slot => .ok (state.set slot (state.slots slot - 1))
  | .binOp op dst lhs rhs =>
      .ok (state.set dst
        (machine.arith op (state.slots lhs) (state.slots rhs)))
  | .binOpImm op dst lhs imm =>
      .ok (state.set dst (machine.arithImm op (state.slots lhs) imm))
  | .cmp kind lhs rhs =>
      .ok { state with
        register := (machine.compare kind (state.slots lhs)
          (state.slots rhs)).toUInt32 }
  | .cmpImm kind lhs imm =>
      .ok { state with
        register := (machine.compareImm kind (state.slots lhs) imm).toUInt32 }
  | .test cond =>
      .ok { state with
        register := if cond.holds state.register.toInt32 then 1 else 0 }
  | .push count =>
      .ok { state with
        stack := List.replicate count.toNat 0 ++ state.stack }
  | .pop count =>
      if count.toNat ≤ state.stack.length then
        .ok { state with stack := state.stack.drop count.toNat }
      else .error .underflow
  | .pushConst value => .ok (state.push value)
  | .pushVar slot => .ok (state.push (state.slots slot))
  | .pushGlobal global =>
      .ok (state.push (state.load space (space.global global)))
  | .swap4 =>
      match state.stack with
      | first :: second :: rest =>
          .ok { state with stack := second :: first :: rest }
      | _ => .error .shortSwap
  | .copyVarToReg4 src => .ok { state with register := state.slots src }
  | .copyRegToVar4 dst => .ok (state.set dst state.register)
  | .loadVar slot => .ok { state with register := space.slot slot }
  | .loadGlobal global => .ok { state with register := space.global global }
  | .loadGlobalReadReg4 dst global =>
      .ok { state.set dst (state.load space (space.global global)) with
        register := space.global global }
  | .readReg4 dst => .ok (state.set dst (state.load space state.register))
  | .writeVar4 src =>
      .ok (state.save space state.register (state.slots src))
  | .incI =>
      .ok (state.save space state.register
        (state.load space state.register + 1))
  | .decI =>
      .ok (state.save space state.register
        (state.load space state.register - 1))
  | .copyVarToGlobal4 global src =>
      .ok (state.save space (space.global global) (state.slots src))
  | .copyGlobalToVar4 dst global =>
      .ok (state.set dst (state.load space (space.global global)))
  | .setGlobal4 global value =>
      .ok (state.save space (space.global global) value)
  | _ => .error .noMeaning

def run (machine : Machine) (space : Space) :
    List Instr → State → Except Breakdown State
  | [], state => .ok state
  | instr :: rest, state =>
      match step machine space state instr with
      | .ok after => run machine space rest after
      | .error cause => .error cause

def seen (machine : Machine) (space : Space) (temporaries : SlotSet)
    (code : List Instr) (state : State) : Except Breakdown View :=
  (run machine space code state).map (·.view temporaries)

section Runs

variable {machine : Machine} {space : Space} {temporaries : SlotSet}
  {instr : Instr} {rest : List Instr} {state after : State}
  {cause : Breakdown}

theorem seen_of_ok (stepped : step machine space state instr = .ok after) :
    seen machine space temporaries (instr :: rest) state =
      seen machine space temporaries rest after := by
  rw [seen, run, stepped, seen]

theorem seen_of_error
    (stepped : step machine space state instr = .error cause) :
    seen machine space temporaries (instr :: rest) state = .error cause := by
  rw [seen, run, stepped]
  rfl

/-- Where what is seen from a place on is the same, it is the same from any
place before. -/
theorem seen_append {old new : List Instr}
    (same : ∀ state, seen machine space temporaries old state =
      seen machine space temporaries new state)
    (front : List Instr) (state : State) :
    seen machine space temporaries (front ++ old) state =
      seen machine space temporaries (front ++ new) state := by
  induction front generalizing state with
  | nil => exact same state
  | cons instr front ih =>
      cases stepped : step machine space state instr with
      | ok after =>
          rw [List.cons_append, List.cons_append, seen_of_ok stepped,
            seen_of_ok stepped]
          exact ih after
      | error cause =>
          rw [List.cons_append, List.cons_append, seen_of_error stepped,
            seen_of_error stepped]

end Runs

end Straight

end StackAssembler
