import StackAssembler.Proofs.SlotLiveness

/-!
# States of a run

What the evaluations of code have in common: slots that are written, a stack and
a register.  They differ in what the register holds, and in what a run changes
outside of them.

Two states agree at a place of the code if they differ only in slots that are
dead there and in a register that is not used.  Which slots are dead depends on
the evaluation; all that matters here is that a dead slot is not read before it
is written.
-/

namespace StackAssembler

/-- The state of a run.  The stack has its top first. -/
structure RunState (Register Outside : Type) where
  slots : Slot → UInt32
  stack : List UInt32
  register : Register
  /-- What the run changes apart from these. -/
  outside : Outside

namespace RunState

open Liveness

variable {Register Outside : Type}

def set (state : RunState Register Outside) (slot : Slot) (value : UInt32) :
    RunState Register Outside :=
  { state with
    slots := fun other => if other = slot then value else state.slots other }

def push (state : RunState Register Outside) (value : UInt32) :
    RunState Register Outside :=
  { state with stack := value :: state.stack }

@[simp]
theorem slots_set_self (state : RunState Register Outside) (slot : Slot)
    (value : UInt32) :
    (state.set slot value).slots slot = value := by
  simp [set]

@[simp]
theorem slots_set_of_ne {slot other : Slot} (apart : other ≠ slot)
    (state : RunState Register Outside) (value : UInt32) :
    (state.set slot value).slots other = state.slots other := by
  simp [set, apart]

theorem register_set (state : RunState Register Outside) (slot : Slot)
    (value : UInt32) : (state.set slot value).register = state.register := rfl

theorem set_set (state : RunState Register Outside) (slot : Slot)
    (first second : UInt32) :
    (state.set slot first).set slot second = state.set slot second := by
  unfold set
  congr 1
  funext other
  by_cases same : other = slot <;> simp [same]

theorem set_comm {slot other : Slot} (apart : other ≠ slot)
    (state : RunState Register Outside) (first second : UInt32) :
    (state.set slot first).set other second =
      (state.set other second).set slot first := by
  unfold set
  congr 1
  funext place
  by_cases same : place = slot
  · simp [same, Ne.symm apart]
  · simp [same]

theorem set_self (state : RunState Register Outside) (slot : Slot) :
    state.set slot (state.slots slot) = state := by
  unfold set
  congr 1
  funext other
  by_cases same : other = slot <;> simp [same]

/-- States that agree on all but some slots and, if it is idle, the
register. -/
structure Agree (dead : Slot → Prop) (idle : Prop)
    (first second : RunState Register Outside) : Prop where
  slots : ∀ slot, first.slots slot = second.slots slot ∨ dead slot
  stack : first.stack = second.stack
  register : first.register = second.register ∨ idle
  outside : first.outside = second.outside

namespace Agree

variable {dead dead' : Slot → Prop} {idle idle' : Prop}
  {first second : RunState Register Outside}

theorem refl (dead : Slot → Prop) (idle : Prop)
    (state : RunState Register Outside) : Agree dead idle state state :=
  ⟨fun _ => .inl rfl, rfl, .inl rfl, rfl⟩

theorem weaken (agree : Agree dead idle first second)
    (slots : ∀ slot, dead slot → dead' slot) (register : idle → idle') :
    Agree dead' idle' first second :=
  { agree with
    slots := fun slot => (agree.slots slot).imp_right (slots slot)
    register := agree.register.imp_right register }

/-- A slot that is written with the same value is dead no longer. -/
theorem set (agree : Agree dead idle first second) (slot : Slot)
    (value : UInt32) :
    Agree (fun other => dead other ∧ other ≠ slot) idle
      (first.set slot value) (second.set slot value) :=
  { agree with
    slots := by
      intro other
      by_cases same : other = slot
      · simp [RunState.set, same]
      · simpa [RunState.set, same] using agree.slots other }

theorem withStack (agree : Agree dead idle first second)
    (stack : List UInt32) :
    Agree dead idle { first with stack } { second with stack } :=
  { agree with stack := rfl }

theorem push (agree : Agree dead idle first second) (value : UInt32) :
    Agree dead idle (first.push value) (second.push value) :=
  { agree with stack := by simp [RunState.push, agree.stack] }

/-- A register that is replaced by the same value need not be idle. -/
theorem withRegister (agree : Agree dead idle first second)
    (register : Register) :
    Agree dead idle' { first with register } { second with register } :=
  { agree with register := .inl rfl }

end Agree

section Places

variable {dead dead' : Slot → Prop} {idle : Prop}
  {first second : RunState Register Outside} {code rest : List Instr}
  {instr : Instr}

/-- A slot that the next instruction reads is not dead. -/
theorem Agree.read (agree : Agree dead idle first second) (slot : Slot)
    (unread : dead slot → Unread code slot (instr :: rest))
    (reads : instr.access.first? = some slot ∨
      instr.access.second? = some slot) :
    first.slots slot = second.slots slot := by
  rcases agree.slots slot with equal | dies
  · exact equal
  · have ignored := (unread dies).not_reads
    rcases reads with reads | reads <;> simp [Access.reads, reads] at ignored

theorem Agree.readRegister
    (agree : Agree dead (registerUsed (instr :: rest) = false) first second)
    (reads : instr.readsRegister = true) :
    first.register = second.register := by
  rcases agree.register with equal | unused
  · exact equal
  · simp [not_readsRegister unused] at reads

/-- Behind an instruction that writes no slot, the same slots are dead. -/
theorem Agree.behind (agree : Agree dead idle first second)
    (writesNone : instr.access.write? = none)
    (keeps : instr.dropsTemporaries = false)
    (onward : ∀ slot, dead slot →
      (instr.access.writes slot || instr.dropsTemporaries) = false →
        dead' slot) : Agree dead' idle first second :=
  agree.weaken (fun slot dies => onward slot dies
    (by simp [Access.writes, writesNone, keeps])) id

/-- The same value is written to the same slot of both states. -/
theorem Agree.write {slot : Slot} {value : UInt32}
    (agree : Agree dead (registerUsed (instr :: rest) = false) first second)
    (writesOne : instr.access.write? = some slot ∨
      instr.access.write? = none)
    (keeps : instr.dropsTemporaries = false)
    (scanned : instr.endsRegisterScan = false)
    (onward : ∀ slot, dead slot →
      (instr.access.writes slot || instr.dropsTemporaries) = false →
        dead' slot) :
    Agree dead' (registerUsed rest = false) (first.set slot value)
      (second.set slot value) := by
  refine (agree.set slot value).weaken (fun other dies => ?_)
    fun unused => registerUsed_next unused scanned
  refine onward other dies.1 ?_
  rcases writesOne with writes | writes <;>
    simp [Access.writes, writes, keeps, Ne.symm dies.2]

end Places

section Vain

variable {dead : Slot → Prop} {idle : Prop}
  {state : RunState Register Outside}

theorem agree_set {slot : Slot} (dies : dead slot) (value : UInt32) :
    Agree dead idle (state.set slot value) state where
  slots other := by
    by_cases same : other = slot
    · exact .inr (same ▸ dies)
    · exact .inl (slots_set_of_ne same state value)
  stack := rfl
  register := .inl rfl
  outside := rfl

theorem agree_register (unused : idle) (register : Register) :
    Agree dead idle { state with register } state where
  slots _ := .inl rfl
  stack := rfl
  register := .inr unused
  outside := rfl

/-- A write that is dead behind another write, or overwritten by it. -/
theorem agree_set_set {slot dst : Slot} (dies : dst = slot ∨ dead slot)
    (first second : UInt32) :
    Agree dead idle ((state.set slot first).set dst second)
      (state.set dst second) := by
  by_cases same : dst = slot
  · subst same
    rw [set_set]
    exact .refl _ _ _
  · rw [set_comm same]
    exact agree_set (dies.resolve_left same) first

end Vain

end RunState

end StackAssembler
