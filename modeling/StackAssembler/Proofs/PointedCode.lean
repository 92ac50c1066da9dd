import StackAssembler.Proofs.AcceptedRuns
import StackAssembler.Proofs.ForgottenValues

/-!
# Tightening and pointers to slots

Code that writes slots by name and works on slots through the register, which
holds the address of a slot at all times.  Whether a temporary is dead, or a
constant for it may be written later, is decided from the names in the code
alone.  So a constant can get lost that is only read through the register.

This does not happen to guarded code: while the register leads to a temporary
and is used before the next address is loaded, no constant is written to the
temporary by name.  Rewrites keep code guarded, and for guarded code they keep
what is seen of its runs.
-/

namespace StackAssembler

/-- Instructions that write or push slots by name, or work on a slot through
the register, and those that the rules make of them. -/
def Instr.isPointing : Instr → Bool
  | setVar4 .. | pushVar _ | loadVar _ | incI | decI | readReg4 _ | writeVar4 _
  | pushConst _ | incVi _ | decVi _ => true
  | _ => false

theorem Instr.hasStraightMeaning_of_isPointing {instr : Instr}
    (pointing : instr.isPointing = true) : instr.hasStraightMeaning = true := by
  cases instr <;> first | rfl | cases pointing

namespace Straight

open Evaluation (Machine Breakdown Dead dead_of_scopeOf)
open Liveness RunState Window

/-! ## Guarded code -/

/-- The slot that the register leads to behind an instruction. -/
def pointeeAfter (pointee : Slot) : Instr → Slot
  | .loadVar slot => slot
  | _ => pointee

/-- Whether the instruction leaves the temporary that the register leads to
alone, or the register is not used on the code behind it. -/
def spares (temporaries : SlotSet) (pointee : Slot) (rest : List Instr) :
    Instr → Bool
  | .setVar4 dst _ =>
      dst ≠ pointee || !temporaries.contains dst || !registerUsed rest
  | _ => true

/-- Whether no constant is written to a temporary by name while the register
leads to it and is still used. -/
def guarded (temporaries : SlotSet) : Slot → List Instr → Bool
  | _, [] => true
  | pointee, instr :: rest =>
      spares temporaries pointee rest instr &&
        guarded temporaries (pointeeAfter pointee instr) rest

section Guards

variable {space : Space} {temporaries : SlotSet} {pointee : Slot}
  {instr : Instr} {rest : List Instr}

theorem tame_of_isPointing (addressed : space.Addressed)
    (pointing : instr.isPointing = true) : Tame space instr := by
  cases instr with
  | loadVar slot => exact addressed slot
  | _ => trivial

theorem spares_iff :
    spares temporaries pointee rest instr = true ↔
      ∀ value, instr = .setVar4 pointee value →
        temporaries.contains pointee = true → registerUsed rest = false := by
  cases instr with
  | setVar4 dst value =>
      by_cases same : dst = pointee
      · subst same
        cases temporary : temporaries.contains dst <;>
          cases used : registerUsed rest <;> simp [spares, temporary, used]
      · simp [spares, same]
  | _ => simp [spares]

theorem guarded_cons_iff :
    guarded temporaries pointee (instr :: rest) = true ↔
      spares temporaries pointee rest instr = true ∧
        guarded temporaries (pointeeAfter pointee instr) rest = true :=
  Bool.and_eq_true_iff

/-- Of these instructions only one that loads an address replaces what is in the
register. -/
theorem loadVar_or_scanned (pointing : instr.isPointing = true) :
    (∃ slot, instr = .loadVar slot) ∨
      instr.endsRegisterScan = false ∧
        ∀ pointee, pointeeAfter pointee instr = pointee := by
  cases instr with
  | loadVar slot => exact .inl ⟨slot, rfl⟩
  | setVar4 | pushVar | incI | decI | readReg4 | writeVar4 | pushConst | incVi
  | decVi => exact .inr ⟨rfl, fun _ => rfl⟩
  | _ => cases pointing

/-- Where the register is not used, code is guarded whatever it leads to. -/
theorem guarded_of_unused (pointing : ∀ instr ∈ rest, instr.isPointing = true)
    (unused : registerUsed rest = false)
    (held : guarded temporaries pointee rest = true) (other : Slot) :
    guarded temporaries other rest = true := by
  induction rest with
  | nil => rfl
  | cons instr rest ih =>
      obtain ⟨-, later⟩ := guarded_cons_iff.mp held
      rcases loadVar_or_scanned (pointing instr List.mem_cons_self) with
        ⟨slot, rfl⟩ | ⟨scanned, keeps⟩
      · exact guarded_cons_iff.mpr ⟨rfl, later⟩
      · have behind := registerUsed_next unused scanned
        rw [keeps] at later
        refine guarded_cons_iff.mpr ⟨spares_iff.mpr fun _ _ _ => behind, ?_⟩
        rw [keeps]
        exact ih (List.forall_mem_cons.mp pointing).2 behind later

theorem registerUsed_postpone {skipped : List Instr} (slot : Slot)
    (value : UInt32) :
    registerUsed (skipped ++ .setVar4 slot value :: rest) =
      registerUsed (skipped ++ rest) := by
  induction skipped with
  | nil => rfl
  | cons instr skipped ih => simp only [List.cons_append, registerUsed, ih]

/-- Code stays guarded when the write of a constant is moved across
instructions that do not name its slot. -/
theorem guarded_postpone {skipped : List Instr} {slot : Slot} {value : UInt32}
    (passed : ∀ instr ∈ skipped, Crossable slot instr)
    (pointing : ∀ instr ∈ skipped, instr.isPointing = true)
    (hidden : pointee = slot → registerUsed (skipped ++ rest) = false)
    (held : guarded temporaries pointee (skipped ++ rest) = true) :
    guarded temporaries pointee (skipped ++ .setVar4 slot value :: rest) =
      true := by
  induction skipped generalizing pointee with
  | nil =>
      refine guarded_cons_iff.mpr ⟨spares_iff.mpr ?_, held⟩
      intro other same _
      exact hidden (Instr.setVar4.inj same).1.symm
  | cons instr skipped ih =>
      rw [List.cons_append, guarded_cons_iff, spares_iff] at held ⊢
      obtain ⟨spared, later⟩ := held
      constructor
      · rw [registerUsed_postpone]
        exact spared
      · apply ih (List.forall_mem_cons.mp passed).2
          (List.forall_mem_cons.mp pointing).2 _ later
        intro same
        rcases loadVar_or_scanned (pointing instr List.mem_cons_self) with
          ⟨named, rfl⟩ | ⟨scanned, keeps⟩
        -- An instruction that points to the slot names it.
        · obtain rfl : named = slot := same
          have unread := (passed _ List.mem_cons_self).unread
          simp [Instr.access, Access.read, Access.reads] at unread
        · rw [keeps] at same
          exact registerUsed_next (hidden same) scanned

end Guards

/-! ## Rewrites of guarded code -/

/-- What a change of code from some place on keeps: it does not bring the
register into use, leaves guarded code guarded, and is not seen in guarded
code. -/
structure Preserves (machine : Machine) (space : Space)
    (temporaries : SlotSet) (old new : List Instr) : Prop where
  unused : registerUsed old = false → registerUsed new = false
  guarded : ∀ {pointee : Slot}, guarded temporaries pointee old = true →
    guarded temporaries pointee new = true
  seen : ∀ {pointee : Slot} {state : State},
    space.slotAt? state.register = some pointee →
      Straight.guarded temporaries pointee old = true →
        seen machine space temporaries old state =
          seen machine space temporaries new state

section Changes

variable {machine : Machine} {space : Space} {temporaries : SlotSet}
  {keepJitEntries : Bool} {code rest : List Instr}
  (addressed : space.Addressed)

include addressed

theorem slotAt?_of_step {instr : Instr} {state after : State} {pointee : Slot}
    (pointing : instr.isPointing = true)
    (stepped : step machine space state instr = .ok after)
    (leads : space.slotAt? state.register = some pointee) :
    space.slotAt? after.register = some (pointeeAfter pointee instr) := by
  have tame := tame_of_isPointing addressed pointing
  rcases register_of_step tame stepped with
    ⟨scanned, same⟩ | ⟨slot, rfl, same⟩ | separate
  · rcases loadVar_or_scanned pointing with ⟨slot, rfl⟩ | ⟨-, keeps⟩
    · cases scanned
    · rw [same, keeps, leads]
  · rw [same, addressed]
    rfl
  · cases (separate _).symm.trans leads

theorem Preserves.cons {old new : List Instr} {instr : Instr}
    (preserves : Preserves machine space temporaries old new)
    (pointing : instr.isPointing = true) :
    Preserves machine space temporaries (instr :: old) (instr :: new) where
  unused := by
    intro unused
    have unread := not_readsRegister unused
    cases ends : instr.endsRegisterScan with
    | true => simp [registerUsed, unread, ends]
    | false =>
        have behind := preserves.unused (registerUsed_next unused ends)
        simp [registerUsed, unread, ends, behind]
  guarded := by
    intro pointee held
    obtain ⟨spared, later⟩ := guarded_cons_iff.mp held
    refine guarded_cons_iff.mpr ⟨spares_iff.mpr ?_, preserves.guarded later⟩
    intro value writes temporary
    exact preserves.unused (spares_iff.mp spared value writes temporary)
  seen := by
    intro pointee state leads held
    obtain ⟨-, later⟩ := guarded_cons_iff.mp held
    cases stepped : step machine space state instr with
    | error cause => rw [seen_of_error stepped, seen_of_error stepped]
    | ok after =>
        rw [seen_of_ok stepped, seen_of_ok stepped]
        exact preserves.seen
          (slotAt?_of_step addressed pointing stepped leads) later

theorem Preserves.append {old new front : List Instr}
    (preserves : Preserves machine space temporaries old new)
    (pointing : ∀ instr ∈ front, instr.isPointing = true) :
    Preserves machine space temporaries (front ++ old) (front ++ new) := by
  induction front with
  | nil => exact preserves
  | cons instr front ih =>
      obtain ⟨here, later⟩ := List.forall_mem_cons.mp pointing
      exact (ih later).cons addressed here

end Changes

section Windows

variable {machine : Machine} {space : Space} {temporaries : SlotSet}
  {keepJitEntries : Bool} {code rest : List Instr} {slot : Slot}
  {value : UInt32}

/-- A dead temporary is forgotten behind the write of a constant, if the code is
guarded. -/
theorem forgotten_of_guarded {pointee : Slot} {between : List Instr}
    {state : State} (dead : Dead temporaries code rest slot)
    (leads : space.slotAt? state.register = some pointee)
    (held : guarded temporaries pointee
      (.setVar4 slot value :: between) = true)
    (onward : registerUsed between = false → registerUsed rest = false) :
    Forgotten space temporaries code rest state.register slot := by
  refine ⟨dead, fun there => ?_⟩
  obtain rfl := Option.some.inj (leads.symm.trans there)
  exact onward (spares_iff.mp (guarded_cons_iff.mp held).1 value rfl dead.1)

/-- A constant for a dead temporary may be left out. -/
theorem preserves_constWrite
    (tame : ∀ instr ∈ .setVar4 slot value :: rest, Tame space instr)
    (dead : Dead temporaries code rest slot) :
    Preserves machine space temporaries (.setVar4 slot value :: rest)
      rest where
  unused unused := registerUsed_next unused rfl
  guarded held := (guarded_cons_iff.mp held).2
  seen := by
    intro pointee state leads held
    have forgotten := forgotten_of_guarded dead leads held id
    rw [seen_of_ok rfl]
    exact seen_alike (List.forall_mem_cons.mp tame).2
      (agree_set forgotten value)

/-- So may a read through the register into a dead temporary.  If the register
leads to that temporary, the read changes nothing. -/
theorem preserves_registerRead
    (tame : ∀ instr ∈ .readReg4 slot :: rest, Tame space instr)
    (dead : Dead temporaries code rest slot) :
    Preserves machine space temporaries (.readReg4 slot :: rest) rest where
  unused unused := by cases not_readsRegister unused
  guarded held := (guarded_cons_iff.mp held).2
  seen := by
    intro pointee state leads _
    rw [seen_of_ok rfl]
    by_cases same : pointee = slot
    · subst same
      rw [State.load, leads, set_self]
    · have forgotten : Forgotten space temporaries code rest state.register
          slot := by
        refine ⟨dead, fun there => ?_⟩
        exact absurd (Option.some.inj (leads.symm.trans there)) same
      exact seen_alike (List.forall_mem_cons.mp tame).2
        (agree_set forgotten _)

theorem preserves_constPush
    (tame : ∀ instr ∈ .setVar4 slot value :: .pushVar slot :: rest,
      Tame space instr)
    (dead : Dead temporaries code rest slot) :
    Preserves machine space temporaries
      (.setVar4 slot value :: .pushVar slot :: rest)
      (.pushConst value :: rest) where
  unused unused := unused
  guarded held := by
    have behind := (guarded_cons_iff.mp (guarded_cons_iff.mp held).2).2
    exact guarded_cons_iff.mpr ⟨rfl, behind⟩
  seen := by
    intro pointee state leads held
    have forgotten := forgotten_of_guarded dead leads held id
    refine seen_fuse code tame rfl rfl rfl ?_
    rw [slots_set_self]
    exact (agree_set forgotten value).push value

/-- An address that is loaded for one change only need not be loaded, if the
change can be made by name. -/
theorem preserves_count {through byName : Instr} (change : UInt32 → UInt32)
    (addressed : space.Addressed)
    (pointing : ∀ instr ∈ .loadVar slot :: through :: rest,
      instr.isPointing = true)
    (unused : registerUsed rest = false)
    (throughStep : ∀ state, step machine space state through =
      .ok (state.save space state.register
        (change (state.load space state.register))))
    (byNameStep : ∀ state, step machine space state byName =
      .ok (state.set slot (change (state.slots slot))))
    (idle : registerUsed (byName :: rest) = registerUsed rest)
    (spared : ∀ pointee, spares temporaries pointee rest byName = true)
    (keeps : ∀ pointee, pointeeAfter pointee byName = pointee) :
    Preserves machine space temporaries (.loadVar slot :: through :: rest)
      (byName :: rest) where
  unused _ := idle.trans unused
  guarded := by
    intro pointee held
    have behind := (guarded_cons_iff.mp (guarded_cons_iff.mp held).2).2
    refine guarded_cons_iff.mpr ⟨spared pointee, ?_⟩
    rw [keeps]
    exact guarded_of_unused
      (List.forall_mem_cons.mp (List.forall_mem_cons.mp pointing).2).2 unused
      behind pointee
  seen := by
    intro pointee state leads held
    refine seen_fuse [] (fun instr member => tame_of_isPointing addressed
      (pointing instr member)) rfl (throughStep _) (byNameStep state) ?_
    rw [load_slot addressed, save_slot addressed]
    exact alike_register unused _ _

/-- The rules for windows of these instructions. -/
inductive PointedRule (temporaries : SlotSet) (code : List Instr) :
    List Instr → Patch → Prop
  | constWrite {slot : Slot} {value : UInt32} {rest : List Instr}
      (dead : Dead temporaries code rest slot) :
      PointedRule temporaries code (.setVar4 slot value :: rest) [none]
  | registerRead {slot : Slot} {rest : List Instr}
      (dead : Dead temporaries code rest slot) :
      PointedRule temporaries code (.readReg4 slot :: rest) [none]
  | constPush {slot : Slot} {value : UInt32} {rest : List Instr}
      (dead : Dead temporaries code rest slot) :
      PointedRule temporaries code
        (.setVar4 slot value :: .pushVar slot :: rest)
        [none, some (.pushConst value)]
  | increment {slot : Slot} {rest : List Instr}
      (unused : registerUsed rest = false) :
      PointedRule temporaries code (.loadVar slot :: .incI :: rest)
        [some (.incVi slot), none]
  | decrement {slot : Slot} {rest : List Instr}
      (unused : registerUsed rest = false) :
      PointedRule temporaries code (.loadVar slot :: .decI :: rest)
        [some (.decVi slot), none]

theorem pointedRule_of_rule {window : List Instr} {patch : Patch}
    (rule : Rule (scopeOf temporaries keepJitEntries code) window patch)
    (pointing : ∀ instr ∈ window, instr.isPointing = true) :
    PointedRule temporaries code window patch := by
  cases rule with
  | @unusedWrite instr slot rest writes dead =>
      have first := pointing instr List.mem_cons_self
      cases instr with
      | setVar4 =>
          obtain rfl := Option.some.inj writes
          exact .constWrite (dead_of_scopeOf dead)
      | readReg4 =>
          obtain rfl := Option.some.inj writes
          exact .registerRead (dead_of_scopeOf dead)
      | copyVar4 | binOp | binOpImm | copyRegToVar4 | copyGlobalToVar4
      | loadGlobalReadReg4 | setVar8 => cases first
      | _ => cases writes
  | constPush dead => exact .constPush (dead_of_scopeOf dead)
  | increment unused => exact .increment unused
  | decrement unused => exact .decrement unused
  | unusedGlobalRead | arithCopy | arithImmCopy | registerBack | globalPush
  | suspendBefore | lineBefore | checkRead | checkFrame | jitEntry | popNone
  | pushNone | discardConst8 | discardRead | discardRead8 | globalWrite
  | globalReadUsed | globalRead | branchUnless | branchIf | frameRead
  | pushTwice | popReturn | suspendTwice | lineTwice | jumpNext =>
      cases pointing _ List.mem_cons_self
  | compareConst | arithConst | arithConstLeft | constCopy | constStore
  | checkVar | discardUnit | constRef =>
      cases pointing _ (List.mem_cons_of_mem _ List.mem_cons_self)

theorem preserves_of_rule {window : List Instr} {patch : Patch}
    (addressed : space.Addressed)
    (rule : PointedRule temporaries code window patch)
    (pointing : ∀ instr ∈ window, instr.isPointing = true) :
    Preserves machine space temporaries window (patch.fillInstrs window) := by
  have tame (instr : Instr) (member : instr ∈ window) : Tame space instr :=
    tame_of_isPointing addressed (pointing instr member)
  cases rule with
  | constWrite dead => exact preserves_constWrite tame dead
  | registerRead dead => exact preserves_registerRead tame dead
  | constPush dead => exact preserves_constPush tame dead
  | increment unused =>
      exact preserves_count (· + 1) addressed pointing unused (fun _ => rfl)
        (fun _ => rfl) rfl (fun _ => rfl) fun _ => rfl
  | decrement unused =>
      exact preserves_count (· - 1) addressed pointing unused (fun _ => rfl)
        (fun _ => rfl) rfl (fun _ => rfl) fun _ => rfl

/-- The write of a constant for a temporary may be moved across instructions
that do not name it. -/
theorem preserves_postpone {skipped : List Instr}
    (addressed : space.Addressed)
    (temporary : temporaries.contains slot = true)
    (passed : ∀ instr ∈ skipped, Crossable slot instr)
    (pointing : ∀ instr ∈ skipped, instr.isPointing = true) :
    Preserves machine space temporaries
      (.setVar4 slot value :: (skipped ++ rest))
      (skipped ++ .setVar4 slot value :: rest) where
  unused unused := by
    rw [registerUsed_postpone]
    exact registerUsed_next unused rfl
  guarded := by
    intro pointee held
    have spared := spares_iff.mp (guarded_cons_iff.mp held).1
    have later : guarded temporaries pointee (skipped ++ rest) = true :=
      (guarded_cons_iff.mp held).2
    apply guarded_postpone passed pointing _ later
    rintro rfl
    exact spared value rfl temporary
  seen := by
    intro pointee state leads held
    have spared := spares_iff.mp (guarded_cons_iff.mp held).1
    rw [seen_of_ok rfl]
    apply seen_postpone passed
    · intro instr member
      exact tame_of_isPointing addressed (pointing instr member)
    · intro there
      obtain rfl := Option.some.inj (leads.symm.trans there)
      exact spared value rfl temporary

end Windows

section Programs

variable {machine : Machine} {space : Space} {temporaries : SlotSet}
  {keepJitEntries : Bool} {before after : List Entry}

/-- What the rules put in the place of these instructions is one of them. -/
theorem isPointing_of_rule {code window : List Instr} {patch : Patch}
    (rule : Rule (scopeOf temporaries keepJitEntries code) window patch)
    (pointing : ∀ instr ∈ window, instr.isPointing = true) :
    ∀ instr, some instr ∈ patch → instr.isPointing = true := by
  cases pointedRule_of_rule rule pointing with
  | constWrite | registerRead => simp
  | constPush | increment | decrement => simp [Instr.isPointing]

theorem preserves_of_rewrite (addressed : space.Addressed)
    (rewrite : Rewrite temporaries keepJitEntries before after)
    (pointing : ∀ instr ∈ before.map (·.instr), instr.isPointing = true) :
    Preserves machine space temporaries (before.map (·.instr))
      (after.map (·.instr)) := by
  cases rewrite with
  | patch rule =>
      rw [List.map_append, List.forall_mem_append] at pointing
      rw [List.map_append, List.map_append, Patch.map_instr_fill]
      have pointed := pointedRule_of_rule rule pointing.2
      exact (preserves_of_rule addressed pointed pointing.2).append addressed
        pointing.1
  | postpone constant temporary passed =>
      simp only [List.map_append, List.map_cons, constant,
        List.forall_mem_append, List.forall_mem_cons] at pointing ⊢
      obtain ⟨frontPointing, -, skippedPointing, -⟩ := pointing
      refine (preserves_postpone addressed temporary ?_
        skippedPointing).append addressed frontPointing
      intro instr member
      obtain ⟨other, inside, rfl⟩ := List.mem_map.mp member
      exact passed other inside
  | exchange firstPush secondPush swaps =>
      have exchanged : Instr.swap4.isPointing = true :=
        pointing _ (by simp [swaps])
      cases exchanged

theorem seen_of_guarded
    (rewrites : Relation.ReflTransGen (Rewrite temporaries keepJitEntries)
      before after)
    (pointing : ∀ instr ∈ before.map (·.instr), instr.isPointing = true)
    (machine : Machine) (addressed : space.Addressed) {state : State}
    {pointee : Slot} (leads : space.slotAt? state.register = some pointee)
    (held : guarded temporaries pointee (before.map (·.instr)) = true) :
    seen machine space temporaries (after.map (·.instr)) state =
      seen machine space temporaries (before.map (·.instr)) state := by
  -- Every rewrite leaves guarded code for the ones behind it.
  suffices kept : seen machine space temporaries (after.map (·.instr)) state =
      seen machine space temporaries (before.map (·.instr)) state ∧
        guarded temporaries pointee (after.map (·.instr)) = true ∧
          ∀ instr ∈ after.map (·.instr), instr.isPointing = true from kept.1
  induction rewrites with
  | refl => exact ⟨rfl, held, pointing⟩
  | tail _ rewrite ih =>
      obtain ⟨same, middleHeld, middle⟩ := ih
      have preserves : Preserves machine space temporaries _ _ :=
        preserves_of_rewrite addressed rewrite middle
      exact ⟨(preserves.seen leads middleHeld).symm.trans same,
        preserves.guarded middleHeld,
        forall_mem_of_rewrite isPointing_of_rule rewrite middle⟩

end Programs

/-- Tightening accepted code that works on slots by name and through the
register changes nothing that is seen of its runs, if the code is guarded for
the slot that the register leads to at first: a run ends, and over the tightened
code it ends with the same stack and the same slots, apart from the
temporaries. -/
theorem tighten_preserves_guarded {routine measured : Routine}
    {analysis : StackDepth.Analysis}
    (accepted : routine.measureDepths = (.ok analysis, measured))
    (pointing : ∀ instr ∈ routine.instrs, instr.isPointing = true)
    {pointee : Slot}
    (held : guarded routine.temporaries pointee routine.instrs = true)
    (keepJitEntries : Bool) :
    ∃ count tightened,
      measured.tighten keepJitEntries = .ok (count, tightened) ∧
        ∀ machine space, space.Addressed → ∀ state,
          space.slotAt? state.register = some pointee →
            seen machine space routine.temporaries tightened.instrs state =
                seen machine space routine.temporaries routine.instrs state ∧
              ∃ final, run machine space routine.instrs state =
                .ok final := by
  have meaningful : ∀ instr ∈ routine.instrs,
      instr.hasStraightMeaning = true := fun instr member =>
    Instr.hasStraightMeaning_of_isPointing (pointing instr member)
  have noSwap : .swap4 ∉ routine.instrs := fun member => by
    cases pointing _ member
  obtain ⟨count, tightened, done, same, rewrites⟩ :=
    exists_rewrites accepted meaningful keepJitEntries
  refine ⟨count, tightened, done, fun machine space addressed state leads =>
    ⟨?_, exists_run accepted meaningful machine space fun member =>
      absurd member noSwap⟩⟩
  rw [← same] at pointing held ⊢
  exact seen_of_guarded rewrites pointing machine addressed leads held

/-- Code that counts a temporary through the register, and gives it a constant
once the register is no longer used. -/
def counting : Routine :=
  (Routine.ofList [.loadVar 1, .incI, .pushVar 1, .setVar4 1 5, .pushVar 1,
    .loadVar 0, .decI, .readReg4 2]).markTemporary 1

theorem tighten_preserves_guarded_counting :
    counting.measureDepths.1 = .ok ⟨2, 0, []⟩ ∧
      guarded counting.temporaries 1 counting.instrs = true ∧
        ∃ count tightened,
          counting.measureDepths.2.tighten true = .ok (count, tightened) ∧
            ∀ machine space, space.Addressed → ∀ state,
              space.slotAt? state.register = some 1 →
                seen machine space counting.temporaries tightened.instrs
                    state =
                  seen machine space counting.temporaries counting.instrs
                    state ∧
                ∃ final, run machine space counting.instrs state =
                  .ok final := by
  have accepted : counting.measureDepths.1 = .ok ⟨2, 0, []⟩ := by cbv
  have pointing : ∀ instr ∈ counting.instrs,
      instr.isPointing = true := by decide
  have held : guarded counting.temporaries 1 counting.instrs = true := by
    decide
  exact ⟨accepted, held,
    tighten_preserves_guarded (Prod.ext accepted rfl) pointing held true⟩

/-! ## A constant that gets lost -/

/-- Memory that starts with the slots, and has the globals behind them. -/
def Space.flat : Space where
  global global := 65536 + global.toUInt32
  slot slot := slot.toUInt16.toUInt32
  slotAt? address :=
    if address < 65536 then some address.toUInt16.toInt16 else none

theorem addressed_flat : Space.flat.Addressed := by
  intro slot
  have inside : slot.toUInt16.toUInt32 < 65536 := by
    rw [UInt32.lt_iff_toNat_lt, UInt16.toNat_toUInt32]
    exact slot.toUInt16.toNat_lt
  simp [Space.flat, inside]

/-- A temporary gets a constant while the register leads to it, and is then read
through the register only. -/
def aliased : Routine :=
  (Routine.ofList [.loadVar 1, .setVar4 1 5, .readReg4 2]).markTemporary 1

/-- The scan drops the constant and finds nothing more to do. -/
theorem scan_aliased :
    scan aliased.temporaries false
        { cursor := ⟨[], aliased.measureDepths.2.entries⟩ } =
      ⟨⟨[⟨⟨2, 0⟩, .readReg4 2, some 0⟩, ⟨⟨0, 0⟩, .loadVar 1, some 0⟩], []⟩,
        false, 1, [⟨1, 0⟩]⟩ := by
  have entries_eq : aliased.measureDepths.2.entries =
      [⟨⟨0, 0⟩, .loadVar 1, some 0⟩, ⟨⟨1, 0⟩, .setVar4 1 5, some 0⟩,
        ⟨⟨2, 0⟩, .readReg4 2, some 0⟩] := by cbv
  have dropped : changeAt aliased.temporaries false
      ⟨[⟨⟨0, 0⟩, .loadVar 1, some 0⟩],
        [⟨⟨1, 0⟩, .setVar4 1 5, some 0⟩, ⟨⟨2, 0⟩, .readReg4 2, some 0⟩]⟩ =
      some ⟨⟨[], [⟨⟨0, 0⟩, .loadVar 1, some 0⟩,
        ⟨⟨2, 0⟩, .readReg4 2, some 0⟩]⟩, [⟨1, 0⟩]⟩ := by cbv
  have loadKept : changeAt aliased.temporaries false
      ⟨[], [⟨⟨0, 0⟩, .loadVar 1, some 0⟩,
        ⟨⟨2, 0⟩, .readReg4 2, some 0⟩]⟩ = none := by cbv
  have readKept : changeAt aliased.temporaries false
      ⟨[⟨⟨0, 0⟩, .loadVar 1, some 0⟩],
        [⟨⟨2, 0⟩, .readReg4 2, some 0⟩]⟩ = none := by cbv
  have loadFirst : changeAt aliased.temporaries false
      ⟨[], [⟨⟨0, 0⟩, .loadVar 1, some 0⟩, ⟨⟨1, 0⟩, .setVar4 1 5, some 0⟩,
        ⟨⟨2, 0⟩, .readReg4 2, some 0⟩]⟩ = none := by cbv
  rw [entries_eq, scan_of_none loadFirst, scan_of_change dropped,
    scan_of_none loadKept, scan_of_none readKept, scan_again]
  exact (scan_of_none loadKept).trans ((scan_of_none readKept).trans scan_done)

/-- Tightening takes the constant for dead.  Slot 2, which is no temporary, then
ends with what was in slot 1 before. -/
theorem tighten_loses_aliased_constant :
    aliased.measureDepths.1 = .ok ⟨0, 0, []⟩ ∧
      (∀ instr ∈ aliased.instrs, instr.isPointing = true) ∧
      aliased.temporaries.contains 2 = false ∧
      ∃ tightened,
        aliased.measureDepths.2.tighten false = .ok (1, tightened) ∧
          ∀ machine state,
            (run machine Space.flat aliased.instrs state).map (·.slots 2) =
                .ok 5 ∧
              (run machine Space.flat tightened.instrs state).map
                  (·.slots 2) = .ok (state.slots 1) := by
  have accepted : aliased.measureDepths.1 = .ok ⟨0, 0, []⟩ := by cbv
  have balanced :=
    StackDepth.balanced_of_measureDepths (Prod.ext accepted rfl)
  have kept := (StackDepth.instrs_of_plain (Prod.ext accepted rfl)
    (by decide : ∀ instr ∈ aliased.instrs, instr.isPlain = true)).2
  obtain ⟨result, scanned, done⟩ := tighten_eq_scan balanced.distinct false
  rw [kept, scan_aliased] at scanned
  subst scanned
  refine ⟨accepted, by decide, by decide, _, done, fun machine state => ?_⟩
  constructor
  · calc
      _ = Except.ok (State.load Space.flat
            (({ state with register := Space.flat.slot 1 } : State).set 1 5)
            (Space.flat.slot 1)) := rfl
      _ = .ok 5 := by rw [load_slot addressed_flat, slots_set_self]
  · calc
      _ = Except.ok (State.load Space.flat
            { state with register := Space.flat.slot 1 }
            (Space.flat.slot 1)) := rfl
      _ = .ok (state.slots 1) := by rw [load_slot addressed_flat]

end Straight

end StackAssembler
