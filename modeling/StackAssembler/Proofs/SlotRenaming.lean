import StackAssembler.Instr.Opcode
import StackAssembler.Instr.Stack
import StackAssembler.Routine.Edit
import Mathlib.Data.List.Forall2
import Mathlib.Tactic.Set

/-!
# Using one slot instead of another

The slots of an instruction stand in three tables: the slots that it reads and
writes, the slots that a renaming changes, and the slots that its shape has
room for.  The three agree on every instruction, so an exchange of one slot for
another misses none.  The slots in use afterwards are the images of those in
use before, and an exchange for a slot that was not in use can be undone.
-/

namespace StackAssembler

/-! ## Sets of slots -/

namespace SlotSet

/-- The elements stand in increasing order, each of them once. -/
def Increasing (set : SlotSet) : Prop :=
  set.toList.Pairwise (· < ·)

theorem mem_insertSorted {slot added : Slot} {slots : List Slot} :
    slot ∈ insertSorted added slots ↔ slot = added ∨ slot ∈ slots := by
  induction slots with
  | nil => simp [insertSorted]
  | cons other rest ih =>
      unfold insertSorted
      split
      · exact List.mem_cons
      · split
        · rename_i same
          subst same
          simp
        · simp only [List.mem_cons, ih]
          exact or_left_comm

theorem pairwise_insertSorted {slots : List Slot} (added : Slot)
    (increasing : slots.Pairwise (· < ·)) :
    (insertSorted added slots).Pairwise (· < ·) := by
  induction slots with
  | nil => exact List.pairwise_singleton ..
  | cons other rest ih =>
      obtain ⟨below, restIncreasing⟩ := List.pairwise_cons.mp increasing
      unfold insertSorted
      split
      · rename_i less
        apply List.Pairwise.cons _ increasing
        intro later member
        cases member with
        | head => exact less
        | tail _ deeper => exact Int16.lt_trans less (below later deeper)
      · rename_i notLess
        split
        · exact increasing
        · rename_i different
          apply List.Pairwise.cons _ (ih restIncreasing)
          intro later member
          cases mem_insertSorted.mp member with
          | inl isAdded =>
              rw [isAdded]
              exact Int16.lt_of_le_of_ne (Int16.not_lt.mp notLess)
                (Ne.symm different)
          | inr deeper => exact below later deeper

theorem mem_insertAll {slot : Slot} (set : SlotSet) (slots : List Slot) :
    slot ∈ (set.insertAll slots).toList ↔ slot ∈ set.toList ∨ slot ∈ slots := by
  induction slots generalizing set with
  | nil => simp [insertAll]
  | cons added rest ih =>
      change slot ∈ ((set.insert added).insertAll rest).toList ↔ _
      rw [ih, insert, mem_insertSorted, List.mem_cons, or_comm (a := _ = _),
        or_assoc]

theorem Increasing.insertAll {set : SlotSet} (increasing : set.Increasing)
    (slots : List Slot) : (set.insertAll slots).Increasing := by
  induction slots generalizing set with
  | nil => exact increasing
  | cons added rest ih => exact ih (pairwise_insertSorted added increasing)

end SlotSet

/-! ## The slots of one instruction -/

def Access.map (rename : Slot → Slot) (access : Access) : Access :=
  ⟨access.write?.map rename, access.first?.map rename,
    access.second?.map rename⟩

theorem Access.slots_map (rename : Slot → Slot) (access : Access) :
    (access.map rename).slots = access.slots.map rename := by
  simp [slots, map, Option.toList_map]

theorem Access.touches_iff {access : Access} {slot : Slot} :
    (access.writes slot || access.reads slot) = true ↔ slot ∈ access.slots := by
  simp [writes, reads, slots]

/-- The number of slots that a shape has room for. -/
def Shape.slotCount : Shape → Nat
  | marker | noArg | word | dword | qword | dwordDword | wordDword => 0
  | writeVar | readVar | readVarDword | writeVarQword | writeVarDword
  | wordReadVar | writeVarWord => 1
  | writeRead | writeReadDword | readRead => 2
  | writeReadRead => 3

namespace Instr

/-- No slot of the operands is left out of the slots read and written. -/
theorem length_slots_access (instr : Instr) :
    instr.access.slots.length = instr.shape.slotCount := by
  cases instr with
  | line pos cue => cases cue <;> rfl
  | _ => rfl

section Renaming

variable (rename : Slot → Slot) (instr : Instr)

theorem access_renameSlots :
    (instr.renameSlots rename).access = instr.access.map rename := by
  cases instr <;> rfl

theorem opcode?_renameSlots :
    (instr.renameSlots rename).opcode? = instr.opcode? := by
  cases instr <;> rfl

theorem shape_renameSlots :
    (instr.renameSlots rename).shape = instr.shape := by
  cases instr <;> rfl

theorem size_renameSlots : (instr.renameSlots rename).size = instr.size :=
  congrArg Shape.size (shape_renameSlots rename instr)

theorem stackChange_renameSlots :
    (instr.renameSlots rename).stackChange = instr.stackChange := by
  cases instr <;> rfl

theorem renameSlots_renameSlots (later : Slot → Slot) :
    (instr.renameSlots rename).renameSlots later =
      instr.renameSlots (later ∘ rename) := by
  cases instr <;> rfl

theorem renameSlots_id : instr.renameSlots id = instr := by
  cases instr <;> rfl

end Renaming

theorem renameSlots_congr {rename other : Slot → Slot} {instr : Instr}
    (agree : ∀ slot ∈ instr.access.slots, rename slot = other slot) :
    instr.renameSlots rename = instr.renameSlots other := by
  cases instr with
  | pushVar slot | pushFrameAddr slot | pushVarRef slot | chkNullV slot
  | copyVarToReg4 slot | copyRegToVar4 slot | loadVar slot | writeVar4 slot
  | readReg4 slot | incVi slot | decVi slot | unary op slot
  | jumpPtr slot fanOut | setVar4 slot value | setVar8 slot value
  | copyVarToGlobal4 global slot | copyGlobalToVar4 slot global
  | loadGlobalReadReg4 slot global | cmpImm kind slot imm =>
      simp only [renameSlots, agree slot List.mem_cons_self]
  | copyVar4 first second | binOpImm op first second imm
  | cmp kind first second =>
      simp only [renameSlots, agree first List.mem_cons_self,
        agree second (List.mem_cons_of_mem _ List.mem_cons_self)]
  | binOp op dst lhs rhs =>
      simp only [renameSlots, agree dst List.mem_cons_self,
        agree lhs (List.mem_cons_of_mem _ List.mem_cons_self),
        agree rhs (List.mem_cons_of_mem _
          (List.mem_cons_of_mem _ List.mem_cons_self))]
  | _ => rfl

end Instr

/-! ## The slots of a routine -/

namespace Routine

variable {routine : Routine} {old new slot : Slot}

theorem mem_slotsUsed :
    slot ∈ routine.slotsUsed.toList ↔
      ∃ instr ∈ routine.instrs, slot ∈ instr.access.slots := by
  simp [slotsUsed, SlotSet.mem_insertAll]

theorem increasing_slotsUsed (routine : Routine) :
    routine.slotsUsed.Increasing :=
  SlotSet.Increasing.insertAll List.Pairwise.nil _

theorem usesSlot_iff :
    routine.usesSlot slot = true ↔ slot ∈ routine.slotsUsed.toList := by
  rw [mem_slotsUsed, usesSlot, List.any_eq_true]
  simp only [Access.touches_iff]

/-- The slots in use after a renaming are the images of those before. -/
theorem mem_slotsUsed_renamed (rename : Slot → Slot) :
    slot ∈ (routine.mapInstrs (Instr.renameSlots rename)).slotsUsed.toList ↔
      ∃ source ∈ routine.slotsUsed.toList, rename source = slot := by
  have touched (instr : Instr) :
      slot ∈ (instr.renameSlots rename).access.slots ↔
        ∃ source ∈ instr.access.slots, rename source = slot := by
    rw [Instr.access_renameSlots, Access.slots_map, List.mem_map]
  simp only [mem_slotsUsed, instrs_mapInstrs, List.mem_map,
    exists_exists_and_eq_and, touched]
  constructor
  · rintro ⟨instr, member, source, used, same⟩
    exact ⟨source, ⟨instr, member, used⟩, same⟩
  · rintro ⟨source, ⟨instr, member, used⟩, same⟩
    exact ⟨instr, member, source, used, same⟩

theorem mapInstrs_mapInstrs (routine : Routine) (first second : Instr → Instr) :
    (routine.mapInstrs first).mapInstrs second =
      routine.mapInstrs (second ∘ first) := by
  simp [mapInstrs, Function.comp_def]

/-- A renaming that fixes all slots in use leaves the routine as it is. -/
theorem mapInstrs_renameSlots_of_fixed {rename : Slot → Slot}
    (fixed : ∀ slot ∈ routine.slotsUsed.toList, rename slot = slot) :
    routine.mapInstrs (Instr.renameSlots rename) = routine := by
  have kept : ∀ entry ∈ routine.entries,
      { entry with instr := entry.instr.renameSlots rename } = entry := by
    intro entry member
    have fixedHere : ∀ slot ∈ entry.instr.access.slots,
        rename slot = id slot := by
      intro slot touched
      apply fixed
      exact mem_slotsUsed.mpr ⟨_, List.mem_map_of_mem member, touched⟩
    rw [Instr.renameSlots_congr fixedHere, Instr.renameSlots_id]
  rw [mapInstrs, List.map_congr_left kept, List.map_id']

end Routine

/-! ## Exchanging one slot for another -/

/-- The slot that stands for a slot once `new` is used instead of `old`. -/
def Slot.exchanged (old new slot : Slot) : Slot :=
  if slot = old then new else slot

/-- What is left of an entry when its slots are renamed: all but the slots. -/
structure Entry.Reslotted (rename : Slot → Slot) (entry left : Entry) :
    Prop where
  handle_eq : left.handle = entry.handle
  depth_eq : left.depth = entry.depth
  opcode_eq : left.instr.opcode? = entry.instr.opcode?
  shape_eq : left.instr.shape = entry.instr.shape
  size_eq : left.instr.size = entry.instr.size
  stackChange_eq : left.instr.stackChange = entry.instr.stackChange
  access_eq : left.instr.access = entry.instr.access.map rename
  length_slots : entry.instr.access.slots.length = entry.instr.shape.slotCount

namespace Routine

variable {routine : Routine} {old new slot : Slot}

theorem exchangeSlot_eq (routine : Routine) (old new : Slot) :
    routine.exchangeSlot old new =
      routine.mapInstrs (Instr.renameSlots (Slot.exchanged old new)) :=
  rfl

theorem reslotted_mapInstrs (routine : Routine) (rename : Slot → Slot) :
    List.Forall₂ (Entry.Reslotted rename) routine.entries
      (routine.mapInstrs (Instr.renameSlots rename)).entries := by
  apply List.forall₂_map_right_iff.mpr
  apply List.forall₂_same.mpr
  intro entry _
  exact {
    handle_eq := rfl
    depth_eq := rfl
    opcode_eq := Instr.opcode?_renameSlots rename entry.instr
    shape_eq := Instr.shape_renameSlots rename entry.instr
    size_eq := Instr.size_renameSlots rename entry.instr
    stackChange_eq := Instr.stackChange_renameSlots rename entry.instr
    access_eq := Instr.access_renameSlots rename entry.instr
    length_slots := Instr.length_slots_access entry.instr }

theorem not_mem_slotsUsed_exchangeSlot (different : old ≠ new) :
    old ∉ (routine.exchangeSlot old new).slotsUsed.toList := by
  rw [exchangeSlot_eq, mem_slotsUsed_renamed]
  rintro ⟨source, -, same⟩
  unfold Slot.exchanged at same
  split at same
  · exact different same.symm
  · contradiction

/-- The way back: `new` was not in use, so each `new` stands for an `old`. -/
theorem exchangeSlot_exchangeSlot
    (unused : new ∉ routine.slotsUsed.toList) :
    (routine.exchangeSlot old new).exchangeSlot new old = routine := by
  rw [exchangeSlot_eq, exchangeSlot_eq, mapInstrs_mapInstrs]
  have merged : Instr.renameSlots (Slot.exchanged new old) ∘
      Instr.renameSlots (Slot.exchanged old new) =
        Instr.renameSlots (Slot.exchanged new old ∘ Slot.exchanged old new) :=
    funext fun instr => Instr.renameSlots_renameSlots _ instr _
  rw [merged]
  apply mapInstrs_renameSlots_of_fixed
  intro slot used
  have notNew : slot ≠ new := fun isNew => unused (isNew ▸ used)
  by_cases isOld : slot = old
  · simp [Slot.exchanged, isOld]
  · simp [Slot.exchanged, isOld, notNew]

/-- An exchange of one slot for another reaches every slot of every
instruction and nothing else.  The slots in use stay a set in increasing order,
the image of the former one, and agree with the query for a single slot; `old`
is not among them.  Every entry keeps its handle, and its instruction differs
in its slots only.  If `new` was not in use, then exchanging back restores the
routine. -/
theorem exchangeSlot_complete_and_reversible (routine : Routine)
    (old new : Slot) :
    routine.slotsUsed.Increasing ∧
    (routine.exchangeSlot old new).slotsUsed.Increasing ∧
    (∀ slot, slot ∈ (routine.exchangeSlot old new).slotsUsed.toList ↔
      ∃ source ∈ routine.slotsUsed.toList,
        Slot.exchanged old new source = slot) ∧
    (old ≠ new → old ∉ (routine.exchangeSlot old new).slotsUsed.toList) ∧
    (∀ slot, (routine.exchangeSlot old new).usesSlot slot = true ↔
      slot ∈ (routine.exchangeSlot old new).slotsUsed.toList) ∧
    List.Forall₂ (Entry.Reslotted (Slot.exchanged old new)) routine.entries
      (routine.exchangeSlot old new).entries ∧
    (new ∉ routine.slotsUsed.toList →
      (routine.exchangeSlot old new).exchangeSlot new old = routine) :=
  ⟨increasing_slotsUsed routine, increasing_slotsUsed _,
    fun _ => mem_slotsUsed_renamed _, not_mem_slotsUsed_exchangeSlot,
    fun _ => usesSlot_iff, reslotted_mapInstrs routine _,
    exchangeSlot_exchangeSlot⟩

/-- A routine that uses three slots, two of them in one instruction. -/
def threefold : Routine :=
  ofList [.binOp .subI 3 (-2) 3, .copyVar4 (-2) 5, .cmp .int 5 3,
    .jumpPtr 3 2, .ret 0]

/-- Slot 9 is not in use, so it can stand for slot 3 and be exchanged back.
Slot 5 is in use, and slot 3 is lost in it. -/
theorem exchangeSlot_complete_and_reversible_threefold :
    (threefold.slotsUsed.toList = [-2, 3, 5] ∧
      (threefold.exchangeSlot 3 9).slotsUsed.toList = [-2, 5, 9] ∧
      3 ∉ (threefold.exchangeSlot 3 9).slotsUsed.toList ∧
      (threefold.exchangeSlot 3 9).exchangeSlot 9 3 = threefold) ∧
    (threefold.exchangeSlot 3 5).slotsUsed.toList = [-2, 5] ∧
      ((threefold.exchangeSlot 3 5).exchangeSlot 5 3).slotsUsed.toList =
        [-2, 3] := by
  obtain ⟨-, -, -, gone, -, -, restored⟩ :=
    exchangeSlot_complete_and_reversible threefold 3 9
  exact ⟨⟨by decide, by decide, gone (by decide), restored (by decide)⟩,
    by decide, by decide⟩

end Routine

end StackAssembler
