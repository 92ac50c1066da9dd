import StackAssembler.Instr.Stack
import StackAssembler.Proofs.Markers
import Mathlib.Algebra.Group.Nat.Defs
import Mathlib.Logic.Relation

/-!
# The control graph of a run of instructions

The instructions of a run are the vertices of a graph, named by their indices.
An edge says that control may pass from one instruction to another.  The
definitions here follow the meaning of the instructions and not the searches of
the assembler; the second half of the file proves that the searches find
exactly these edges.

A run is well formed if its labels are distinct and its reachable instructions
have stack depths that agree along every edge and suit every instruction.
-/

namespace StackAssembler

namespace Instr

/-- Whether control may pass to the next instruction.  A jump table enters the
instructions after it by their number and does not fall through. -/
def fallsThrough : Instr → Bool
  | jump _ | jumpPtr .. | ret _ => false
  | _ => true

@[simp]
theorem codeSize_nil : codeSize [] = 0 := rfl

@[simp]
theorem codeSize_cons (instr : Instr) (code : List Instr) :
    codeSize (instr :: code) = instr.size + codeSize code := rfl

@[simp]
theorem codeSize_append (first second : List Instr) :
    codeSize (first ++ second) = codeSize first + codeSize second := by
  induction first with
  | nil => simp
  | cons instr first ih => simp [ih, Nat.add_assoc]

end Instr

namespace Flow

/-- A target of the instruction at an index leads to a place: to the marker of
its label, or to the first instruction at a code position.  Code positions are
32-bit numbers. -/
inductive Leads (code : List Instr) (index : Nat) (instr : Instr) :
    Target → Nat → Prop
  | label {name : Label} {place : Nat}
      (marked : code[place]? = some (.label name)) :
      Leads code index instr (.label name) place
  | offset {distance : Int32} {place : Nat} (inside : place < code.length)
      (distant : (position code place : Int) =
        position code index + instr.size + distance.toInt)
      (representable : position code place < 2 ^ 32)
      (first : ∀ earlier < place,
        position code earlier ≠ position code place) :
      Leads code index instr (.offset distance) place

/-- Control may pass from the instruction at an index to the one at a place. -/
inductive Edge (code : List Instr) (index : Nat) : Nat → Prop
  | target {instr : Instr} {target : Target} {place : Nat}
      (here : code[index]? = some instr)
      (aimed : instr.target? = some target)
      (leads : Leads code index instr target place) : Edge code index place
  | table {slot : Slot} {fanOut : UInt32} {place : Nat}
      (here : code[index]? = some (.jumpPtr slot fanOut))
      (after : index < place) (within : place ≤ index + fanOut.toNat)
      (inside : place < code.length) : Edge code index place
  | next {instr : Instr} (here : code[index]? = some instr)
      (falls : instr.fallsThrough) (inside : index + 1 < code.length) :
      Edge code index (index + 1)

/-- What is reachable from the first instruction. -/
def Reachable (code : List Instr) : Nat → Prop :=
  Relation.ReflTransGen (Edge code) 0

/-- The depths before the instructions suit the instruction at an index. -/
structure Suits (code : List Instr) (depth : Nat → Int) (index : Nat)
    (instr : Instr) : Prop where
  notBelow : 0 ≤ depth index + instr.stackChange
  agrees : ∀ place, Edge code index place →
    depth place = depth index + instr.stackChange
  lands : ∀ target, instr.target? = some target →
    ∃ place, Leads code index instr target place
  fits : ∀ slot fanOut, instr = .jumpPtr slot fanOut →
    fanOut.toNat ≤ code.length - (index + 1)
  inFrame : ∀ distance, instr = .pushStackAddr distance →
    -32768 ≤ distance.toInt + depth index ∧
      distance.toInt + depth index < 32768

/-- Every label marks one place, and the reachable instructions have stack
depths that start at zero and suit each of them. -/
structure WellFormed (code : List Instr) : Prop where
  distinct : (labels code).Nodup
  balanced : ∃ depth : Nat → Int, depth 0 = 0 ∧
    ∀ index instr, Reachable code index → code[index]? = some instr →
      Suits code depth index instr

@[simp]
theorem position_zero (code : List Instr) : position code 0 = 0 := by
  simp [position]

@[simp]
theorem position_cons_succ (instr : Instr) (code : List Instr) (index : Nat) :
    position (instr :: code) (index + 1) =
      instr.size + position code index := by
  simp [position]

theorem position_le_codeSize (code : List Instr) (index : Nat) :
    position code index ≤ Instr.codeSize code := by
  have split : Instr.codeSize code =
      position code index + Instr.codeSize (code.drop index) := by
    rw [position, ← Instr.codeSize_append, List.take_append_drop]
  omega

theorem position_succ {code : List Instr} {index : Nat} {instr : Instr}
    (here : code[index]? = some instr) :
    position code (index + 1) = position code index + instr.size := by
  rw [position, List.take_add_one, here, Instr.codeSize_append]
  simp [position]

/-- The search by code position finds the first instruction at that
position. -/
theorem indexAt?_eq_some_iff {code : List Instr} {target place : Nat} :
    indexAt? code target = some place ↔
      place < code.length ∧ position code place = target ∧
        ∀ earlier < place, position code earlier ≠ target := by
  induction code generalizing target place with
  | nil => simp [indexAt?]
  | cons instr code ih =>
      unfold indexAt?
      by_cases atStart : target = 0
      · subst atStart
        rw [if_pos rfl]
        constructor
        · intro found
          obtain rfl := Option.some.inj found
          simp
        · rintro ⟨-, -, first⟩
          cases place with
          | zero => rfl
          | succ place => exact absurd (by simp) (first 0 (by omega))
      · rw [if_neg atStart]
        by_cases within : target < instr.size
        · -- The position lies inside the first instruction.
          rw [if_pos within]
          constructor
          · simp
          · rintro ⟨-, reached, -⟩
            cases place with
            | zero => exact absurd reached.symm (by simpa using atStart)
            | succ place =>
                rw [position_cons_succ] at reached
                omega
        · rw [if_neg within, Option.map_eq_some_iff]
          constructor
          · rintro ⟨found, inner, rfl⟩
            obtain ⟨inside, reached, first⟩ := ih.mp inner
            refine ⟨by simpa using inside, ?_, ?_⟩
            · rw [position_cons_succ, reached]
              omega
            · rintro (_ | earlier) before
              · simpa using Ne.symm atStart
              · rw [position_cons_succ]
                have apart := first earlier (by omega)
                omega
          · rintro ⟨inside, reached, first⟩
            cases place with
            | zero => exact absurd reached.symm (by simpa using atStart)
            | succ place =>
                rw [position_cons_succ] at reached
                refine ⟨place, ih.mpr ⟨by simpa using inside, by omega, ?_⟩,
                  rfl⟩
                intro earlier before equal
                apply first (earlier + 1) (by omega)
                rw [position_cons_succ]
                omega

section Searches

variable {code : List Instr} {index : Nat} {instr : Instr}

/-- Where labels are distinct, the search for a destination finds where the
target leads. -/
theorem destination_eq_ok_iff (distinct : (labels code).Nodup)
    {target : Target} {place : Nat} :
    destination code index instr target = .ok place ↔
      Leads code index instr target place := by
  cases target with
  | label name =>
      simp only [destination]
      constructor
      · intro found
        split at found
        · rename_i marker located
          obtain rfl := Except.ok.inj found
          exact .label (labelIndex?_eq_some_iff.mp located).1
        · simp at found
      · rintro (⟨marked⟩ | _)
        rw [labelIndex?_of_getElem? distinct marked]
  | offset distance =>
      have limit : (positionLimit : Int) = 2 ^ 32 := rfl
      simp only [destination]
      constructor
      · intro found
        split at found
        · rename_i bounds
          split at found
          · rename_i marker located
            obtain rfl := Except.ok.inj found
            obtain ⟨inside, reached, first⟩ := indexAt?_eq_some_iff.mp located
            exact .offset inside (by omega) (by omega)
              fun earlier before => reached ▸ first earlier before
          · simp at found
        · simp at found
      · rintro (_ | ⟨inside, distant, representable, first⟩)
        have located : indexAt? code (position code index + instr.size +
            distance.toInt).toNat = some place :=
          indexAt?_eq_some_iff.mpr ⟨inside, by omega, fun earlier before => by
            have apart := first earlier before
            omega⟩
        rw [if_pos (by omega), located]

theorem Leads.lt_length {target : Target} {place : Nat}
    (leads : Leads code index instr target place) : place < code.length := by
  cases leads with
  | label marked => exact (List.getElem?_eq_some_iff.mp marked).1
  | offset inside => exact inside

theorem Edge.lt_length {place : Nat} (edge : Edge code index place) :
    place < code.length := by
  cases edge with
  | target _ _ leads => exact leads.lt_length
  | table _ _ _ inside => exact inside
  | next _ _ inside => exact inside

theorem Edge.source_lt_length {place : Nat} (edge : Edge code index place) :
    index < code.length := by
  cases edge with
  | target here => exact (List.getElem?_eq_some_iff.mp here).1
  | table here => exact (List.getElem?_eq_some_iff.mp here).1
  | next here => exact (List.getElem?_eq_some_iff.mp here).1

theorem successors_of_target? {target : Target}
    (aimed : instr.target? = some target) :
    successors code index instr =
      (destination code index instr target).map fun place =>
        place :: if instr.fallsThrough then [index + 1] else [] := by
  cases instr with
  | jump other =>
      obtain rfl := Option.some.inj aimed
      simp only [successors, Instr.fallsThrough]
      cases destination code index (.jump other) other <;> rfl
  | branch cond other =>
      obtain rfl := Option.some.inj aimed
      simp only [successors, Instr.fallsThrough]
      cases destination code index (.branch cond other) other <;> rfl
  | _ => simp [Instr.target?] at aimed

theorem successors_of_plain (unaimed : instr.target? = none)
    (noTable : ∀ slot fanOut, instr ≠ .jumpPtr slot fanOut) :
    successors code index instr =
      .ok (if instr.fallsThrough then [index + 1] else []) := by
  cases instr <;> simp_all [Instr.target?, successors, Instr.fallsThrough]

theorem edge_iff (here : code[index]? = some instr) {place : Nat}
    (inside : place < code.length) :
    Edge code index place ↔
      (∃ target, instr.target? = some target ∧
        Leads code index instr target place) ∨
      (∃ slot fanOut, instr = .jumpPtr slot fanOut ∧
        index < place ∧ place ≤ index + fanOut.toNat) ∨
      (instr.fallsThrough ∧ place = index + 1) := by
  constructor
  · intro edge
    cases edge with
    | target found aimed leads =>
        obtain rfl := Option.some.inj (here.symm.trans found)
        exact .inl ⟨_, aimed, leads⟩
    | table found after within =>
        obtain rfl := Option.some.inj (here.symm.trans found)
        exact .inr (.inl ⟨_, _, rfl, after, within⟩)
    | next found falls =>
        obtain rfl := Option.some.inj (here.symm.trans found)
        exact .inr (.inr ⟨falls, rfl⟩)
  · rintro (⟨target, aimed, leads⟩ | ⟨slot, fanOut, rfl, after, within⟩ |
      ⟨falls, rfl⟩)
    · exact .target here aimed leads
    · exact .table here after within inside
    · exact .next here falls inside

/-- The search for successors finds the ends of the edges and, behind the last
instruction, the end of the code. -/
theorem mem_successors_iff (distinct : (labels code).Nodup)
    (here : code[index]? = some instr) {places : List Nat}
    (found : successors code index instr = .ok places) {place : Nat}
    (inside : place < code.length) :
    place ∈ places ↔ Edge code index place := by
  rw [edge_iff here inside]
  cases aimed : instr.target? with
  | some target =>
      rw [successors_of_target? aimed] at found
      cases reached : destination code index instr target with
      | error defect => simp [reached, Except.map] at found
      | ok first =>
          rw [reached] at found
          obtain rfl := Except.ok.inj found
          have leads : Leads code index instr target place ↔
              place = first := by
            rw [← destination_eq_ok_iff distinct, reached, Except.ok.injEq]
            exact eq_comm
          have noTable : ∀ slot fanOut, instr ≠ .jumpPtr slot fanOut := by
            rintro slot fanOut rfl
            simp [Instr.target?] at aimed
          simp [leads, noTable]
  | none =>
      by_cases table : ∃ slot fanOut, instr = .jumpPtr slot fanOut
      · obtain ⟨slot, fanOut, rfl⟩ := table
        simp only [successors] at found
        split at found
        · obtain rfl := Except.ok.inj found
          constructor
          · intro member
            have bounds := List.mem_range'_1.mp member
            exact .inr (.inl ⟨slot, fanOut, rfl, by omega, by omega⟩)
          · rintro (⟨_, other, _⟩ | ⟨_, _, same, after, within⟩ | ⟨falls, _⟩)
            · simp at other
            · obtain ⟨rfl, rfl⟩ := Instr.jumpPtr.inj same
              exact List.mem_range'_1.mpr ⟨by omega, by omega⟩
            · simp [Instr.fallsThrough] at falls
        · simp at found
      · have noTable : ∀ slot fanOut, instr ≠ .jumpPtr slot fanOut :=
          fun slot fanOut equal => table ⟨slot, fanOut, equal⟩
        rw [successors_of_plain aimed noTable] at found
        obtain rfl := Except.ok.inj found
        simp [noTable]

/-- The search for successors succeeds exactly if the target leads somewhere
and the jump table fits. -/
theorem exists_successors_iff (distinct : (labels code).Nodup) :
    (∃ places, successors code index instr = .ok places) ↔
      (∀ target, instr.target? = some target →
        ∃ place, Leads code index instr target place) ∧
      (∀ slot fanOut, instr = .jumpPtr slot fanOut →
        fanOut.toNat ≤ code.length - (index + 1)) := by
  cases aimed : instr.target? with
  | some target =>
      have noTable : ∀ slot fanOut, instr ≠ .jumpPtr slot fanOut := by
        rintro slot fanOut rfl
        simp [Instr.target?] at aimed
      rw [successors_of_target? aimed]
      simp only [← destination_eq_ok_iff distinct, noTable]
      cases reached : destination code index instr target with
      | error defect => simp [Except.map, reached]
      | ok place => simp [Except.map, reached]
  | none =>
      by_cases table : ∃ slot fanOut, instr = .jumpPtr slot fanOut
      · obtain ⟨slot, fanOut, rfl⟩ := table
        by_cases fits : fanOut.toNat ≤ code.length - (index + 1)
        · simp [successors, fits]
        · simp [successors, fits]
      · have noTable : ∀ slot fanOut, instr ≠ .jumpPtr slot fanOut :=
          fun slot fanOut equal => table ⟨slot, fanOut, equal⟩
        simp [successors_of_plain aimed noTable, noTable]

end Searches

end Flow

end StackAssembler
