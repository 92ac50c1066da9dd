import StackAssembler.Proofs.ReadPaths
import StackAssembler.Proofs.StoredRuns

/-!
# Tables of handles

The steps of an assembly in linked storage keep tables whose keys are handles:
the markers of the labels, the code position of every instruction, and the first
instruction at every position.  The tables say about handles what the code says
about indices.  They are refused if a label marks two places, or if no word can
hold a code position.
-/

namespace StackAssembler

namespace Program

open Flow Liveness StackDepth

variable {routine : Routine} {entries : List Entry}

theorem placeOf?_isSome_iff {α : Type} {table : List (Label × α)}
    {name : Label} :
    (placeOf? table (.label name)).isSome ↔ name ∈ table.map (·.1) := by
  simp [placeOf?, List.find?_isSome]

theorem labelTable_eq (table : List (Label × Handle))
    (entries : List Entry) :
    labelTable table (rows entries) =
      match firstRepeat? (table.map (·.1))
        (labels (entries.map (·.instr))) with
      | some label => .error (.duplicateLabel label)
      | none => .ok ((entries.filterMap fun entry =>
          entry.instr.marks?.map fun label =>
            (label, entry.handle)).reverse ++ table) := by
  induction entries generalizing table with
  | nil => rfl
  | cons entry entries ih =>
      simp only [rows, List.map_cons, labelTable] at ih ⊢
      cases marked : entry.instr.marks? with
      | none =>
          rw [labels_cons, marked]
          simp only [ih, Option.toList_none, List.nil_append,
            List.filterMap_cons, marked, Option.map_none]
      | some label =>
          rw [labels_cons, marked]
          simp only [Option.toList_some, List.singleton_append, firstRepeat?,
            List.filterMap_cons, marked, Option.map_some,
            List.reverse_cons, List.append_assoc]
          by_cases repeated : label ∈ table.map (·.1)
          · obtain ⟨place, found⟩ := Option.isSome_iff_exists.mp
              (placeOf?_isSome_iff.mpr repeated)
            simp only [found, if_pos repeated]
          · have fresh : placeOf? table (.label label) = none := by
              rw [← Option.not_isSome_iff_eq_none, placeOf?_isSome_iff]
              exact repeated
            simp only [fresh, if_neg repeated, ih]
            rfl

theorem performs_labelsOf_of_repeated {label : Label}
    (repeated : repeatedLabel? routine.instrs = some label)
    (other : Routine) :
    Performs (labelsOf (rows routine.entries)) other
      (.error (.defect (.duplicateLabel label)), other) := by
  have table := labelTable_eq [] routine.entries
  change firstRepeat? [] (labels (routine.entries.map (·.instr))) = _
    at repeated
  rw [List.map_nil, repeated] at table
  rw [labelsOf, table]
  exact performs_throw _ other

theorem performs_labelsOf (distinct : (labels routine.instrs).Nodup)
    (other : Routine) :
    Performs (labelsOf (rows routine.entries)) other
      (.ok routine.labelHandles, other) := by
  have table := labelTable_eq [] routine.entries
  have unrepeated := repeatedLabel?_eq_none_iff.mpr distinct
  change firstRepeat? [] (labels (routine.entries.map (·.instr))) = _
    at unrepeated
  rw [List.map_nil, unrepeated, List.append_nil] at table
  rw [labelsOf, table]
  exact performs_pure _ other

def positionsFrom : Nat → List Entry → List (Handle × Nat)
  | _, [] => []
  | position, entry :: entries =>
      (entry.handle, position) ::
        positionsFrom (position + entry.instr.size) entries

theorem performs_positionTable {position : Nat}
    (small : position + Instr.codeSize (entries.map (·.instr)) <
      positionLimit) (routine : Routine) :
    Performs (positionTable position (rows entries)) routine
      (.ok (positionsFrom position entries), routine) := by
  induction entries generalizing position with
  | nil => exact performs_pure _ _
  | cons entry entries ih =>
      rw [List.map_cons, Instr.codeSize_cons] at small
      refine (performs_advance (by omega) routine).bind ?_
      exact (ih (by omega)).bind (performs_pure _ _)

theorem performs_positionTable_of_large {position : Nat}
    (inside : position < positionLimit)
    (large : positionLimit ≤
      position + Instr.codeSize (entries.map (·.instr)))
    (routine : Routine) :
    Performs (positionTable position (rows entries)) routine
      (.error (.fault .overflow), routine) := by
  induction entries generalizing position with
  | nil => exact absurd large (by simpa using inside)
  | cons entry entries ih =>
      rw [List.map_cons, Instr.codeSize_cons] at large
      by_cases fits : position + entry.instr.size < positionLimit
      · refine (performs_advance fits routine).bind ?_
        exact (ih fits (by omega)).bind_error
      · exact (performs_advance_of_overflow (by omega) routine).bind_error

theorem lookup_positionsFrom {position index : Nat} {entry : Entry}
    (distinct : (entries.map (·.handle)).Nodup)
    (here : entries[index]? = some entry) :
    (positionsFrom position entries).lookup entry.handle =
      some (position + Flow.position (entries.map (·.instr)) index) := by
  induction entries generalizing position index with
  | nil => cases here
  | cons first entries ih =>
      obtain ⟨apart, rest⟩ := List.nodup_cons.mp distinct
      rw [positionsFrom]
      cases index with
      | zero =>
          obtain rfl := Option.some.inj here
          simp
      | succ index =>
          have other : entry.handle ≠ first.handle := by
            intro same
            exact apart (List.mem_map.mpr
              ⟨entry, List.mem_of_getElem? here, same⟩)
          rw [List.lookup_cons, beq_false_of_ne other, List.map_cons,
            position_cons_succ, ← Nat.add_assoc]
          exact ih rest here

/-- The handle of the first entry at a code position, where the entries start at
another one. -/
def startOf? : Nat → List Entry → Nat → Option Handle
  | _, [], _ => none
  | position, entry :: entries, target =>
      if target = position then some entry.handle
      else startOf? (position + entry.instr.size) entries target

theorem startOf?_of_lt {position target : Nat} (before : target < position)
    (entries : List Entry) : startOf? position entries target = none := by
  induction entries generalizing position with
  | nil => rfl
  | cons entry entries ih =>
      rw [startOf?, if_neg (by omega)]
      exact ih (by omega)

theorem startOf?_eq (position target : Nat) (entries : List Entry) :
    startOf? position entries (position + target) =
      (indexAt? (entries.map (·.instr)) target).bind fun index =>
        (entries.map (·.handle))[index]? := by
  induction entries generalizing position target with
  | nil => rfl
  | cons entry entries ih =>
      rw [startOf?, List.map_cons, indexAt?]
      by_cases here : target = 0
      · simp [here]
      · rw [if_neg (by omega), if_neg here]
        by_cases within : target < entry.instr.size
        · rw [if_pos within]
          exact startOf?_of_lt (by omega) entries
        · have later := ih (position + entry.instr.size)
            (target - entry.instr.size)
          rw [show position + entry.instr.size + (target - entry.instr.size) =
            position + target by omega] at later
          rw [if_neg within, later, Option.bind_map]
          rfl

/-- Handles are entered at positions that no other handle has taken. -/
theorem performs_startTable {positions : List (Handle × Nat)}
    {position : Nat} (starts : List (Nat × Handle)) (routine : Routine)
    (known : ∀ index entry, entries[index]? = some entry →
      positions.lookup entry.handle =
        some (position + Flow.position (entries.map (·.instr)) index)) :
    ∃ table, Performs (startTable positions starts (rows entries)) routine
        (.ok table, routine) ∧
      ∀ target, table.lookup target =
        (starts.lookup target).or (startOf? position entries target) := by
  induction entries generalizing position starts with
  | nil => exact ⟨starts, performs_pure _ _, by simp [startOf?]⟩
  | cons entry entries ih =>
      have first := known 0 entry rfl
      rw [position_zero, Nat.add_zero] at first
      have others (index : Nat) (other : Entry)
          (here : entries[index]? = some other) :
          positions.lookup other.handle = some (position + entry.instr.size +
            Flow.position (entries.map (·.instr)) index) := by
        rw [known (index + 1) other here, List.map_cons, position_cons_succ,
          Nat.add_assoc]
      have asked : Performs (ofOption (positions.lookup entry.handle)) routine
          (.ok position, routine) := by
        rw [first]
        exact performs_pure _ _
      cases taken : starts.lookup position with
      | some handle =>
          obtain ⟨table, performs, found⟩ := ih starts others
          refine ⟨table, asked.bind ?_, fun target => ?_⟩
          · simp only [taken]
            exact performs
          · rw [found, startOf?]
            split
            · rename_i same
              simp [same, taken]
            · rfl
      | none =>
          obtain ⟨table, performs, found⟩ :=
            ih ((position, entry.handle) :: starts) others
          refine ⟨table, asked.bind ?_, fun target => ?_⟩
          · simp only [taken]
            exact performs
          · rw [found, startOf?, List.lookup_cons]
            by_cases same : target = position
            · simp [same, taken]
            · simp [same, beq_false_of_ne same]

/-- What the tables of targets say about a routine. -/
structure Targets.Describe (targets : Targets) (routine : Routine) :
    Prop where
  labels_eq : ∀ name, placeOf? targets.labels (.label name) =
    (labelIndex? routine.instrs name).bind (routine.handles[·]?)
  positions_eq : ∀ index handle, routine.handles[index]? = some handle →
    targets.positions.lookup handle = some (position routine.instrs index)
  starts_eq : ∀ target, targets.starts.lookup target =
    (indexAt? routine.instrs target).bind (routine.handles[·]?)

theorem placeOf?_labelHandles (distinct : (labels routine.instrs).Nodup)
    (name : Label) :
    placeOf? routine.labelHandles (.label name) =
      (labelIndex? routine.instrs name).bind (routine.handles[·]?) := by
  cases located : placeOf? routine.labelHandles (.label name) with
  | some handle =>
      obtain ⟨entry, member, marked, rfl⟩ :=
        Routine.mem_labelHandles_iff.mp (mem_of_placeOf? located)
      obtain ⟨index, here⟩ := List.mem_iff_getElem?.mp member
      have code : routine.instrs[index]? = some (.label name) := by
        rw [Routine.instrs, List.getElem?_map, here, Option.map_some, marked]
      rw [labelIndex?_of_getElem? distinct code]
      simp [Routine.handles, here]
  | none =>
      cases found : labelIndex? routine.instrs name with
      | none => rfl
      | some index =>
          have marked := (labelIndex?_eq_some_iff.mp found).1
          rw [Routine.instrs, List.getElem?_map] at marked
          obtain ⟨entry, here, same⟩ := Option.map_eq_some_iff.mp marked
          exact absurd (Routine.mem_labelHandles_iff.mpr
            ⟨entry, List.mem_of_getElem? here, same, rfl⟩)
            (not_mem_of_placeOf? located entry.handle)

theorem performs_targets (accounted : routine.Accounted)
    (distinct : (labels routine.instrs).Nodup)
    (small : routine.codeSize < positionLimit) :
    ∃ table : Targets, table.Describe routine ∧
      Performs targets routine (.ok table, routine) := by
  have known (index : Nat) (entry : Entry)
      (here : routine.entries[index]? = some entry) :
      (positionsFrom 0 routine.entries).lookup entry.handle =
        some (0 + position routine.instrs index) :=
    lookup_positionsFrom accounted.nodup_handles here
  obtain ⟨starts, performs, found⟩ := performs_startTable [] routine known
  refine ⟨⟨routine.labelHandles, positionsFrom 0 routine.entries, starts⟩,
    ⟨placeOf?_labelHandles distinct, ?_, ?_⟩, ?_⟩
  · intro index handle here
    rw [Routine.handles, List.getElem?_map] at here
    obtain ⟨entry, located, rfl⟩ := Option.map_eq_some_iff.mp here
    rw [known index entry located, Nat.zero_add]
  · intro target
    have start := startOf?_eq 0 target routine.entries
    rw [Nat.zero_add] at start
    rw [found, start]
    rfl
  · apply (performs_listing routine).bind
    apply (performs_labelsOf distinct routine).bind
    apply (performs_positionTable (by rwa [Nat.zero_add]) routine).bind
    exact performs.bind (performs_pure _ _)

end Program

end StackAssembler
