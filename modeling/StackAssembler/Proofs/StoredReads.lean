import StackAssembler.Proofs.StoredTables

/-!
# Searches in linked storage

The searches for later uses of a slot or of the register go from handle to
handle.  They have the answers of the searches in the list of instructions.  A
table of labels whose handles are all in the code leads to no stale handle.
-/

namespace StackAssembler

namespace Program

open Flow Liveness

section Searches

variable {routine : Routine} {front back : List Entry} {entry : Entry}

theorem performs_follow (labels : List (Label × Handle)) (slot : Slot)
    (frontier : Frontier Handle) (split : routine.entries = front ++ back) :
    Performs (LabelTable.follow labels slot frontier (back.head?.map (·.handle))) routine
      (.ok (Liveness.follow labels slot (back.map (·.instr)) frontier),
        routine) := by
  induction back generalizing front frontier with
  | nil =>
      rw [List.head?_nil, Option.map_none, LabelTable.follow]
      exact performs_pure _ _
  | cons entry back ih =>
      have onward := split
      rw [List.append_cons] at onward
      rw [List.head?_cons, Option.map_some, LabelTable.follow, List.map_cons]
      unfold Liveness.follow
      apply (performs_instrAt split).bind
      by_cases reads : entry.instr.access.reads slot
      · rw [if_pos reads, if_pos reads]
        exact performs_pure _ _
      rw [if_neg reads, if_neg reads]
      by_cases ends : entry.instr.access.writes slot ||
        entry.instr.dropsTemporaries
      · rw [if_pos ends, if_pos ends]
        exact performs_pure _ _
      rw [if_neg ends, if_neg ends]
      cases entry.instr with
      | jump target =>
          dsimp only
          cases placeOf? labels target <;> exact performs_pure _ _
      | branch condition target =>
          dsimp only
          cases placeOf? labels target with
          | none => exact performs_pure _ _
          | some place => exact (performs_next split).bind (ih _ onward)
      | jumpPtr slot declared => exact performs_pure _ _
      | _ => exact (performs_next split).bind (ih _ onward)

def answered : Answer Handle → Except Fault Bool
  | .read => .ok true
  | .unread => .ok false
  | .lost place => .error (.staleHandle place)

theorem split_of_codeFrom? {place : Handle} {code : List Instr}
    (found : routine.codeFrom? place = some code) :
    ∃ front entry back, routine.entries = front ++ entry :: back ∧
      entry.handle = place ∧ (entry :: back).map (·.instr) = code := by
  obtain ⟨⟨front, entry, back⟩, located, rfl⟩ :=
    Option.map_eq_some_iff.mp found
  obtain ⟨split, named, -⟩ := Routine.splitAt?_eq_some_iff.mp located
  exact ⟨front, entry, back, split, named, rfl⟩

theorem performs_search (labels : List (Label × Handle)) (slot : Slot)
    (frontier : Frontier Handle) (routine : Routine) :
    Performs (LabelTable.search labels slot frontier) routine
      ((answered (Liveness.search labels slot routine.codeFrom?
        frontier)).mapError .fault, routine) := by
  fun_induction Liveness.search labels slot routine.codeFrom? frontier with
  | case1 frontier order =>
      rw [LabelTable.search, order]
      exact performs_pure _ _
  | case2 frontier place pending order missing =>
      have stale : place ∉ routine.handles := by
        rw [Routine.codeFrom?, Option.map_eq_none_iff,
          Routine.splitAt?_eq_none_iff] at missing
        simpa [Routine.handles] using missing
      rw [LabelTable.search, order]
      dsimp only
      rw [LabelTable.follow]
      exact (performs_instrAt_of_stale stale).bind_error.bind_error
  | case3 frontier place pending order code found read =>
      rw [LabelTable.search, order]
      obtain ⟨front, entry, back, split, rfl, rfl⟩ := split_of_codeFrom? found
      have performs := performs_follow labels slot { frontier with pending }
        split
      rw [read] at performs
      exact performs.bind (performs_pure _ _)
  | case4 frontier place pending order code found onward followed ih =>
      rw [LabelTable.search, order]
      obtain ⟨front, entry, back, split, rfl, rfl⟩ := split_of_codeFrom? found
      have performs := performs_follow labels slot { frontier with pending }
        split
      rw [followed] at performs
      exact performs.bind ih

/-- A search from one place follows the code there first. -/
theorem search_eq_answerFrom {labels : List (Label × Handle)} {slot : Slot}
    {codeAt? : Handle → Option (List Instr)} {start : Handle}
    {code : List Instr} (found : codeAt? start = some code)
    (met : List Handle) :
    Liveness.search labels slot codeAt? { pending := [start], met } =
      answerFrom labels slot codeAt? met code := by
  rw [Liveness.search, answerFrom]
  dsimp only
  rw [found]
  dsimp only
  split <;> simp_all

theorem performs_slotReadAfter (labels : List (Label × Handle))
    (slot : Slot) (split : routine.entries = front ++ entry :: back) :
    Performs (slotReadAfter labels entry.handle slot) routine
      ((routine.slotReadAfter labels entry.handle slot).mapError .fault,
        routine) := by
  refine performs_of_accounted fun accounted => ?_
  apply (performs_next split).bind
  rw [Routine.slotReadAfter, locate_of_split accounted split]
  cases back with
  | nil => exact performs_pure _ _
  | cons start back =>
      have searched := performs_search labels slot
        { pending := [start.handle], met := [start.handle] } routine
      rw [List.append_cons] at split
      have located := Routine.locate_eq_ok_iff.mp
        (locate_of_split accounted split)
      have found : routine.codeFrom? start.handle =
          some ((start :: back).map (·.instr)) := by
        rw [Routine.codeFrom?, located]
        rfl
      rw [search_eq_answerFrom found] at searched
      simp only [bind, Except.bind]
      cases answer : answerFrom labels slot routine.codeFrom? [start.handle]
          ((start :: back).map (·.instr)) <;>
        rw [answer] at searched <;> exact searched

/-- The answer about a slot is that of the rules. -/
theorem performs_deadAfter (distinct : (Flow.labels routine.instrs).Nodup)
    (keepJitEntries : Bool) (slot? : Option Slot)
    (split : routine.entries = front ++ entry :: back) :
    Performs (deadAfter routine.labelHandles entry.handle slot?) routine
      (.ok (slot?.any ((Window.scopeOf routine.temporaries keepJitEntries
        routine.instrs).dead · (back.map (·.instr)))), routine) := by
  refine performs_of_accounted fun accounted => ?_
  cases slot? with
  | none => exact performs_pure _ _
  | some slot =>
      apply (performs_isTemporary slot routine).bind
      rw [Option.any_some, Window.scopeOf]
      dsimp only
      cases routine.temporaries.contains slot with
      | false => exact performs_pure _ _
      | true =>
          have here : routine.entries[front.length]? = some entry := by
            rw [split]
            simp
          have behind : routine.instrs.drop (front.length + 1) =
              back.map (·.instr) := by
            rw [Routine.instrs, split, ← List.map_drop, List.drop_append]
            simp
          have performs := performs_slotReadAfter routine.labelHandles slot
            split
          rw [Routine.slotReadAfter_eq distinct accounted.nodup_handles here,
            behind] at performs
          refine performs.bind ?_
          rw [Bool.not_not, Bool.true_and]
          exact performs_pure _ _

theorem performs_registerUsed (split : routine.entries = front ++ back) :
    Performs (Link.registerUsed (back.head?.map (·.handle))) routine
      (.ok (Liveness.registerUsed (back.map (·.instr))), routine) := by
  induction back generalizing front with
  | nil =>
      rw [List.head?_nil, Option.map_none, Link.registerUsed]
      exact performs_pure _ _
  | cons entry back ih =>
      rw [List.head?_cons, Option.map_some, Link.registerUsed, List.map_cons,
        Liveness.registerUsed]
      apply (performs_instrAt split).bind
      split
      · exact performs_pure _ _
      · split
        · exact performs_pure _ _
        · apply (performs_next split).bind
          rw [List.append_cons] at split
          exact ih split

theorem performs_registerUsedAfter
    (split : routine.entries = front ++ entry :: back) :
    Performs (registerUsedAfter entry.handle) routine
      (.ok (Liveness.registerUsed (back.map (·.instr))), routine) := by
  apply (performs_next split).bind
  rw [List.append_cons] at split
  exact performs_registerUsed split

end Searches

end Program

end StackAssembler
