import StackAssembler.Proofs.ExactDistances
import StackAssembler.Proofs.LineCollection
import StackAssembler.Proofs.StoredTables

/-!
# Layout in linked storage

The steps before and after the window rules go through linked code once, and
change or remove what they stand at.  Their results are those for the routine, as
long as a word can hold the size of the code.
-/

namespace StackAssembler

namespace Program

open Flow Layout

/-! ## Cues and entry points -/

section Passes

variable {routine : Routine} {front back : List Entry} {entry : Entry}

theorem performs_setCue (cue : Bool)
    (split : routine.entries = front ++ entry :: back) :
    Performs (setCue cue entry.handle) routine
      (.ok (), { routine with
        entries := front ++
          { entry with instr := entry.instr.withCue cue } :: back }) := by
  apply (performs_instrAt split).bind
  split
  · rename_i pos other same
    have turned : entry.instr.withCue cue = .line pos cue := by
      rw [same]
      rfl
    rw [turned]
    by_cases changes : other = cue
    · rw [if_neg (not_not_intro changes), ← changes, ← same, ← split]
      exact performs_pure _ _
    · rw [if_pos changes]
      exact performs_replace split _
  · rename_i plain
    have kept : entry.instr.withCue cue = entry.instr := by
      unfold Instr.withCue
      split
      · exact absurd ‹_› (plain _ _)
      · rfl
    rw [kept, ← split]
    exact performs_pure _ _

theorem performs_setCuesFrom (cue : Bool)
    (split : routine.entries = front ++ back) :
    Performs (Link.setCues cue (back.head?.map (·.handle))) routine
      (.ok (), { routine with
        entries := front ++ back.map fun entry =>
          { entry with instr := entry.instr.withCue cue } }) := by
  induction back generalizing routine front with
  | nil =>
      rw [List.head?_nil, Option.map_none, Link.setCues, List.map_nil, ← split]
      exact performs_pure _ _
  | cons entry back ih =>
      rw [List.head?_cons, Option.map_some, Link.setCues]
      apply (performs_setCue cue split).bind
      have later := @ih
        { routine with
          entries := front ++ { entry with instr := entry.instr.withCue cue } ::
            back }
        (front ++ [{ entry with instr := entry.instr.withCue cue }]) (by simp)
      rw [List.append_assoc] at later
      exact (@performs_next { routine with
        entries := front ++ { entry with instr := entry.instr.withCue cue } ::
          back } _ _ { entry with instr := entry.instr.withCue cue } rfl).bind
        later

theorem performs_dropJitEntriesFrom (split : routine.entries = front ++ back) :
    Performs (Link.dropJitEntries (back.head?.map (·.handle))) routine
      (.ok (), { routine with
        entries := front ++ back.filter fun entry => !entry.instr.isJitEntry
        pool := routine.pool.retireAll ((back.filter fun entry =>
          !!entry.instr.isJitEntry).map (·.handle)) }) := by
  induction back generalizing routine front with
  | nil =>
      rw [List.head?_nil, Option.map_none, Link.dropJitEntries, List.filter_nil,
        List.filter_nil, ← split]
      exact performs_pure _ _
  | cons entry back ih =>
      rw [List.head?_cons, Option.map_some, Link.dropJitEntries]
      apply (performs_next split).bind
      apply (performs_instrAt split).bind
      cases entered : entry.instr.isJitEntry with
      | true =>
          have later := @ih { routine with
            entries := front ++ back
            pool := routine.pool.retire entry.handle } front rfl
          simp only [List.filter_cons, entered]
          exact (performs_erase split).discard.bind later
      | false =>
          rw [List.append_cons] at split
          have later := ih split
          simpa [entered] using later

theorem performs_dropJitEntries (routine : Routine) :
    Performs (do (← head).dropJitEntries) routine
      (.ok (), routine.dropJitEntries) :=
  (performs_head routine).bind
    (performs_dropJitEntriesFrom (List.nil_append _).symm)

end Passes

/-! ## Distances -/

section Distances

variable {routine : Routine} {front back : List Entry}

/-- The plan that is made with tables of handles is the plan by indices. -/
theorem performs_planJumps (accounted : routine.Accounted)
    (distinct : (labels routine.instrs).Nodup)
    (small : routine.codeSize < positionLimit)
    (split : routine.entries = front ++ back) :
    Performs (planJumps routine.labelHandles
        (positionsFrom 0 routine.entries) (rows back)) routine
      ((planFrom routine.instrs (position routine.instrs front.length)
        back).mapError .defect, routine) := by
  induction back generalizing front with
  | nil => exact performs_pure _ _
  | cons entry back ih =>
      have placed {index : Nat} {other : Entry}
          (found : routine.entries[index]? = some other) :
          (positionsFrom 0 routine.entries).lookup other.handle =
            some (position routine.instrs index) := by
        rw [lookup_positionsFrom accounted.nodup_handles found, Nat.zero_add]
        rfl
      have found : routine.entries[front.length]? = some entry := by
        rw [split]
        simp
      have here : routine.instrs[front.length]? = some entry.instr := by
        rw [Routine.instrs, List.getElem?_map, found, Option.map_some]
      have behind := position_succ here
      have onward := split
      rw [List.append_cons] at onward
      have later := ih onward
      rw [List.length_append, List.length_singleton, behind] at later
      rw [rows, List.map_cons, ← rows, planJumps, planFrom]
      cases named : entry.instr.jumpLabel? with
      | none => exact later
      | some label =>
          dsimp only
          rw [placeOf?_labelHandles distinct, distance]
          cases marked : labelIndex? routine.instrs label with
          | none => exact performs_throw _ _
          | some index =>
              obtain ⟨marker, there⟩ : ∃ marker,
                  routine.entries[index]? = some marker := by
                have label := (labelIndex?_eq_some_iff.mp marked).1
                rw [Routine.instrs, List.getElem?_map] at label
                obtain ⟨marker, there, -⟩ := Option.map_eq_some_iff.mp label
                exact ⟨marker, there⟩
              have fits : position routine.instrs front.length +
                  entry.instr.size < positionLimit := by
                rw [← behind]
                exact (position_le_codeSize _ _).trans_lt small
              rw [Option.bind_some, Routine.handles, List.getElem?_map, there,
                Option.map_some]
              dsimp only
              rw [placed found]
              apply (performs_pure _ _).bind
              apply (performs_advance fits _).bind
              rw [placed there]
              apply (performs_pure _ _).bind
              cases planned : planFrom routine.instrs
                  (position routine.instrs front.length + entry.instr.size)
                  back with
              | error defect =>
                  rw [planned] at later
                  exact later.bind_error
              | ok edits =>
                  rw [planned] at later
                  exact later.bind (performs_pure _ _)

theorem performs_editAll {edits : List Edit} {replies : List Reply}
    {left : Routine}
    (performed : routine.performAll edits = (replies.map .ok, left)) :
    Performs (editAll edits) routine (.ok (), left) := by
  induction edits generalizing routine replies with
  | nil =>
      obtain ⟨-, rfl⟩ := Prod.mk.inj performed
      exact performs_pure _ _
  | cons change edits ih =>
      have first := performs_edit change routine
      rw [Routine.performAll] at performed
      generalize routine.perform change = made at first performed
      obtain ⟨outcome, middle⟩ := made
      obtain ⟨outcomes, rfl⟩ := Prod.mk.inj performed
      cases replies with
      | nil => cases outcomes
      | cons reply replies =>
          obtain ⟨rfl, others⟩ := List.cons.inj outcomes
          exact first.discard.bind (ih (Prod.ext others rfl))

theorem performs_resolveJumps_of_error
    (small : routine.codeSize < positionLimit) {defect : Defect}
    (failed : routine.resolveJumps = .error defect) :
    Performs resolveJumps routine (.error (.defect defect), routine) := by
  refine performs_of_accounted fun accounted => ?_
  have planned := Routine.resolveStepwise_of_error failed
  rw [Routine.resolveStepwise] at planned
  apply (performs_listing routine).bind
  cases repeated : repeatedLabel? routine.instrs with
  | some label =>
      rw [repeated] at planned
      obtain rfl : _ = defect := Except.error.inj (Prod.mk.inj planned).1
      exact (performs_labelsOf_of_repeated repeated routine).bind_error
  | none =>
      have distinct := repeatedLabel?_eq_none_iff.mp repeated
      have planning := performs_planJumps accounted distinct small
        (List.nil_append _).symm
      rw [List.length_nil, position_zero] at planning
      rw [repeated] at planned
      apply (performs_labelsOf distinct routine).bind
      apply (performs_positionTable (by rwa [Nat.zero_add]) routine).bind
      cases plan : planFrom routine.instrs 0 routine.entries with
      | ok edits =>
          rw [plan] at planned
          cases (Prod.mk.inj planned).1
      | error other =>
          rw [plan] at planned planning
          obtain rfl := Except.error.inj (Prod.mk.inj planned).1
          exact planning.bind_error

/-- The jumps of a body get the distances of the jumps of the routine. -/
theorem performs_resolveJumps (small : routine.codeSize < positionLimit)
    {count : Nat} {left : Routine}
    (done : routine.resolveJumps = .ok (count, left)) :
    Performs resolveJumps routine (.ok count, left) := by
  refine performs_of_accounted fun accounted => ?_
  have distinct := (resolved_of_resolveJumps done).1.distinct
  obtain ⟨edits, planned, rfl, replies, performed⟩ :=
    Routine.exists_plan done accounted.nodup_handles
  have planning := performs_planJumps accounted distinct small
    (List.nil_append _).symm
  rw [List.length_nil, position_zero, planned] at planning
  apply (performs_listing routine).bind
  apply (performs_labelsOf distinct routine).bind
  apply (performs_positionTable (by rwa [Nat.zero_add]) routine).bind
  exact planning.bind ((performs_editAll performed).bind (performs_pure _ _))

end Distances

/-! ## Lines -/

section Lines

variable {routine : Routine} {front back : List Entry} {entry : Entry}
  {position : Nat}

/-- What is left of entries when their lines are collected. -/
def settled (entries : List Entry) : List Entry :=
  (entries.filter fun entry => !vanishes entry.instr).map fun entry =>
    { entry with instr := settleLine entry.instr }

/-- The handles that are given up then. -/
def unsettled (entries : List Entry) : List Handle :=
  (entries.filter fun entry => !!vanishes entry.instr).map (·.handle)

theorem stays_of_noLine {instr : Instr} (noLine : isLine instr = false) :
    vanishes instr = false ∧ settleLine instr = instr := by
  cases instr with
  | line => cases noLine
  | _ => exact ⟨rfl, rfl⟩

theorem settled_cons (entry : Entry) (entries : List Entry) :
    settled (entry :: entries) = settled [entry] ++ settled entries := by
  rw [settled, settled, settled, ← List.map_append, ← List.filter_append,
    List.singleton_append]

theorem unsettled_cons (entry : Entry) (entries : List Entry) :
    unsettled (entry :: entries) = unsettled [entry] ++ unsettled entries := by
  rw [unsettled, unsettled, unsettled, ← List.map_append, ← List.filter_append,
    List.singleton_append]

theorem performs_collectAt {longer : LineTable}
    (split : routine.entries = front ++ entry :: back)
    (fits : position + entry.instr.size < positionLimit)
    (recorded : recordLines routine.lines position [entry.instr] =
      .ok longer) :
    Performs (collectAt position entry.handle) routine
      (.ok (position + entry.instr.size, [entry.instr].countP isLine),
        { routine with
          entries := front ++ (settled [entry] ++ back)
          pool := routine.pool.retireAll (unsettled [entry])
          lines := longer }) := by
  apply (performs_instrAt split).bind
  split
  · rename_i pos cue same
    rw [same] at fits recorded ⊢
    obtain ⟨table, first, rest⟩ := bind_eq_ok_iff.mp recorded
    obtain rfl := Except.ok.inj rest
    apply (performs_recordLine first).bind
    cases cue with
    | true =>
        have left : settled [entry] = [{ entry with instr := .suspend }] := by
          simp [settled, same, vanishes, settleLine]
        have kept : unsettled [entry] = [] := by
          simp [unsettled, same, vanishes]
        rw [left, kept]
        exact (@performs_replace { routine with lines := table } _ _ _ split
          _).bind ((performs_advance fits _).bind (performs_pure _ _))
    | false =>
        have left : settled [entry] = [] := by
          simp [settled, same, vanishes]
        have given : unsettled [entry] = [entry.handle] := by
          simp [unsettled, same, vanishes]
        rw [left, given]
        exact (@performs_erase { routine with lines := table } _ _ _
          split).discard.bind (performs_pure _ _)
  · rename_i plain
    have noLine : isLine entry.instr = false := by
      rw [Bool.eq_false_iff]
      intro line
      obtain ⟨pos, cue, same⟩ := isLine_iff.mp line
      exact plain pos cue same
    obtain ⟨stays, same⟩ := stays_of_noLine noLine
    rw [recordLines_cons_of_noLine noLine] at recorded
    obtain rfl := Except.ok.inj recorded
    have left : settled [entry] = [entry] := by
      simp [settled, stays, same]
    have kept : unsettled [entry] = [] := by
      simp [unsettled, stays]
    rw [left, kept, List.singleton_append, ← split]
    apply (performs_advance fits _).bind
    rw [List.countP_singleton, noLine]
    exact performs_pure _ _

/-- Collecting the lines from a place on, where they can be recorded. -/
theorem performs_collectFrom {count : Nat} {lines : LineTable}
    (split : routine.entries = front ++ back)
    (small : position + Instr.codeSize (back.map (·.instr)) < positionLimit)
    (recorded : recordLines routine.lines position (back.map (·.instr)) =
      .ok lines) :
    Performs (Link.collectFrom position count (back.head?.map (·.handle))) routine
      (.ok (count + (back.map (·.instr)).countP isLine), { routine with
        entries := front ++ settled back
        pool := routine.pool.retireAll (unsettled back)
        lines }) := by
  induction back generalizing routine front position count with
  | nil =>
      obtain rfl := Except.ok.inj recorded
      rw [List.head?_nil, Option.map_none, Link.collectFrom]
      simp only [settled, unsettled, List.filter_nil, List.map_nil]
      rw [← split]
      exact performs_pure _ _
  | cons entry back ih =>
      rw [List.map_cons, Instr.codeSize_cons] at small
      rw [List.map_cons, ← List.singleton_append, recordLines_append]
        at recorded
      obtain ⟨longer, first, rest⟩ := bind_eq_ok_iff.mp recorded
      rw [List.head?_cons, Option.map_some, Link.collectFrom, List.map_cons]
      apply (performs_next split).bind
      apply (performs_collectAt split (by omega) first).bind
      have later := @ih
        { routine with
          entries := front ++ (settled [entry] ++ back)
          pool := routine.pool.retireAll (unsettled [entry])
          lines := longer }
        (front ++ settled [entry]) (position + entry.instr.size)
        (count + [entry.instr].countP isLine) (by simp) (by omega) rest
      have pool : routine.pool.retireAll (unsettled (entry :: back)) =
          (routine.pool.retireAll (unsettled [entry])).retireAll
            (unsettled back) := by
        rw [unsettled_cons, HandlePool.retireAll, List.foldl_append]
        rfl
      have counted : (entry.instr :: back.map (·.instr)).countP isLine =
          [entry.instr].countP isLine +
            (back.map (·.instr)).countP isLine := by
        rw [← List.singleton_append, List.countP_append]
      rw [pool, counted, ← Nat.add_assoc, settled_cons entry back,
        ← List.append_assoc front (settled [entry]) (settled back)]
      exact later

theorem performs_collectLines (small : routine.codeSize < positionLimit)
    {count : Nat} {left : Routine}
    (done : routine.collectLines = .ok (count, left)) :
    Performs collectLines routine (.ok count, left) := by
  obtain ⟨lines, recorded, rest⟩ := bind_eq_ok_iff.mp done
  obtain ⟨rfl, rfl⟩ := Prod.mk.inj (Except.ok.inj rest)
  apply (performs_setLines {} routine).bind
  apply (performs_head _).bind
  have collected := @performs_collectFrom { routine with lines := {} } []
    routine.entries 0 0 lines rfl (by rwa [Nat.zero_add]) recorded
  rw [Nat.zero_add] at collected
  exact collected

theorem performs_encode (small : routine.codeSize < positionLimit) :
    Performs encode routine
      ((Instr.encode routine.instrs).mapError .defect, routine) := by
  have code : (rows routine.entries).map (·.2) = routine.instrs := by
    simp [rows, Routine.instrs, Function.comp_def]
  apply (performs_listing routine).bind
  rw [code]
  apply (performs_advance (by rwa [Nat.zero_add]) routine).discard.bind
  exact performs_ofExcept _ routine

end Lines

end Program

end StackAssembler
