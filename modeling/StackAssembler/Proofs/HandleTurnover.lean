import StackAssembler.Proofs.AssemblyGate
import StackAssembler.Proofs.DepthSurvey
import StackAssembler.Proofs.HandleAccounting

/-!
# Which handles come and go

An operation on a routine either puts instructions in, each under the handle
that the pool issues next, or takes instructions out and retires their handles
in the pool.  No operation does both, and none exchanges one handle for
another.  This holds for the edits and for the steps of an assembly, whether
they succeed or not.
-/

namespace StackAssembler

open Layout StackDepth Window

namespace Routine

/-- Instructions are taken out of a routine.  Their handles are retired in turn,
and all other handles stay. -/
structure Sheds (routine : Routine) (removed : List Handle) (left : Routine) :
    Prop where
  handles_perm : (removed ++ left.handles).Perm routine.handles
  pool_eq : left.pool = routine.pool.retireAll removed

/-- Instructions are put into a routine one by one, under the handles that its
pool issues. -/
inductive Gains : Routine → List Handle → Routine → Prop
  | none {routine left : Routine} (handles_eq : left.handles = routine.handles)
      (pool_eq : left.pool = routine.pool) : Gains routine [] left
  | insert {routine middle left : Routine} {handle : Handle}
      {handles : List Handle}
      (issued : routine.pool.issue = (handle, middle.pool))
      (placed : middle.handles.Perm (handle :: routine.handles))
      (onward : Gains middle handles left) :
      Gains routine (handle :: handles) left

section Sheds

variable {routine middle left : Routine}

theorem Sheds.none (handles_eq : left.handles = routine.handles)
    (pool_eq : left.pool = routine.pool) : Sheds routine [] left :=
  ⟨handles_eq ▸ List.Perm.refl _, pool_eq⟩

theorem Sheds.trans {first second : List Handle}
    (early : Sheds routine first middle) (late : Sheds middle second left) :
    Sheds routine (first ++ second) left where
  handles_perm := by
    rw [List.append_assoc]
    exact (late.handles_perm.append_left first).trans early.handles_perm
  pool_eq := by
    rw [late.pool_eq, early.pool_eq]
    simp [HandlePool.retireAll]

theorem Sheds.one {handle : Handle}
    (placed : (handle :: left.handles).Perm routine.handles)
    (pool_eq : left.pool = routine.pool.retire handle) :
    Sheds routine [handle] left :=
  ⟨placed, pool_eq⟩

theorem sheds_retain (routine : Routine) (keep : Entry → Bool) :
    Sheds routine
      ((routine.entries.filter fun entry => !keep entry).map (·.handle))
      (routine.retain keep) where
  handles_perm := by
    rw [handles, handles, retain, ← List.map_append]
    exact (List.perm_append_comm.trans
      (List.filter_append_perm keep routine.entries)).map _
  pool_eq := rfl

theorem sheds_mapInstrs (routine : Routine) (change : Instr → Instr) :
    Sheds routine [] (routine.mapInstrs change) :=
  .none (by simp [handles, mapInstrs, Function.comp_def]) rfl

end Sheds

section Gains

variable {routine middle left : Routine}

theorem Gains.one {handle : Handle}
    (issued : routine.pool.issue = (handle, left.pool))
    (placed : left.handles.Perm (handle :: routine.handles)) :
    Gains routine [handle] left :=
  .insert issued placed (.none rfl rfl)

/-- Only the handles and the pool of what is left matter. -/
theorem Gains.congr {handles : List Handle} {other : Routine}
    (gains : Gains routine handles left)
    (handles_eq : other.handles = left.handles)
    (pool_eq : other.pool = left.pool) : Gains routine handles other := by
  induction gains with
  | none sameHandles samePool =>
      exact .none (handles_eq.trans sameHandles) (pool_eq.trans samePool)
  | insert issued placed _ ih =>
      exact .insert issued placed (ih handles_eq pool_eq)

theorem gains_push (routine : Routine) (instr : Instr) :
    Gains routine [(routine.push instr).1] (routine.push instr).2 ∧
      (routine.push instr).2.handles =
        routine.handles ++ [(routine.push instr).1] := by
  have placed : (routine.push instr).2.handles =
      routine.handles ++ [(routine.push instr).1] := by
    simp [push, handles]
  refine ⟨.one rfl ?_, placed⟩
  rw [placed]
  exact List.perm_append_singleton _ _

theorem gains_pushAll (routine : Routine) (code : List Instr) :
    ∃ inserted, Gains routine inserted (routine.pushAll code) ∧
      (routine.pushAll code).handles = routine.handles ++ inserted := by
  induction code generalizing routine with
  | nil => exact ⟨[], by simpa using .none rfl rfl, by simp⟩
  | cons instr code ih =>
      obtain ⟨-, placed⟩ := gains_push routine instr
      obtain ⟨inserted, gains, others⟩ := ih (routine.push instr).2
      rw [pushAll_cons]
      refine ⟨(routine.push instr).1 :: inserted,
        .insert rfl (placed ▸ List.perm_append_singleton _ _) gains, ?_⟩
      rw [others, placed, List.append_assoc, List.singleton_append]

end Gains

/-! ## The steps of an assembly -/

theorem handles_explore (add : Adder) (code : List Instr) (walk : Walk) :
    (explore add code walk).1.entries.map (·.handle) =
      walk.entries.map (·.handle) := by
  obtain ⟨last, run, halts⟩ := explore_run add code walk
  have visited : last.entries.map (·.handle) =
      walk.entries.map (·.handle) := by
    clear halts
    induction run with
    | refl => rfl
    | tail _ visit ih => exact visit.handles_eq.trans ih
  rw [← visited]
  generalize explore add code walk = result at halts
  cases halts with
  | done | conflict => rfl
  | refused _ found => exact map_set_eq found rfl

theorem sheds_measureDepths (routine : Routine) :
    ∃ removed, Sheds routine removed routine.measureDepths.2 := by
  rw [measureDepths]
  cases repeated : Flow.repeatedLabel? routine.instrs with
  | some label =>
      rw [measureDepthsBy_of_repeatedLabel? repeated]
      exact ⟨[], .none (by simp [handles, clearDepths, Function.comp_def]) rfl⟩
  | none =>
      have distinct := Flow.repeatedLabel?_eq_none_iff.mp repeated
      have visited := handles_explore .words routine.instrs (start routine)
      rcases ended : explore .words routine.instrs (start routine) with
        ⟨final, failure?⟩
      have same : final.entries.map (·.handle) = routine.handles := by
        rw [ended] at visited
        simpa [start, clearDepths, handles, Function.comp_def] using visited
      have measured :
          Sheds routine [] { routine with entries := final.entries } :=
        .none same rfl
      cases failure? with
      | some failure =>
          rw [measureDepthsBy_of_failure distinct ended]
          exact ⟨[], measured⟩
      | none =>
          rw [measureDepthsBy_of_finished distinct ended]
          have kept := measured.trans (sheds_retain _ (·.depth.isSome))
          exact ⟨_, kept.handles_perm, kept.pool_eq⟩

end Routine

/-- The handles of a patched window are those it keeps and those it gives
up. -/
theorem Patch.handles_fill (patch : Patch) (entries : List Entry) :
    (patch.vacated entries ++ (patch.fill entries).map (·.handle)).Perm
      (entries.map (·.handle)) := by
  fun_induction Patch.fill patch entries with
  | case1 entries => cases entries <;> exact List.Perm.refl _
  | case2 place patch => cases place <;> exact List.Perm.refl _
  | case3 instr patch entry entries ih =>
      rw [Patch.vacated, List.map_cons, List.map_cons]
      exact List.perm_middle.trans (ih.cons _)
  | case4 patch entry entries ih =>
      rw [Patch.vacated, List.append_assoc, List.singleton_append,
        List.map_cons]
      exact List.perm_middle.trans (ih.cons _)

namespace Window

theorem handles_applyPatch (cursor : Cursor) (patch : Patch) :
    ((applyPatch cursor patch).vacated ++
      (applyPatch cursor patch).cursor.entries.map (·.handle)).Perm
        (cursor.entries.map (·.handle)) := by
  rw [applyPatch, Cursor.entries_back]
  simp only [Cursor.entries, List.map_append]
  refine List.Perm.trans ?_
    ((Patch.handles_fill patch cursor.after).append_left _)
  rw [← List.append_assoc, ← List.append_assoc]
  exact List.perm_append_comm.append_right _

theorem handles_postponed? {temporaries : SlotSet} {cursor moved : Cursor}
    (postponed : postponed? temporaries cursor = some moved) :
    (moved.entries.map (·.handle)).Perm (cursor.entries.map (·.handle)) := by
  cases postpones_of_postponed? postponed with
  | @move before skipped rest entry next reader =>
      apply List.Perm.map
      simp only [Cursor.entries, List.reverse_append, List.reverse_reverse,
        List.append_assoc]
      exact (@List.perm_middle _ entry (next :: skipped) _).append_left _

theorem handles_exchangePushes {cursor : Cursor} {change : Change}
    (changed : exchangePushes cursor = some change) :
    (change.vacated ++ change.cursor.entries.map (·.handle)).Perm
      (cursor.entries.map (·.handle)) := by
  obtain ⟨before, after⟩ := cursor
  unfold exchangePushes at changed
  repeat' split at changed
  all_goals try contradiction
  rename_i first second third rest window _
  obtain rfl : after = first :: second :: third :: rest := window
  obtain rfl := Option.some.inj changed
  rw [Cursor.entries_back, ← List.map_singleton, ← List.map_append]
  apply List.Perm.map
  simp only [Cursor.entries, List.singleton_append]
  have reversed := (List.reverse_perm [first, second, third]).append_right rest
  exact List.perm_middle.symm.trans (reversed.append_left _)

theorem handles_changeAt {temporaries : SlotSet} {keepJitEntries : Bool}
    {cursor : Cursor} {change : Change}
    (changed : changeAt temporaries keepJitEntries cursor = some change) :
    (change.vacated ++ change.cursor.entries.map (·.handle)).Perm
      (cursor.entries.map (·.handle)) := by
  have dropped {place : Cursor}
      (found : dropValue temporaries keepJitEntries place = some change) :
      (change.vacated ++ change.cursor.entries.map (·.handle)).Perm
        (place.entries.map (·.handle)) := by
    obtain ⟨patch, -, rfl⟩ := Option.map_eq_some_iff.mp found
    exact handles_applyPatch place patch
  unfold changeAt at changed
  simp only [Option.or_eq_some_iff] at changed
  rcases changed with found | ⟨-, postponed | ⟨-, exchanged |
    ⟨-, checked | ⟨-, simplified⟩⟩⟩⟩
  · exact dropped found
  · obtain ⟨moved, there, found⟩ := Option.bind_eq_some_iff.mp postponed
    exact (dropped found).trans (handles_postponed? there)
  · exact handles_exchangePushes exchanged
  · obtain ⟨patch, -, rfl⟩ := Option.map_eq_some_iff.mp checked
    exact handles_applyPatch cursor patch
  · obtain ⟨patch, -, rfl⟩ := Option.map_eq_some_iff.mp simplified
    exact handles_applyPatch cursor patch

theorem handles_scan (temporaries : SlotSet) (keepJitEntries : Bool)
    (state : Scan) :
    ((scan temporaries keepJitEntries state).vacated ++
      (scan temporaries keepJitEntries state).cursor.entries.map
        (·.handle)).Perm
      (state.vacated ++ state.cursor.entries.map (·.handle)) := by
  fun_induction scan temporaries keepJitEntries state with
  | case1 state window again ih => exact ih
  | case2 state window done => exact List.Perm.refl _
  | case3 state entry rest window change made ih =>
      refine ih.trans ?_
      have vacated : (change.vacated.reverse ++ state.vacated).Perm
          (state.vacated ++ change.vacated) :=
        List.perm_append_comm.trans
          ((List.reverse_perm change.vacated).append_left _)
      refine (vacated.append_right _).trans ?_
      rw [List.append_assoc]
      exact (handles_changeAt made).append_left _
  | case4 state entry rest window unmatched ih =>
      refine ih.trans ?_
      simp [Cursor.entries, window]

end Window

namespace Routine

theorem sheds_tighten {routine left : Routine} {keepJitEntries : Bool}
    {count : Nat}
    (tightened : routine.tighten keepJitEntries = .ok (count, left)) :
    ∃ removed, Sheds routine removed left := by
  unfold tighten at tightened
  split at tightened
  · cases tightened
  · obtain ⟨-, rfl⟩ := Prod.mk.inj (Except.ok.inj tightened)
    refine ⟨_, ?_, rfl⟩
    have scanned := handles_scan routine.temporaries keepJitEntries
      { cursor := ⟨[], routine.entries⟩ }
    exact ((List.reverse_perm _).append_right _).trans scanned

theorem sheds_reduce {routine left : Routine} {options : Options}
    (reduced : routine.reduce options = .ok left) :
    ∃ removed, Sheds routine removed left := by
  have dropped (tightened : Routine) : ∃ removed, Sheds tightened removed
      (if options.jitEntries then tightened else tightened.dropJitEntries) := by
    split
    · exact ⟨[], .none rfl rfl⟩
    · exact ⟨_, sheds_retain tightened _⟩
  unfold reduce at reduced
  cases wanted : options.optimize with
  | false =>
      rw [wanted] at reduced
      obtain rfl := Except.ok.inj reduced
      exact dropped routine
  | true =>
      rw [wanted, if_pos rfl] at reduced
      cases outcome : routine.tighten options.jitEntries with
      | error defect =>
          rw [outcome] at reduced
          cases reduced
      | ok result =>
          rw [outcome] at reduced
          obtain rfl := Except.ok.inj reduced
          obtain ⟨first, early⟩ := sheds_tighten outcome
          obtain ⟨second, late⟩ := dropped result.2
          exact ⟨_, early.trans late⟩

theorem sheds_resolveJumps {routine left : Routine} {count : Nat}
    (resolved : routine.resolveJumps = .ok (count, left)) :
    Sheds routine [] left := by
  obtain ⟨code, done, rest⟩ := bind_eq_ok_iff.mp resolved
  obtain ⟨-, rfl⟩ := Prod.mk.inj (Except.ok.inj rest)
  have length : code.length = routine.entries.length := by
    unfold resolve at done
    split at done
    · cases done
    · rw [(resolveFrom_eq_ok_iff.mp done).length_eq, instrs, List.length_map]
  have kept : (routine.entries.zip code).map (·.1) = routine.entries :=
    List.map_fst_zip (by omega)
  refine .none ?_ rfl
  rw [handles, handles, ← kept, withInstrs]
  simp [List.zip, List.map_zipWith]

theorem sheds_collectLines {routine left : Routine} {count : Nat}
    (collected : routine.collectLines = .ok (count, left)) :
    ∃ removed, Sheds routine removed left := by
  obtain ⟨lines, -, rest⟩ := bind_eq_ok_iff.mp collected
  obtain ⟨-, rfl⟩ := Prod.mk.inj (Except.ok.inj rest)
  have kept := (sheds_retain routine fun entry => !vanishes entry.instr).trans
    (sheds_mapInstrs _ settleLine)
  exact ⟨_, kept.handles_perm, kept.pool_eq⟩

theorem sheds_finish (routine : Routine) (analysis : Analysis) :
    ∃ removed, Sheds routine removed (routine.finish analysis).2 := by
  unfold finish
  split
  · exact ⟨[], .none rfl rfl⟩
  · rename_i count resolved resolvedDone
    have early := sheds_resolveJumps resolvedDone
    split
    · exact ⟨[], early⟩
    · rename_i lineCount collected collectedDone
      obtain ⟨removed, late⟩ := sheds_collectLines collectedDone
      have both := early.trans late
      split
      · exact ⟨_, both⟩
      · exact ⟨_, both⟩

/-- An assembly takes instructions out and puts none in, however it ends. -/
theorem sheds_assemble (routine : Routine) (options : Options) :
    ∃ removed, Sheds routine removed (routine.assemble options).2 := by
  have cued : Sheds routine [] (routine.setCues options.lineCues) :=
    sheds_mapInstrs routine _
  obtain ⟨first, measures⟩ := sheds_measureDepths
    (routine.setCues options.lineCues)
  have early := cued.trans measures
  unfold assemble
  split
  · rename_i defect measured outcome
    rw [outcome] at early
    exact ⟨_, early⟩
  · rename_i analysis measured outcome
    rw [outcome] at early
    split
    · exact ⟨_, early⟩
    · rename_i reduced done
      obtain ⟨second, middle⟩ := sheds_reduce done
      obtain ⟨third, late⟩ := sheds_finish reduced analysis
      exact ⟨_, (early.trans middle).trans late⟩

end Routine

/-! ## All operations on a routine -/

/-- The operations that change a routine. -/
inductive Action where
  | edit (edit : Edit)
  | emitCall (kind : CallKind) (func : UInt32) (count : UInt16)
  | emitLine (pos : SourcePos)
  | markTemporary (slot : Slot)
  /-- Another routine is moved to the end of this one. -/
  | absorb (other : Routine)
  | measureDepths
  | tighten (keepJitEntries : Bool)
  | resolveJumps
  | collectLines
  | assemble (options : Options)

namespace Routine

/-- The handles that were put behind those of a routine. -/
def appended (routine left : Routine) : List Handle :=
  left.handles.drop routine.handles.length

/-- Perform an action.  The result are the handles of the instructions that were
put in, and the routine that is left.  An action that fails leaves the routine
as the action itself says, and an edit leaves it as it was. -/
def act (routine : Routine) : Action → List Handle × Routine
  | .edit edit =>
      match routine.perform edit with
      | (.ok (.inserted handle), left) => ([handle], left)
      | (_, left) => ([], left)
  | .emitCall kind func count =>
      let left := (routine.emitCall kind func count).2
      (routine.appended left, left)
  | .emitLine pos =>
      let left := (routine.emitLine pos).2
      (routine.appended left, left)
  | .markTemporary slot => ([], routine.markTemporary slot)
  | .absorb other =>
      let left := (routine.absorb other).2.1
      (routine.appended left, left)
  | .measureDepths => ([], routine.measureDepths.2)
  | .tighten keepJitEntries =>
      match routine.tighten keepJitEntries with
      | .ok (_, left) => ([], left)
      | .error _ => ([], routine)
  | .resolveJumps =>
      match routine.resolveJumps with
      | .ok (_, left) => ([], left)
      | .error _ => ([], routine)
  | .collectLines =>
      match routine.collectLines with
      | .ok (_, left) => ([], left)
      | .error _ => ([], routine)
  | .assemble options => ([], (routine.assemble options).2)

theorem appended_eq {routine left : Routine} {inserted : List Handle}
    (placed : left.handles = routine.handles ++ inserted) :
    routine.appended left = inserted := by
  rw [appended, placed, List.drop_left]

/-- What an action does to the handles of a routine and to its pool: it puts
instructions in, or it takes instructions out. -/
inductive Turnover (routine : Routine) : List Handle × Routine → Prop
  | gains {inserted : List Handle} {left : Routine}
      (gains : Gains routine inserted left) :
      Turnover routine (inserted, left)
  | sheds {removed : List Handle} {left : Routine}
      (sheds : Sheds routine removed left) : Turnover routine ([], left)

theorem Turnover.same (routine : Routine) : Turnover routine ([], routine) :=
  .gains (.none rfl rfl)

theorem turnover_appended {routine left : Routine} {code : List Instr}
    (handles_eq : left.handles = (routine.pushAll code).handles)
    (pool_eq : left.pool = (routine.pushAll code).pool) :
    Turnover routine (routine.appended left, left) := by
  obtain ⟨inserted, gains, placed⟩ := gains_pushAll routine code
  rw [appended_eq (handles_eq.trans placed)]
  exact .gains (gains.congr handles_eq pool_eq)

theorem turnover_edit (routine : Routine) (edit : Edit) :
    Turnover routine (routine.act (.edit edit)) := by
  cases stale : edit.names.find? (· ∉ routine.handles) with
  | some name =>
      rw [act, perform, edit_of_stale stale]
      exact .same routine
  | none =>
      have known : ∀ name ∈ edit.names, name ∈ routine.handles := by
        simpa using stale
      cases edit with
      | push instr =>
          exact .gains (gains_push routine instr).1
      | pushFront instr =>
          exact .gains (.one rfl (List.Perm.refl _))
      | insertBefore place instr =>
          rcases issued : routine.pool.issue with ⟨handle, pool⟩
          obtain ⟨front, entry, back, whole, rfl, located⟩ :=
            exists_locate (known place (by simp [Edit.names]))
          rw [act, perform, edit_insertBefore located issued]
          refine .gains (.one issued ?_)
          rw [handles, handles, whole]
          exact List.perm_middle.map _
      | moveBefore handle place =>
          by_cases same : handle = place
          · subst same
            rw [act, perform, edit_moveBefore_self]
            exact .same routine
          · rw [Edit.names, if_neg same] at known
            obtain ⟨before, entry, after, whole, rfl, located⟩ :=
              exists_locate (known handle (by simp))
            obtain ⟨front, target, back, rest, rfl, split⟩ :=
              exists_split_rest whole same (known place (by simp))
            rw [act, perform, edit_moveBefore same located split]
            refine @Turnover.sheds _ [] _ ⟨?_, rfl⟩
            rw [handles, handles, whole]
            exact (perm_of_move rest).map _
      | erase handle =>
          obtain ⟨front, entry, back, whole, rfl, located⟩ :=
            exists_locate (known handle (by simp [Edit.names]))
          rw [act, perform, edit_erase located]
          refine .sheds (.one ?_ rfl)
          rw [handles, handles, whole]
          exact (List.perm_middle.map _).symm
      | popLast =>
          rcases List.eq_nil_or_concat' routine.entries with
            empty | ⟨front, entry, whole⟩
          · rw [act, perform, edit_popLast_of_nil empty]
            exact .same routine
          · rw [act, perform, edit_popLast whole]
            refine .sheds (.one ?_ rfl)
            rw [handles, handles, whole, List.map_append]
            exact (List.perm_append_singleton _ _).symm
      | replace handle instr =>
          obtain ⟨front, entry, back, whole, rfl, located⟩ :=
            exists_locate (known handle (by simp [Edit.names]))
          rw [act, perform, edit_replace located]
          exact .gains (.none (by simp [handles, whole]) rfl)
      | exchangeSlot old new => exact .sheds (sheds_mapInstrs routine _)

theorem turnover_act (routine : Routine) (action : Action) :
    Turnover routine (routine.act action) := by
  cases action with
  | edit edit => exact turnover_edit routine edit
  | emitCall kind func count =>
      exact @turnover_appended routine _ [.call kind func count, .jitEntry 0]
        (by simp [emitCall]) (by simp [emitCall])
  | emitLine pos =>
      exact @turnover_appended routine _ [.line pos true, .jitEntry 0]
        (by simp [emitLine]) (by simp [emitLine])
  | markTemporary slot => exact .gains (.none rfl rfl)
  | absorb other =>
      simp only [act, absorb]
      split
      · exact @turnover_appended routine _ [] (by simp) (by simp)
      · split
        · exact @turnover_appended routine _ [] (by simp [handles]) (by simp)
        · exact @turnover_appended routine _ other.instrs rfl rfl
  | measureDepths =>
      obtain ⟨removed, sheds⟩ := sheds_measureDepths routine
      exact .sheds sheds
  | tighten keepJitEntries =>
      cases outcome : routine.tighten keepJitEntries with
      | error defect =>
          rw [act, outcome]
          exact .same routine
      | ok result =>
          rw [act, outcome]
          obtain ⟨removed, sheds⟩ := sheds_tighten outcome
          exact .sheds sheds
  | resolveJumps =>
      cases outcome : routine.resolveJumps with
      | error defect =>
          rw [act, outcome]
          exact .same routine
      | ok result =>
          rw [act, outcome]
          exact .sheds (sheds_resolveJumps outcome)
  | collectLines =>
      cases outcome : routine.collectLines with
      | error fault =>
          rw [act, outcome]
          exact .same routine
      | ok result =>
          rw [act, outcome]
          obtain ⟨removed, sheds⟩ := sheds_collectLines outcome
          exact .sheds sheds
  | assemble options =>
      obtain ⟨removed, sheds⟩ := sheds_assemble routine options
      exact .sheds sheds

end Routine

end StackAssembler
