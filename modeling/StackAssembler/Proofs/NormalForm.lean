import StackAssembler.Proofs.ControlSkeleton
import StackAssembler.Proofs.HandleTurnover
import StackAssembler.Proofs.ParallelRuns
import StackAssembler.Proofs.ReadPaths

/-!
# Tightened code is in normal form

The scan ends with a pass that changes nothing.  As far as such a pass has come,
no rule matches at a place that it has left behind, since the code is still the
one that the pass began with; at its end no rule matches anywhere.  Then a
second scan finds nothing to change either.

That nothing matches is first said about the steps of the scan, then about the
catalog of rules, and from the catalog about the code itself: what it no longer
contains.  Constants that are moved on trial are moved back to where they were.
-/

namespace StackAssembler

namespace Window

section Proposals

variable {scope : Scope} {first second : Instr} {code rest : List Instr}
  {patch : Patch}

theorem isSome_unusedValue_of_dead {slot : Slot}
    (writes : first.access.write? = some slot)
    (dead : scope.dead slot rest = true) :
    (unusedValue scope (first :: rest)).isSome := by
  simp [unusedValue, writes, dead]

theorem isSome_unusedValue_of_forward
    (handed : (forward (scope.dead · rest) first second).isSome) :
    (unusedValue scope (first :: second :: rest)).isSome := by
  rw [unusedValue]
  split
  · rfl
  · exact handed

theorem isSome_simplify_of_fuse
    (fused : (fuse (Liveness.registerUsed rest) first second).isSome) :
    (simplify scope (first :: second :: rest)).isSome := by
  rw [simplify]
  split
  · rfl
  · exact fused

/-- Where a rule of the catalog matches, some rule makes a proposal. -/
theorem Rule.proposes (rule : Rule scope code patch) :
    (unusedValue scope code).isSome ∨ (checks code).isSome ∨
      (simplify scope code).isSome := by
  cases rule with
  | unusedWrite writes dead =>
      exact .inl (isSome_unusedValue_of_dead writes dead)
  | unusedGlobalRead dead =>
      exact .inl (isSome_unusedValue_of_dead rfl dead)
  | compareConst form other dead =>
      exact .inl (isSome_unusedValue_of_forward
        (by simp [forward, form, other, dead]))
  | arithConst form other dead =>
      exact .inl (isSome_unusedValue_of_forward
        (by simp [forward, form, other, dead]))
  | arithConstLeft form other commutes dead =>
      exact .inl (isSome_unusedValue_of_forward
        (by simp [forward, form, other, commutes, dead]))
  | arithCopy dead | arithImmCopy dead | constCopy dead | registerBack dead
  | globalPush dead | constPush dead | constStore dead =>
      exact .inl (isSome_unusedValue_of_forward (by simp [forward, dead]))
  | suspendBefore | lineBefore | checkRead => exact .inr (.inl rfl)
  | checkFrame enough | checkVar enough =>
      exact .inr (.inl (by simp [checks, enough]))
  | jitEntry dropped =>
      exact .inr (.inr (by simp [simplify, idle, dropped]))
  | popNone | pushNone => exact .inr (.inr rfl)
  | discardUnit pushes enough =>
      refine .inr (.inr (isSome_simplify_of_fuse ?_))
      cases pushes <;> simp [fuse, discard, enough]
  | discardConst8 enough | discardRead enough | discardRead8 enough =>
      exact .inr (.inr (isSome_simplify_of_fuse
        (by simp [fuse, discard, enough])))
  | globalWrite unused | globalRead unused | increment unused
  | decrement unused | branchUnless unused | branchIf unused =>
      exact .inr (.inr (isSome_simplify_of_fuse
        (by simp [fuse, throughRegister, unused])))
  | globalReadUsed used =>
      exact .inr (.inr (isSome_simplify_of_fuse
        (by simp [fuse, throughRegister, used])))
  | pushTwice fits =>
      exact .inr (.inr (isSome_simplify_of_fuse
        (by simp [fuse, throughRegister, merge, fits])))
  | constRef inFrame =>
      exact .inr (.inr (isSome_simplify_of_fuse
        (by simp [fuse, throughRegister, merge, inFrame])))
  | frameRead | popReturn | suspendTwice | lineTwice | jumpNext =>
      exact .inr (.inr (isSome_simplify_of_fuse
        (by simp [fuse, throughRegister, merge])))

end Proposals

section Scans

variable {temporaries : SlotSet} {keepJitEntries : Bool} {cursor : Cursor}

/-- Where a rule of the catalog matches, the scan makes a change. -/
theorem changeAt_ne_none_of_rule {patch : Patch}
    (rule : Rule (scopeOf temporaries keepJitEntries cursor.code)
      cursor.window patch) :
    changeAt temporaries keepJitEntries cursor ≠ none := by
  intro unmatched
  simp only [changeAt, Option.or_eq_none_iff, dropValue, simplifyChecks,
    simplifyPair, Option.map_eq_none_iff] at unmatched
  obtain ⟨noValue, -, -, noCheck, noPair⟩ := unmatched
  rcases rule.proposes with value | check | pair
  · simp [noValue] at value
  · simp [noCheck] at check
  · simp [noPair] at pair

theorem changeAt_of_nil (finished : cursor.after = []) :
    changeAt temporaries keepJitEntries cursor = none := by
  obtain ⟨before, after⟩ := cursor
  obtain rfl : after = [] := finished
  rfl

/-- No rule matches anywhere in the entries. -/
def Unchanged (temporaries : SlotSet) (keepJitEntries : Bool)
    (entries : List Entry) : Prop :=
  ∀ cursor : Cursor, cursor.entries = entries →
    changeAt temporaries keepJitEntries cursor = none

/-- If a pass has made no change so far, no rule matches at a place that it has
left behind. -/
def Passed (temporaries : SlotSet) (keepJitEntries : Bool) (state : Scan) :
    Prop :=
  state.changed = false →
    ∀ cursor : Cursor, cursor.entries = state.cursor.entries →
      cursor.before.length < state.cursor.before.length →
        changeAt temporaries keepJitEntries cursor = none

theorem passed_of_start {state : Scan} (start : state.cursor.before = []) :
    Passed temporaries keepJitEntries state := by
  intro _ cursor _ earlier
  rw [start] at earlier
  exact absurd earlier (Nat.not_lt_zero _)

/-- A cursor is known by its entries and by how many of them stand before
it. -/
theorem Cursor.eq_of_entries {first second : Cursor}
    (entries : first.entries = second.entries)
    (place : first.before.length = second.before.length) : first = second := by
  obtain ⟨before, after⟩ := first
  obtain ⟨before', after'⟩ := second
  have parts := List.append_inj entries (by simpa using place)
  obtain rfl := List.reverse_injective parts.1
  obtain rfl := parts.2
  rfl

theorem unchanged_scan {state : Scan}
    (passed : Passed temporaries keepJitEntries state) :
    Unchanged temporaries keepJitEntries
      (scan temporaries keepJitEntries state).cursor.entries := by
  fun_induction scan temporaries keepJitEntries state with
  | case1 state window again ih => exact ih (passed_of_start rfl)
  | case2 state window again =>
      intro cursor same
      -- The pass has left all entries behind, so that a cursor which was not
      -- passed has no entry in front of it.
      have quiet := passed (by simpa using again) cursor same
      have total := congrArg List.length same
      simp only [Cursor.entries, List.length_append, List.length_reverse,
        window, List.length_nil] at total
      by_cases before : cursor.before.length < state.cursor.before.length
      · exact quiet before
      · exact changeAt_of_nil (List.eq_nil_of_length_eq_zero (by omega))
  | case3 state entry rest window change made ih =>
      apply ih
      intro unchanged
      cases unchanged
  | case4 state entry rest window unmatched ih =>
      have same : Cursor.entries ⟨entry :: state.cursor.before, rest⟩ =
          state.cursor.entries := by
        simp [Cursor.entries, window]
      apply ih
      intro unchanged cursor entries before
      rw [same] at entries
      rcases Nat.lt_succ_iff_lt_or_eq.mp before with earlier | here
      · exact passed unchanged cursor entries earlier
      · rw [Cursor.eq_of_entries entries here]
        exact unmatched

/-- Where no rule matches anywhere, a pass goes to the end and leaves all as it
is. -/
theorem scan_of_unchanged {before after : List Entry} {changes : Nat}
    {vacated : List Handle}
    (unchanged : Unchanged temporaries keepJitEntries
      (before.reverse ++ after)) :
    scan temporaries keepJitEntries
        ⟨⟨before, after⟩, false, changes, vacated⟩ =
      ⟨⟨after.reverse ++ before, []⟩, false, changes, vacated⟩ := by
  induction after generalizing before with
  | nil => exact scan_done
  | cons entry rest ih =>
      rw [scan_of_none (unchanged _ rfl), ih (by simpa using unchanged)]
      simp

end Scans

end Window

namespace Routine

open Flow Liveness Window

/-- The move of a constant from one cursor to another is made, and taken back by
a move before the instruction that had followed it. -/
def MovesBack (routine : Routine) (cursor moved : Cursor) : Prop :=
  ∃ entry next rest reader trial,
    cursor.after = entry :: next :: rest ∧ reader ∈ rest ∧
      routine.moveBefore entry.handle reader.handle = .ok trial ∧
      trial.entries = moved.entries ∧
      trial.moveBefore entry.handle next.handle = .ok routine

/-- A routine in normal form: nothing in it can be tightened. -/
structure Tight (routine : Routine) (keepJitEntries : Bool) : Prop where
  /-- The scan makes no change at any place. -/
  unchanged : Unchanged routine.temporaries keepJitEntries routine.entries
  /-- No rule of the catalog matches at any place. -/
  noRule : ∀ front window patch, routine.entries = front ++ window →
    ¬ Rule (scopeOf routine.temporaries keepJitEntries routine.instrs)
      (window.map (·.instr)) patch
  /-- A constant that is moved on trial is of no use there either, and is moved
  back. -/
  noPostponed : ∀ cursor moved, cursor.entries = routine.entries →
    postponed? routine.temporaries cursor = some moved →
      dropValue routine.temporaries keepJitEntries moved = none ∧
        routine.MovesBack cursor moved
  noJitEntry : keepJitEntries = false →
    ∀ entry ∈ routine.entries, entry.instr.isJitEntry = false
  noEmptyMove : ∀ entry ∈ routine.entries,
    entry.instr ≠ .pop 0 ∧ entry.instr ≠ .push 0
  noIdleJump : ∀ front jump marker back name,
    routine.entries = front ++ jump :: marker :: back →
      jump.instr = .jump (.label name) → marker.instr ≠ .label name
  /-- What is written to a temporary may be read later. -/
  noDeadWrite : ∀ entry ∈ routine.entries, ∀ slot,
    entry.instr.access.write? = some slot → routine.isTemporary slot = true →
      routine.slotReadAfter routine.labelHandles entry.handle slot = .ok true

section Forms

variable {routine : Routine} {keepJitEntries : Bool}

theorem not_rule_of_unchanged {front window : List Entry} {patch : Patch}
    (unchanged : Unchanged routine.temporaries keepJitEntries routine.entries)
    (whole : routine.entries = front ++ window) :
    ¬ Rule (scopeOf routine.temporaries keepJitEntries routine.instrs)
      (window.map (·.instr)) patch := by
  intro rule
  have same : Cursor.entries ⟨front.reverse, window⟩ = routine.entries := by
    simp [Cursor.entries, whole]
  rw [instrs, ← same] at rule
  exact changeAt_ne_none_of_rule rule (unchanged _ same)

/-- A slot that is written where no rule matches may be read later, if it is a
temporary. -/
theorem slotReadAfter_of_unchanged
    (distinctLabels : (labels routine.instrs).Nodup)
    (distinctHandles : routine.handles.Nodup)
    (unchanged : Unchanged routine.temporaries keepJitEntries routine.entries)
    {entry : Entry} (member : entry ∈ routine.entries) {slot : Slot}
    (writes : entry.instr.access.write? = some slot)
    (temporary : routine.isTemporary slot = true) :
    routine.slotReadAfter routine.labelHandles entry.handle slot =
      .ok true := by
  -- Both the search by handles and the one by labels are exact, so they agree;
  -- if they find no read, the rule for unused values matches.
  obtain ⟨index, inside, rfl⟩ := List.getElem_of_mem member
  have here := List.getElem?_eq_getElem inside
  rcases slotReadAfter_exact distinctLabels distinctHandles here slot with
    ⟨answer, -⟩ | ⟨-, unreadable⟩
  · exact answer
  · have dead : (scopeOf routine.temporaries keepJitEntries
        routine.instrs).dead slot (routine.instrs.drop (index + 1)) = true :=
      Bool.and_eq_true_iff.mpr ⟨temporary,
        (unreadFrom_drop_iff distinctLabels slot (index + 1)).mpr unreadable⟩
    have proposed := isSome_unusedValue_of_dead writes dead
    obtain ⟨patch, proposed⟩ := Option.isSome_iff_exists.mp proposed
    rw [instrs, ← List.map_drop, ← List.map_cons,
      ← List.drop_eq_getElem_cons inside] at proposed
    exact absurd (rule_of_unusedValue proposed)
      (not_rule_of_unchanged unchanged (List.take_append_drop index _).symm)

theorem moveBefore_eq_ok {before after front back : List Entry}
    {entry target : Entry} (distinct : routine.handles.Nodup)
    (whole : routine.entries = before ++ entry :: after)
    (others : before ++ after = front ++ target :: back) :
    routine.moveBefore entry.handle target.handle =
      .ok { routine with entries := front ++ entry :: target :: back } := by
  rw [handles, whole] at distinct
  have apart : entry.handle ≠ target.handle := by
    have first := (List.perm_middle.map Entry.handle).nodup_iff.mp distinct
    rw [others, List.map_cons, List.nodup_cons] at first
    intro same
    exact first.1 (List.mem_map.mpr ⟨target, by simp, same.symm⟩)
  have rest : ((front ++ target :: back).map (·.handle)).Nodup := by
    rw [← others]
    exact distinct.sublist (((List.sublist_cons_self _ _).append_left _).map _)
  rw [moveBefore, if_neg apart, locate, whole, splitAt?_middle distinct]
  simp only [bind, Except.bind, others, splitAt?_middle rest]

/-- A constant that is moved down on trial can be moved back. -/
theorem movesBack_of_postponed? (distinct : routine.handles.Nodup)
    {cursor moved : Cursor} (entries : cursor.entries = routine.entries)
    (postponed : postponed? routine.temporaries cursor = some moved) :
    routine.MovesBack cursor moved := by
  cases postpones_of_postponed? postponed with
  | @move before skipped rest entry next reader =>
      have whole : routine.entries =
          before.reverse ++ entry :: next :: (skipped ++ reader :: rest) :=
        entries.symm
      set trial : Routine := { routine with
        entries := (before.reverse ++ next :: skipped) ++
          entry :: reader :: rest }
      have down : routine.moveBefore entry.handle reader.handle = .ok trial :=
        moveBefore_eq_ok distinct whole (by simp)
      have across : (entry :: ((next :: skipped) ++ reader :: rest)).Perm
          ((next :: skipped) ++ entry :: reader :: rest) :=
        List.perm_middle.symm
      have kept : trial.handles.Nodup := by
        refine (List.Perm.map _ ?_).nodup_iff.mp distinct
        rw [whole]
        simpa [trial] using across.append_left before.reverse
      have up : trial.moveBefore entry.handle next.handle = .ok { trial with
          entries := before.reverse ++
            entry :: next :: (skipped ++ reader :: rest) } :=
        moveBefore_eq_ok kept rfl (by simp)
      refine ⟨entry, next, _, reader, trial, rfl, by simp, down,
        by simp [trial, Cursor.entries], ?_⟩
      rw [up, ← whole]

theorem tight_of_unchanged (distinctLabels : (labels routine.instrs).Nodup)
    (distinctHandles : routine.handles.Nodup)
    (unchanged : Unchanged routine.temporaries keepJitEntries
      routine.entries) : routine.Tight keepJitEntries where
  unchanged := unchanged
  noRule _ _ _ whole := not_rule_of_unchanged unchanged whole
  noPostponed cursor moved entries postponed := by
    refine ⟨?_, movesBack_of_postponed? distinctHandles entries postponed⟩
    have still := unchanged cursor entries
    simp only [changeAt, Option.or_eq_none_iff, postponeValue] at still
    simpa [postponed] using still.2.1
  noJitEntry dropped entry member := by
    obtain ⟨front, back, whole⟩ := List.append_of_mem member
    obtain ⟨handle, instr, depth⟩ := entry
    cases instr with
    | jitEntry index =>
        exact (not_rule_of_unchanged unchanged whole
          (.jitEntry dropped)).elim
    | _ => rfl
  noEmptyMove entry member := by
    obtain ⟨front, back, whole⟩ := List.append_of_mem member
    obtain ⟨handle, instr, depth⟩ := entry
    constructor
    · rintro (rfl : instr = .pop 0)
      exact not_rule_of_unchanged unchanged whole .popNone
    · rintro (rfl : instr = .push 0)
      exact not_rule_of_unchanged unchanged whole .pushNone
  noIdleJump front jump marker back name whole jumps marks := by
    obtain ⟨here, leave, depth⟩ := jump
    obtain ⟨there, arrive, depth'⟩ := marker
    obtain rfl : leave = .jump (.label name) := jumps
    obtain rfl : arrive = .label name := marks
    exact not_rule_of_unchanged unchanged whole .jumpNext
  noDeadWrite _ member _ writes temporary :=
    slotReadAfter_of_unchanged distinctLabels distinctHandles unchanged member
      writes temporary

end Forms

theorem unchanged_of_tighten {routine tightened : Routine}
    {keepJitEntries : Bool} {count : Nat}
    (done : routine.tighten keepJitEntries = .ok (count, tightened)) :
    Unchanged tightened.temporaries keepJitEntries tightened.entries := by
  unfold tighten at done
  split at done
  · cases done
  · obtain ⟨-, rfl⟩ := Prod.mk.inj (Except.ok.inj done)
    exact unchanged_scan (passed_of_start rfl)

theorem tighten_of_unchanged {routine : Routine} {keepJitEntries : Bool}
    (distinct : (labels routine.instrs).Nodup)
    (unchanged : Unchanged routine.temporaries keepJitEntries
      routine.entries) :
    routine.tighten keepJitEntries = .ok (0, routine) := by
  obtain ⟨result, scanned, done⟩ := tighten_eq_scan distinct keepJitEntries
  rw [scan_of_unchanged (by simpa using unchanged)] at scanned
  subst scanned
  rw [done]
  simp [Cursor.entries, HandlePool.retireAll]

/-- Tightening reaches a normal form: nothing in what it leaves can be
tightened, the table of labels is the one that it began with, and tightening
once more changes nothing. -/
theorem tighten_reaches_normal_form (routine : NamedRoutine)
    (distinctLabels : (labels routine.instrs).Nodup) (keepJitEntries : Bool) :
    ∃ (count : Nat) (tightened : NamedRoutine),
      routine.tighten keepJitEntries = .ok (count, tightened.toRoutine) ∧
        tightened.labelHandles = routine.labelHandles ∧
        tightened.Tight keepJitEntries ∧
        tightened.tighten keepJitEntries = .ok (0, tightened.toRoutine) := by
  obtain ⟨count, tightened, done, -, rewrites⟩ :=
    exists_tighten distinctLabels keepJitEntries
  have unchanged := unchanged_of_tighten done
  have labelsLeft : (labels tightened.instrs).Nodup := by
    rw [instrs, (carries_of_rewrites rewrites).labels_eq]
    exact distinctLabels
  have handlesLeft : tightened.handles.Nodup := by
    obtain ⟨removed, sheds⟩ := sheds_tighten done
    exact (List.nodup_append.mp
      (sheds.handles_perm.nodup_iff.mpr routine.nodup_handles)).2.1
  exact ⟨count, ⟨tightened, handlesLeft⟩, done,
    labelHandles_of_rewrites rewrites,
    tight_of_unchanged labelsLeft handlesLeft unchanged,
    tighten_of_unchanged labelsLeft unchanged⟩

/-- A routine in which most of the instructions do nothing. -/
def idling : NamedRoutine where
  toRoutine := ofList [.jitEntry 0, .push 0, .pushVar 1, .pop 0,
    .jump (.label ⟨2⟩), .label ⟨2⟩, .ret 0]
  nodup_handles := by decide

theorem tighten_reaches_normal_form_idling :
    (labels idling.instrs).Nodup ∧
      ∃ tightened : NamedRoutine,
        idling.tighten false = .ok (4, tightened.toRoutine) ∧
        tightened.instrs = [.pushVar 1, .label ⟨2⟩, .ret 0] ∧
        tightened.labelHandles = idling.labelHandles ∧
        tightened.Tight false ∧
        tightened.tighten false = .ok (0, tightened.toRoutine) := by
  have distinctLabels : (labels idling.instrs).Nodup := by decide
  have outcome : (idling.tighten false).map
      (fun result => (result.1, result.2.instrs)) =
        .ok (4, [.pushVar 1, .label ⟨2⟩, .ret 0]) := by cbv
  obtain ⟨count, tightened, done, normal⟩ :=
    tighten_reaches_normal_form idling distinctLabels false
  rw [done] at outcome
  obtain ⟨rfl, instrs⟩ := Prod.mk.inj (Except.ok.inj outcome)
  exact ⟨distinctLabels, tightened, done, instrs, normal⟩

end Routine

end StackAssembler
