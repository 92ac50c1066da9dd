import StackAssembler.Window.Scan
import StackAssembler.Proofs.Markers
import Mathlib.Logic.Relation

/-!
# What the window scan does to a sequence

A rewrite is one step of the scan: a rule applied somewhere in the sequence, a
constant moved down to the instruction that reads it, or two pushes exchanged.
A scan is a run of rewrites.

A rewrite touches no marker of a label, and it brings in no line and no target
of a jump that was not there.
-/

namespace StackAssembler

namespace Window

open Flow Relation

/-- The write of a constant may be moved across the instruction. -/
structure Crossable (slot : Slot) (instr : Instr) : Prop where
  unread : instr.access.reads slot = false
  unbarred : (instr.access.writes slot || instr.dropsTemporaries ||
    instr.isBarrier) = false

/-- One step of the scan. -/
inductive Rewrite (temporaries : SlotSet) (keepJitEntries : Bool) :
    List Entry → List Entry → Prop
  | patch {front window : List Entry} {patch : Patch}
      (rule : Rule (scopeOf temporaries keepJitEntries
        ((front ++ window).map (·.instr))) (window.map (·.instr)) patch) :
      Rewrite temporaries keepJitEntries (front ++ window)
        (front ++ patch.fill window)
  | postpone {front skipped rest : List Entry} {entry reader : Entry}
      {slot : Slot} {value : UInt32}
      (constant : entry.instr = .setVar4 slot value)
      (temporary : temporaries.contains slot = true)
      (passed : ∀ other ∈ skipped, Crossable slot other.instr)
      (reads : reader.instr.access.reads slot = true) :
      Rewrite temporaries keepJitEntries
        (front ++ entry :: (skipped ++ reader :: rest))
        (front ++ (skipped ++ entry :: reader :: rest))
  | exchange {front rest : List Entry} {first second swap : Entry}
      (firstPush : isPlainPush first.instr = true)
      (secondPush : isPlainPush second.instr = true)
      (swaps : swap.instr = .swap4) :
      Rewrite temporaries keepJitEntries
        (front ++ first :: second :: swap :: rest)
        (front ++ second :: first :: rest)

section Scans

variable {temporaries : SlotSet} {keepJitEntries : Bool} {cursor : Cursor}
  {change : Change}

theorem rewrite_applyPatch {patch : Patch}
    (rule : Rule (scopeOf temporaries keepJitEntries cursor.code)
      cursor.window patch) :
    Rewrite temporaries keepJitEntries cursor.entries
      (applyPatch cursor patch).cursor.entries := by
  simp only [applyPatch, Cursor.entries_back]
  exact .patch rule

theorem rewrite_dropValue
    (changed : dropValue temporaries keepJitEntries cursor = some change) :
    Rewrite temporaries keepJitEntries cursor.entries
      change.cursor.entries := by
  obtain ⟨patch, proposed, rfl⟩ := Option.map_eq_some_iff.mp changed
  exact rewrite_applyPatch (rule_of_unusedValue proposed)

theorem splitAtRead?_eq_some {slot : Slot}
    {entries skipped found : List Entry}
    (split : splitAtRead? slot entries = some (skipped, found)) :
    (∀ other ∈ skipped, Crossable slot other.instr) ∧
      ∃ reader rest, found = reader :: rest ∧
        reader.instr.access.reads slot = true := by
  induction entries generalizing skipped with
  | nil => simp [splitAtRead?] at split
  | cons entry rest ih =>
      unfold splitAtRead? at split
      split at split
      · rename_i reads
        obtain ⟨rfl, rfl⟩ := Prod.mk.inj (Option.some.inj split)
        exact ⟨by simp, entry, rest, rfl, reads⟩
      · rename_i unread
        split at split
        · contradiction
        · rename_i unbarred
          obtain ⟨⟨passed, remaining⟩, inner, equal⟩ :=
            Option.map_eq_some_iff.mp split
          obtain ⟨rfl, rfl⟩ := Prod.mk.inj equal
          obtain ⟨later, reader⟩ := ih inner
          refine ⟨?_, reader⟩
          intro other member
          rcases List.mem_cons.mp member with rfl | inside
          · exact ⟨eq_false_of_ne_true unread,
              eq_false_of_ne_true unbarred⟩
          · exact later other inside

/-- A constant for a temporary stands in front of a cursor and is moved down
across at least one instruction to the first one that reads it. -/
inductive Postpones (temporaries : SlotSet) : Cursor → Cursor → Prop
  | move {before skipped rest : List Entry} {entry next reader : Entry}
      {slot : Slot} {value : UInt32}
      (constant : entry.instr = .setVar4 slot value)
      (temporary : temporaries.contains slot = true)
      (passed : ∀ other ∈ next :: skipped, Crossable slot other.instr)
      (reads : reader.instr.access.reads slot = true) :
      Postpones temporaries
        ⟨before, entry :: next :: (skipped ++ reader :: rest)⟩
        ⟨(next :: skipped).reverse ++ before, entry :: reader :: rest⟩

theorem postpones_of_postponed? {moved : Cursor}
    (postponed : postponed? temporaries cursor = some moved) :
    Postpones temporaries cursor moved := by
  obtain ⟨before, after⟩ := cursor
  unfold postponed? at postponed
  repeat' split at postponed
  all_goals try contradiction
  rename_i entry rest window _ slot value constant temporary _ skipped found
    crossing split
  obtain rfl : after = entry :: rest := window
  obtain rfl := Option.some.inj postponed
  obtain rfl := append_of_splitAtRead? split
  obtain ⟨passed, reader, rest, rfl, reads⟩ := splitAtRead?_eq_some split
  cases skipped with
  | nil => exact (crossing rfl).elim
  | cons next skipped => exact .move constant temporary passed reads

theorem rewrite_postponed? {moved : Cursor}
    (postponed : postponed? temporaries cursor = some moved) :
    Rewrite temporaries keepJitEntries cursor.entries moved.entries := by
  cases postpones_of_postponed? postponed with
  | move constant temporary passed reads =>
      simpa [Cursor.entries] using
        Rewrite.postpone constant temporary passed reads

theorem rewrite_exchangePushes
    (changed : exchangePushes cursor = some change) :
    Rewrite temporaries keepJitEntries cursor.entries
      change.cursor.entries := by
  obtain ⟨before, after⟩ := cursor
  unfold exchangePushes at changed
  repeat' split at changed
  all_goals try contradiction
  rename_i first second third rest window pushes
  obtain rfl : after = first :: second :: third :: rest := window
  obtain rfl := Option.some.inj changed
  simp only [Bool.and_eq_true] at pushes
  have swaps : third.instr = .swap4 := by
    cases same : third.instr <;> simp_all [Instr.isSwap]
  rw [Cursor.entries_back]
  exact .exchange pushes.1.1 pushes.1.2 swaps

theorem rewrites_changeAt
    (changed : changeAt temporaries keepJitEntries cursor = some change) :
    ReflTransGen (Rewrite temporaries keepJitEntries) cursor.entries
      change.cursor.entries := by
  unfold changeAt at changed
  simp only [Option.or_eq_some_iff] at changed
  rcases changed with dropped | ⟨-, postponed | ⟨-, exchanged |
    ⟨-, checked | ⟨-, simplified⟩⟩⟩⟩
  · exact .single (rewrite_dropValue dropped)
  · obtain ⟨moved, postponed, dropped⟩ :=
      Option.bind_eq_some_iff.mp postponed
    exact .tail (.single (rewrite_postponed? postponed))
      (rewrite_dropValue dropped)
  · exact .single (rewrite_exchangePushes exchanged)
  · obtain ⟨patch, proposed, rfl⟩ := Option.map_eq_some_iff.mp checked
    exact .single (rewrite_applyPatch (rule_of_checks proposed))
  · obtain ⟨patch, proposed, rfl⟩ := Option.map_eq_some_iff.mp simplified
    exact .single (rewrite_applyPatch (rule_of_simplify proposed))

theorem rewrites_scan (state : Scan) :
    ReflTransGen (Rewrite temporaries keepJitEntries) state.cursor.entries
      (scan temporaries keepJitEntries state).cursor.entries := by
  fun_induction scan temporaries keepJitEntries state with
  | case1 state window again ih => simpa [Cursor.entries] using ih
  | case2 => exact .refl
  | case3 state entry rest window change changed ih =>
      exact (rewrites_changeAt changed).trans ih
  | case4 state entry rest window unchanged ih =>
      simpa [Cursor.entries, window] using ih

end Scans

/-- What a rewrite does to the instructions from its place on, where `code` are
all of them. -/
inductive Revision (temporaries : SlotSet) (keepJitEntries : Bool)
    (code : List Instr) : List Instr → List Instr → Prop
  | patch {window : List Instr} {patch : Patch}
      (rule : Rule (scopeOf temporaries keepJitEntries code) window patch) :
      Revision temporaries keepJitEntries code window
        (patch.fillInstrs window)
  | postpone {slot : Slot} {value : UInt32} {skipped rest : List Instr}
      (passed : ∀ instr ∈ skipped, Crossable slot instr) :
      Revision temporaries keepJitEntries code
        (.setVar4 slot value :: (skipped ++ rest))
        (skipped ++ .setVar4 slot value :: rest)
  | exchange {first second : Instr} {rest : List Instr}
      (firstPush : isPlainPush first = true)
      (secondPush : isPlainPush second = true) :
      Revision temporaries keepJitEntries code
        (first :: second :: .swap4 :: rest) (second :: first :: rest)

/-- Every rewrite revises the instructions from some place on. -/
theorem Rewrite.revision {temporaries : SlotSet} {keepJitEntries : Bool}
    {before after : List Entry}
    (rewrite : Rewrite temporaries keepJitEntries before after) :
    ∃ front old new, before.map (·.instr) = front ++ old ∧
      after.map (·.instr) = front ++ new ∧
      Revision temporaries keepJitEntries (before.map (·.instr)) old new := by
  cases rewrite with
  | patch rule =>
      refine ⟨_, _, _, List.map_append, ?_, .patch rule⟩
      rw [List.map_append, Patch.map_instr_fill]
  | @postpone front skipped rest entry reader slot value constant _ passed =>
      have revision : Revision temporaries keepJitEntries
          ((front ++ entry :: (skipped ++ reader :: rest)).map (·.instr))
          (.setVar4 slot value :: (skipped.map (·.instr) ++
            (reader :: rest).map (·.instr)))
          (skipped.map (·.instr) ++ .setVar4 slot value ::
            (reader :: rest).map (·.instr)) := by
        refine .postpone fun instr member => ?_
        obtain ⟨other, inside, rfl⟩ := List.mem_map.mp member
        exact passed other inside
      exact ⟨front.map (·.instr), _, _, by simp [constant],
        by simp [constant], revision⟩
  | @exchange front rest first second swap firstPush secondPush swaps =>
      have revision : Revision temporaries keepJitEntries
          ((front ++ first :: second :: swap :: rest).map (·.instr))
          (first.instr :: second.instr :: .swap4 :: rest.map (·.instr))
          (second.instr :: first.instr :: rest.map (·.instr)) :=
        .exchange firstPush secondPush
      exact ⟨front.map (·.instr), _, _, by simp [swaps], by simp, revision⟩

/-- Code in which some first instructions are exchanged for others.  None of
them marks a label.  A jump among the new ones has the target of an old one,
and a line among them was there before. -/
inductive Splice : List Instr → List Instr → Prop
  | same (rest : List Instr) : Splice rest rest
  | keep {instr : Instr} {before after : List Instr}
      (unmarked : instr.marks? = none) (splice : Splice before after) :
      Splice (instr :: before) (instr :: after)
  | drop {instr : Instr} {before after : List Instr}
      (unmarked : instr.marks? = none) (splice : Splice before after) :
      Splice (instr :: before) after
  | put {instr : Instr} {before after : List Instr}
      (noMarker : instr.isMarker = false) (unaimed : instr.target? = none)
      (splice : Splice before after) : Splice before (instr :: after)
  | swap {old new : Instr} {before after : List Instr}
      (unmarked : old.marks? = none) (noMarker : new.isMarker = false)
      (aimed : new.target? = old.target?) (splice : Splice before after) :
      Splice (old :: before) (new :: after)

theorem marks?_eq_none_of_isMarker {instr : Instr}
    (noMarker : instr.isMarker = false) : instr.marks? = none := by
  cases instr <;> simp_all [Instr.isMarker, Instr.marks?]

namespace Splice

variable {before after : List Instr}

theorem labels_eq (splice : Splice before after) :
    labels after = labels before := by
  induction splice with
  | same => rfl
  | keep _ _ ih => simp [labels_cons, ih]
  | drop unmarked _ ih => simp [labels_cons, unmarked, ih]
  | put noMarker _ _ ih =>
      simp [labels_cons, marks?_eq_none_of_isMarker noMarker, ih]
  | swap unmarked noMarker _ _ ih =>
      simp [labels_cons, unmarked, marks?_eq_none_of_isMarker noMarker, ih]

theorem codeBehind?_eq (splice : Splice before after) (name : Label) :
    codeBehind? after name = codeBehind? before name := by
  induction splice with
  | same => rfl
  | keep unmarked _ ih => simp [unmarked, ih]
  | drop unmarked _ ih => simp [unmarked, ih]
  | put noMarker _ _ ih => simp [marks?_eq_none_of_isMarker noMarker, ih]
  | swap unmarked noMarker _ _ ih =>
      simp [unmarked, marks?_eq_none_of_isMarker noMarker, ih]

theorem exists_target (splice : Splice before after) {instr : Instr}
    (member : instr ∈ after) {target : Target}
    (aimed : instr.target? = some target) :
    ∃ source ∈ before, source.target? = some target := by
  induction splice with
  | same => exact ⟨instr, member, aimed⟩
  | keep _ _ ih =>
      rcases List.mem_cons.mp member with rfl | later
      · exact ⟨instr, List.mem_cons_self, aimed⟩
      · obtain ⟨source, inside, same⟩ := ih later
        exact ⟨source, List.mem_cons_of_mem _ inside, same⟩
  | drop _ _ ih =>
      obtain ⟨source, inside, same⟩ := ih member
      exact ⟨source, List.mem_cons_of_mem _ inside, same⟩
  | put _ unaimed _ ih =>
      rcases List.mem_cons.mp member with rfl | later
      · simp [unaimed] at aimed
      · exact ih later
  | @swap old new _ _ _ _ alike _ ih =>
      rcases List.mem_cons.mp member with rfl | later
      · exact ⟨old, List.mem_cons_self, alike ▸ aimed⟩
      · obtain ⟨source, inside, same⟩ := ih later
        exact ⟨source, List.mem_cons_of_mem _ inside, same⟩

theorem mem_line (splice : Splice before after) {pos : SourcePos}
    {cue : Bool} (member : .line pos cue ∈ after) :
    .line pos cue ∈ before := by
  induction splice with
  | same => exact member
  | keep _ _ ih =>
      exact List.mem_cons.mpr ((List.mem_cons.mp member).imp_right ih)
  | drop _ _ ih => exact List.mem_cons_of_mem _ (ih member)
  | put noMarker _ _ ih =>
      rcases List.mem_cons.mp member with rfl | later
      · simp [Instr.isMarker] at noMarker
      · exact ih later
  | swap _ noMarker _ _ ih =>
      rcases List.mem_cons.mp member with rfl | later
      · simp [Instr.isMarker] at noMarker
      · exact List.mem_cons_of_mem _ (ih later)

end Splice

theorem marks?_eq_none_of_write? {instr : Instr} {slot : Slot}
    (writes : instr.access.write? = some slot) : instr.marks? = none := by
  cases marked : instr.marks? with
  | none => rfl
  | some name =>
      rw [Instr.marks?_eq_some_iff.mp marked] at writes
      cases writes

theorem UnitPush.unmarked {instr : Instr} (pushes : UnitPush instr) :
    instr.marks? = none := by
  cases pushes <;> rfl

theorem Rule.splice {scope : Scope} {window : List Instr} {patch : Patch}
    (rule : Rule scope window patch) :
    Splice window (patch.fillInstrs window) := by
  cases rule with
  | unusedWrite writes =>
      exact .drop (marks?_eq_none_of_write? writes) (.same _)
  | unusedGlobalRead => exact .drop rfl (.put rfl rfl (.same _))
  | compareConst | arithConst | arithConstLeft | arithCopy | arithImmCopy
  | constCopy | globalPush | constPush | constStore | discardConst8
  | discardRead | discardRead8 | globalWrite | globalReadUsed | globalRead
  | increment | decrement | frameRead | pushTwice | constRef | popReturn =>
      exact .drop rfl (.drop rfl (.put rfl rfl (.same _)))
  | branchUnless | branchIf =>
      exact .drop rfl (.swap rfl rfl rfl (.same _))
  | discardUnit pushes =>
      exact .drop pushes.unmarked (.drop rfl (.put rfl rfl (.same _)))
  | registerBack | suspendBefore | lineBefore =>
      exact .drop rfl (.drop rfl (.same _))
  | checkRead | checkFrame | checkVar =>
      exact .drop rfl (.drop rfl (.drop rfl
        (.put rfl rfl (.put rfl rfl (.same _)))))
  | jitEntry | popNone | pushNone | suspendTwice | lineTwice | jumpNext =>
      exact .drop rfl (.same _)

theorem Revision.splice {temporaries : SlotSet} {keepJitEntries : Bool}
    {code before after : List Instr}
    (revision : Revision temporaries keepJitEntries code before after) :
    Splice before after := by
  cases revision with
  | patch rule => exact rule.splice
  | @postpone slot value skipped rest passed =>
      refine .drop rfl ?_
      induction skipped with
      | nil => exact .put rfl rfl (.same rest)
      | cons instr skipped ih =>
          have unbarred := (passed instr List.mem_cons_self).2
          have unmarked : instr.marks? = none := by
            cases instr <;> simp_all [Instr.marks?, Instr.isBarrier]
          exact .keep unmarked (ih fun other member =>
            passed other (List.mem_cons_of_mem _ member))
  | @exchange first second rest firstPush secondPush =>
      have plain {instr : Instr} (pushes : isPlainPush instr = true) :
          instr.isMarker = false ∧ instr.target? = none := by
        cases instr <;> simp_all [isPlainPush, Instr.isMarker, Instr.target?]
      obtain ⟨noMarker, unaimed⟩ := plain firstPush
      exact .drop (marks?_eq_none_of_isMarker noMarker)
        (.keep (marks?_eq_none_of_isMarker (plain secondPush).1)
          (.drop rfl (.put noMarker unaimed (.same rest))))

/-- What the layout of code needs is kept in other code: the labels, and no
targets and lines but those there were. -/
structure Carries (before after : List Instr) : Prop where
  labels_eq : labels after = labels before
  exists_target : ∀ {instr : Instr}, instr ∈ after → ∀ {target : Target},
    instr.target? = some target →
      ∃ source ∈ before, source.target? = some target
  mem_line : ∀ {pos : SourcePos} {cue : Bool}, .line pos cue ∈ after →
    .line pos cue ∈ before

theorem Carries.refl (code : List Instr) : Carries code code :=
  ⟨rfl, fun member _ aimed => ⟨_, member, aimed⟩, id⟩

theorem Carries.trans {first second third : List Instr}
    (early : Carries first second) (late : Carries second third) :
    Carries first third where
  labels_eq := late.labels_eq.trans early.labels_eq
  exists_target member _ aimed := by
    obtain ⟨middle, inside, same⟩ := late.exists_target member aimed
    exact early.exists_target inside same
  mem_line member := early.mem_line (late.mem_line member)

theorem Splice.carries {before after : List Instr}
    (splice : Splice before after) (front : List Instr) :
    Carries (front ++ before) (front ++ after) where
  labels_eq := by simp [splice.labels_eq]
  exists_target member target aimed := by
    rcases List.mem_append.mp member with inFront | inside
    · exact ⟨_, List.mem_append_left _ inFront, aimed⟩
    · obtain ⟨source, found, same⟩ := splice.exists_target inside aimed
      exact ⟨source, List.mem_append_right _ found, same⟩
  mem_line member :=
    List.mem_append.mpr ((List.mem_append.mp member).imp_right splice.mem_line)

section Runs

variable {temporaries : SlotSet} {keepJitEntries : Bool}
  {before after : List Entry}
  (rewrites : ReflTransGen (Rewrite temporaries keepJitEntries) before after)

include rewrites

/-- A reflexive and transitive relation that holds for each rewrite holds for a
run of rewrites. -/
theorem related_of_rewrites {related : List Entry → List Entry → Prop}
    (refl : ∀ entries, related entries entries)
    (trans : ∀ {first second third}, related first second →
      related second third → related first third)
    (step : ∀ {before after}, Rewrite temporaries keepJitEntries before after →
      related before after) : related before after := by
  induction rewrites with
  | refl => exact refl _
  | tail _ rewrite ih => exact trans ih (step rewrite)

/-- So does one of instructions that holds for each revision behind any
code. -/
theorem instrs_related_of_rewrites {related : List Instr → List Instr → Prop}
    (refl : ∀ code, related code code)
    (trans : ∀ {first second third}, related first second →
      related second third → related first third)
    (step : ∀ {front code old new},
      Revision temporaries keepJitEntries code old new →
        related (front ++ old) (front ++ new)) :
    related (before.map (·.instr)) (after.map (·.instr)) := by
  refine @related_of_rewrites _ _ _ _ rewrites
    (fun before after => related (before.map (·.instr)) (after.map (·.instr)))
    (fun _ => refl _) trans fun rewrite => ?_
  obtain ⟨front, old, new, oldEq, newEq, revision⟩ := rewrite.revision
  rw [oldEq, newEq]
  exact step revision

theorem carries_of_rewrites :
    Carries (before.map (·.instr)) (after.map (·.instr)) :=
  instrs_related_of_rewrites rewrites .refl .trans fun revision =>
    revision.splice.carries _

end Runs

/-- Tightening code with distinct labels succeeds with what the scan leaves. -/
theorem tighten_eq_scan {routine : Routine}
    (distinct : (labels routine.instrs).Nodup) (keepJitEntries : Bool) :
    ∃ result, scan routine.temporaries keepJitEntries
        { cursor := ⟨[], routine.entries⟩ } = result ∧
      routine.tighten keepJitEntries = .ok (result.changes,
        { routine with
          entries := result.cursor.entries
          pool := routine.pool.retireAll result.vacated.reverse }) := by
  refine ⟨_, rfl, ?_⟩
  rw [Routine.tighten, repeatedLabel?_eq_none_iff.mpr distinct]

theorem exists_tighten {routine : Routine}
    (distinct : (labels routine.instrs).Nodup) (keepJitEntries : Bool) :
    ∃ count tightened,
      routine.tighten keepJitEntries = .ok (count, tightened) ∧
        tightened.temporaries = routine.temporaries ∧
        ReflTransGen (Rewrite routine.temporaries keepJitEntries)
          routine.entries tightened.entries := by
  obtain ⟨result, rfl, done⟩ := tighten_eq_scan distinct keepJitEntries
  exact ⟨_, _, done, rfl, rewrites_scan { cursor := ⟨[], routine.entries⟩ }⟩

end Window

end StackAssembler
