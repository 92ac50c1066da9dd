import StackAssembler.Assembly
import StackAssembler.Proofs.DepthWalk

/-!
# Runs side by side

The depth walk and the window scan go on until nothing is left to do.  Where a
change of the entries commutes with every single step, it commutes with the
whole run.

The change is worked out here for a map that gives the entries other handles and
other instructions.  It commutes with the walk where arrivals are the same, and
with the scan where the rules are blind to the exchange of instructions.  So the
analysis and the reduction of a routine come to mapped results on a mapped
routine.
-/

namespace StackAssembler

open Relation

/-! ## Outcomes -/

/-- Two results are the same problem, or two related values. -/
inductive Agreeing {Problem Value : Type} (related : Value → Value → Prop) :
    Except Problem Value → Except Problem Value → Prop
  | error (problem : Problem) :
      Agreeing related (.error problem) (.error problem)
  | ok {first second : Value} (values : related first second) :
      Agreeing related (.ok first) (.ok second)

theorem Agreeing.related {Problem Value : Type}
    {related : Value → Value → Prop} {first second : Value}
    (agreeing : @Agreeing Problem Value related (.ok first) (.ok second)) :
    related first second := by
  cases agreeing with
  | ok values => exact values

/-! ## Maps of entries -/

def Entry.map (naming : Handle → Handle) (exchange : Instr → Instr)
    (entry : Entry) : Entry :=
  { entry with
    handle := naming entry.handle
    instr := exchange entry.instr }

section Maps

variable (naming : Handle → Handle) (exchange : Instr → Instr)

@[simp]
theorem Entry.handle_map (entry : Entry) :
    (entry.map naming exchange).handle = naming entry.handle := rfl

@[simp]
theorem Entry.instr_map (entry : Entry) :
    (entry.map naming exchange).instr = exchange entry.instr := rfl

@[simp]
theorem Entry.depth_map (entry : Entry) :
    (entry.map naming exchange).depth = entry.depth := rfl

theorem map_instr_map (entries : List Entry) :
    (entries.map (·.map naming exchange)).map (·.instr) =
      (entries.map (·.instr)).map exchange := by
  simp [Function.comp_def]

variable {naming exchange} in
/-- What a filter does not see may be changed before or after it. -/
theorem filter_map_of_blind {keep : Entry → Bool}
    (blind : ∀ entry, keep (entry.map naming exchange) = keep entry)
    (entries : List Entry) :
    (entries.map (·.map naming exchange)).filter keep =
      (entries.filter keep).map (·.map naming exchange) := by
  simp [List.filter_map, Function.comp_def, blind]

end Maps

/-! ## The depth walk -/

namespace StackDepth

/-- A changed walk goes beside the walk that it was made of up to the end of the
latter, if it does so for every visit. -/
theorem explore_beside {add : Adder} {code other : List Instr} {change : Walk → Walk}
    {invariant : Walk → Prop}
    (beside : ∀ walk next, Visit add code walk next → invariant walk →
      invariant next ∧ Visit add other (change walk) (change next))
    {walk : Walk} (initial : invariant walk) :
    ∃ last, invariant last ∧ Halts add code last (explore add code walk) ∧
      explore add other (change walk) = explore add other (change last) := by
  obtain ⟨last, run, halts⟩ := explore_run add code walk
  have reached : invariant last ∧
      explore add other (change walk) = explore add other (change last) := by
    clear halts
    induction run with
    | refl => exact ⟨initial, rfl⟩
    | tail _ visit ih =>
        obtain ⟨kept, changed⟩ := beside _ _ visit ih.1
        exact ⟨kept, ih.2.trans (explore_of_visit changed)⟩
  exact ⟨last, reached.1, halts, reached.2⟩

def Walk.map (naming : Handle → Handle) (exchange : Instr → Instr)
    (walk : Walk) : Walk :=
  { walk with entries := walk.entries.map (·.map naming exchange) }

/-- The next visit of a walk arrives at the exchanged instruction as it does at
the original one. -/
def SameArrival (add : Adder) (code other : List Instr)
    (exchange : Instr → Instr) (walk : Walk) : Prop :=
  ∀ {index : Nat} {depth : Int} {pending : List (Nat × Int)} {entry : Entry},
    walk.pending = (index, depth) :: pending →
      walk.entries[index]? = some entry →
        arrive add other index depth (exchange entry.instr) =
          (arrive add code index depth entry.instr).map exchange id

/-- Failures that differ in nothing but an instruction that they quote. -/
inductive Requoted (exchange : Instr → Instr) : Failure → Failure → Prop
  | same (failure : Failure) : Requoted exchange failure failure
  | quoted (instr : Instr) (recorded incoming : Int) :
      Requoted exchange
        (.defect (.depthMismatch instr.text recorded incoming))
        (.defect (.depthMismatch (exchange instr).text recorded incoming))

section Walks

variable {add : Adder} {code other : List Instr} {naming : Handle → Handle}
  {exchange : Instr → Instr} {walk next : Walk}

theorem Walk.found_map {index : Nat} {entry : Entry}
    (found : walk.entries[index]? = some entry) :
    (walk.map naming exchange).entries[index]? =
      some (entry.map naming exchange) := by
  rw [map, List.getElem?_map, found, Option.map_some]

theorem Visit.map (same : SameArrival add code other exchange walk)
    (visit : Visit add code walk next) :
    Visit add other (walk.map naming exchange)
      (next.map naming exchange) := by
  cases visit with
  | pass order known =>
      refine .pass order ?_
      intro mapped found
      rw [Walk.map, List.getElem?_map] at found
      obtain ⟨entry, located, rfl⟩ := Option.map_eq_some_iff.mp found
      exact known entry located
  | enter order found blank arrived =>
      have mapped := same order found
      rw [arrived] at mapped
      have entered := @Visit.enter add other (walk.map naming exchange)
        _ _ _ _ _ _ _ order (Walk.found_map found) blank mapped
      simpa only [Walk.map, List.map_set, Entry.map] using entered

theorem Halts.map (same : SameArrival add code other exchange walk)
    {result : Walk × Option Failure} (halts : Halts add code walk result) :
    ∃ failure?, Option.Rel (Requoted exchange) result.2 failure? ∧
      Halts add other (walk.map naming exchange)
        (result.1.map naming exchange, failure?) := by
  cases halts with
  | done order => exact ⟨none, .none, .done order⟩
  | conflict order found known differs =>
      have conflict := @Halts.conflict add other (walk.map naming exchange)
        _ _ _ _ _ order (Walk.found_map found) known differs
      exact ⟨_, .some (.quoted _ _ _), conflict⟩
  | refused order found blank arrived =>
      have mapped := same order found
      rw [arrived] at mapped
      have refused := @Halts.refused add other (walk.map naming exchange)
        _ _ _ _ _ _ order (Walk.found_map found) blank mapped
      refine ⟨_, .some (.same _), ?_⟩
      simpa only [Walk.map, List.map_set, Entry.map] using refused

/-- A map with the same arrivals commutes with the walk, up to the instruction
that a failure quotes. -/
theorem explore_map {invariant : Walk → Prop}
    (kept : ∀ walk next, Visit add code walk next → invariant walk →
      invariant next)
    (same : ∀ walk, invariant walk → SameArrival add code other exchange walk)
    (initial : invariant walk) :
    ∃ failure?,
      Option.Rel (Requoted exchange) (explore add code walk).2 failure? ∧
      explore add other (walk.map naming exchange) =
        ((explore add code walk).1.map naming exchange, failure?) := by
  obtain ⟨last, holds, halts, reached⟩ := @explore_beside add code other
    (·.map naming exchange) invariant (fun walk next visit before =>
      ⟨kept walk next visit before, visit.map (same walk before)⟩) walk initial
  obtain ⟨failure?, alike, halted⟩ := halts.map (same last holds)
  exact ⟨failure?, alike, reached.trans (explore_of_halts halted)⟩

theorem analysisOf_map (naming : Handle → Handle) (exchange : Instr → Instr)
    (final : Walk) :
    analysisOf (final.map naming exchange) = analysisOf final := by
  have count : unvisited (final.map naming exchange).entries =
      unvisited final.entries := by
    simp [unvisited, Walk.map, List.countP_map, Function.comp_def]
  simp only [analysisOf, count]
  rfl

end Walks

end StackDepth

/-! ## The window scan -/

section Patches

variable (naming : Handle → Handle) (exchange : Instr → Instr)

theorem Patch.fill_map (patch : Patch) (entries : List Entry) :
    Patch.fill (patch.map (Option.map exchange))
        (entries.map (·.map naming exchange)) =
      (patch.fill entries).map (·.map naming exchange) := by
  fun_induction Patch.fill patch entries with
  | case1 => simp [Patch.fill]
  | case2 => simp [Patch.fill]
  | case3 instr patch entry entries ih => exact congrArg _ ih
  | case4 patch entry entries ih => exact ih

theorem Patch.vacated_map (patch : Patch) (entries : List Entry) :
    Patch.vacated (patch.map (Option.map exchange))
        (entries.map (·.map naming exchange)) =
      (patch.vacated entries).map naming := by
  induction patch generalizing entries with
  | nil => rfl
  | cons place patch ih =>
      cases entries with
      | nil => cases place <;> rfl
      | cons entry entries =>
          cases place with
          | none => simp [Patch.vacated, ih]
          | some instr => simp [Patch.vacated, ih]

theorem Patch.retreat_map (patch : Patch) :
    Patch.retreat (patch.map (Option.map exchange)) = patch.retreat := by
  rcases patch with _ | ⟨_ | instr, patch⟩ <;> rfl

end Patches

namespace Cursor

def map (naming : Handle → Handle) (exchange : Instr → Instr)
    (cursor : Cursor) : Cursor :=
  ⟨cursor.before.map (·.map naming exchange),
    cursor.after.map (·.map naming exchange)⟩

variable (naming : Handle → Handle) (exchange : Instr → Instr)

theorem entries_map (cursor : Cursor) :
    (cursor.map naming exchange).entries =
      cursor.entries.map (·.map naming exchange) := by
  simp [entries, map]

theorem code_map (cursor : Cursor) :
    (cursor.map naming exchange).code = cursor.code.map exchange := by
  rw [code, entries_map, map_instr_map, code]

theorem window_map (cursor : Cursor) :
    (cursor.map naming exchange).window = cursor.window.map exchange :=
  map_instr_map naming exchange cursor.after

theorem back_map (count : Nat) (cursor : Cursor) :
    (cursor.map naming exchange).back count =
      (cursor.back count).map naming exchange := by
  fun_induction back count cursor with
  | case1 | case2 => rfl
  | case3 count entry before after ih => exact ih

end Cursor

namespace Window

section Steps

variable {temporaries : SlotSet} {keepJitEntries changed : Bool}
  {before rest : List Entry} {entry : Entry} {changes : Nat}
  {vacated : List Handle}

theorem scan_again :
    scan temporaries keepJitEntries ⟨⟨before, []⟩, true, changes, vacated⟩ =
      scan temporaries keepJitEntries
        ⟨⟨[], before.reverse⟩, false, changes, vacated⟩ := by
  rw [scan]
  simp [Cursor.entries]

theorem scan_done :
    scan temporaries keepJitEntries ⟨⟨before, []⟩, false, changes, vacated⟩ =
      ⟨⟨before, []⟩, false, changes, vacated⟩ := by
  rw [scan]
  simp

theorem scan_of_change {change : Change}
    (made : changeAt temporaries keepJitEntries ⟨before, entry :: rest⟩ =
      some change) :
    scan temporaries keepJitEntries
        ⟨⟨before, entry :: rest⟩, changed, changes, vacated⟩ =
      scan temporaries keepJitEntries
        ⟨change.cursor, true, changes + 1,
          change.vacated.reverse ++ vacated⟩ := by
  rw [scan]
  dsimp only
  split
  · rename_i other found
    obtain rfl := Option.some.inj (found.symm.trans made)
    rfl
  · rename_i unmatched
    rw [made] at unmatched
    cases unmatched

theorem scan_of_none
    (unmatched : changeAt temporaries keepJitEntries ⟨before, entry :: rest⟩ =
      none) :
    scan temporaries keepJitEntries
        ⟨⟨before, entry :: rest⟩, changed, changes, vacated⟩ =
      scan temporaries keepJitEntries
        ⟨⟨entry :: before, rest⟩, changed, changes, vacated⟩ := by
  rw [scan]
  dsimp only
  split
  · rename_i made
    rw [unmatched] at made
    cases made
  · rfl

end Steps

def Change.map (naming : Handle → Handle) (exchange : Instr → Instr)
    (made : Change) : Change :=
  ⟨made.cursor.map naming exchange, made.vacated.map naming⟩

def Scan.map (naming : Handle → Handle) (exchange : Instr → Instr)
    (state : Scan) : Scan :=
  { state with
    cursor := state.cursor.map naming exchange
    vacated := state.vacated.map naming }

/-- The rules do not see an exchange of instructions: they propose the same
patch before and after it. -/
structure Blind (exchange : Instr → Instr) : Prop where
  access_eq : ∀ instr, (exchange instr).access = instr.access
  drops_eq : ∀ instr,
    (exchange instr).dropsTemporaries = instr.dropsTemporaries
  bars_eq : ∀ instr, (exchange instr).isBarrier = instr.isBarrier
  plain_eq : ∀ instr, isPlainPush (exchange instr) = isPlainPush instr
  swaps_eq : ∀ instr, (exchange instr).isSwap = instr.isSwap
  marks_eq : ∀ instr, (exchange instr).marks? = instr.marks?
  jits_eq : ∀ instr, (exchange instr).isJitEntry = instr.isJitEntry
  constant_iff : ∀ instr slot value,
    exchange instr = .setVar4 slot value ↔ instr = .setVar4 slot value
  unusedValue_eq : ∀ temporaries keepJitEntries code window,
    unusedValue (scopeOf temporaries keepJitEntries (code.map exchange))
        (window.map exchange) =
      (unusedValue (scopeOf temporaries keepJitEntries code) window).map
        (·.map (Option.map exchange))
  checks_eq : ∀ window, checks (window.map exchange) =
    (checks window).map (·.map (Option.map exchange))
  simplify_eq : ∀ temporaries keepJitEntries code window,
    simplify (scopeOf temporaries keepJitEntries (code.map exchange))
        (window.map exchange) =
      (simplify (scopeOf temporaries keepJitEntries code) window).map
        (·.map (Option.map exchange))

section Maps

variable (naming : Handle → Handle) {exchange : Instr → Instr}

theorem map_applyPatch_map (cursor : Cursor) (proposal : Option Patch) :
    (proposal.map (·.map (Option.map exchange))).map
        (applyPatch (cursor.map naming exchange)) =
      (proposal.map (applyPatch cursor)).map (·.map naming exchange) := by
  cases proposal with
  | none => rfl
  | some patch =>
      simp only [Option.map_some, applyPatch, Change.map, ← Cursor.back_map,
        Patch.retreat_map]
      simp only [Cursor.map, Patch.fill_map, Patch.vacated_map]

variable {temporaries others : SlotSet}
  (same : ∀ slot, others.contains slot = temporaries.contains slot)

theorem postponed?_of_ne {before rest : List Entry} {entry : Entry}
    (other : ∀ slot value, entry.instr ≠ .setVar4 slot value) :
    postponed? temporaries ⟨before, entry :: rest⟩ = none := by
  simp [postponed?]

include same in
theorem scopeOf_congr (keepJitEntries : Bool) (code : List Instr) :
    scopeOf others keepJitEntries code =
      scopeOf temporaries keepJitEntries code := by
  simp only [scopeOf, same]

variable (blind : Blind exchange)

include blind

theorem Blind.splitAtRead?_map (slot : Slot) (entries : List Entry) :
    splitAtRead? slot (entries.map (·.map naming exchange)) =
      (splitAtRead? slot entries).map fun (skipped, found) =>
        (skipped.map (·.map naming exchange),
          found.map (·.map naming exchange)) := by
  induction entries with
  | nil => rfl
  | cons entry entries ih =>
      simp only [List.map_cons, splitAtRead?, Entry.instr_map, blind.access_eq,
        blind.drops_eq, blind.bars_eq, ih]
      split
      · rfl
      · split
        · rfl
        · cases splitAtRead? slot entries <;> rfl

theorem Blind.exchangePushes_map (cursor : Cursor) :
    exchangePushes (cursor.map naming exchange) =
      (exchangePushes cursor).map (·.map naming exchange) := by
  obtain ⟨before, after⟩ := cursor
  match after with
  | [] | [_] | [_, _] => rfl
  | first :: second :: third :: rest =>
      simp only [exchangePushes, Cursor.map, List.map_cons, Entry.instr_map,
        blind.plain_eq, blind.swaps_eq]
      split
      · rw [Option.map_some, Change.map, ← Cursor.back_map]
        simp only [Entry.handle_map, Cursor.map, List.map_cons, List.map_nil]
      · rfl

include same

theorem Blind.postponed?_map (cursor : Cursor) :
    postponed? others (cursor.map naming exchange) =
      (postponed? temporaries cursor).map (·.map naming exchange) := by
  obtain ⟨before, after⟩ := cursor
  cases after with
  | nil => rfl
  | cons entry rest =>
      by_cases constant : ∃ slot value, entry.instr = .setVar4 slot value
      · obtain ⟨slot, value, holds⟩ := constant
        have kept := (blind.constant_iff (.setVar4 slot value) _ _).mpr rfl
        simp only [postponed?, Cursor.map, List.map_cons, Entry.instr_map,
          holds, kept, same, blind.splitAtRead?_map naming]
        split
        · rcases splitAtRead? slot rest with _ | ⟨_ | ⟨first, skipped⟩, found⟩
          · rfl
          · rfl
          · simp
        · rfl
      · have original : ∀ slot value, entry.instr ≠ .setVar4 slot value :=
          fun slot value holds => constant ⟨slot, value, holds⟩
        have mapped : ∀ slot value, exchange entry.instr ≠ .setVar4 slot value :=
          fun slot value holds =>
            original slot value ((blind.constant_iff _ slot value).mp holds)
        rw [postponed?_of_ne original]
        exact postponed?_of_ne mapped

theorem Blind.dropValue_map (keepJitEntries : Bool) (cursor : Cursor) :
    dropValue others keepJitEntries (cursor.map naming exchange) =
      (dropValue temporaries keepJitEntries cursor).map
        (·.map naming exchange) := by
  rw [dropValue, Cursor.code_map, Cursor.window_map, blind.unusedValue_eq,
    scopeOf_congr same, map_applyPatch_map, dropValue]

theorem Blind.changeAt_map (keepJitEntries : Bool) (cursor : Cursor) :
    changeAt others keepJitEntries (cursor.map naming exchange) =
      (changeAt temporaries keepJitEntries cursor).map
        (·.map naming exchange) := by
  have checked : simplifyChecks (cursor.map naming exchange) =
      (simplifyChecks cursor).map (·.map naming exchange) := by
    rw [simplifyChecks, Cursor.window_map, blind.checks_eq,
      map_applyPatch_map, simplifyChecks]
  have simplified :
      simplifyPair others keepJitEntries (cursor.map naming exchange) =
        (simplifyPair temporaries keepJitEntries cursor).map
          (·.map naming exchange) := by
    rw [simplifyPair, Cursor.code_map, Cursor.window_map, blind.simplify_eq,
      scopeOf_congr same, map_applyPatch_map, simplifyPair]
  have postponed :
      postponeValue others keepJitEntries (cursor.map naming exchange) =
        (postponeValue temporaries keepJitEntries cursor).map
          (·.map naming exchange) := by
    rw [postponeValue, blind.postponed?_map naming same, postponeValue]
    cases postponed? temporaries cursor with
    | none => rfl
    | some moved =>
        exact blind.dropValue_map naming same keepJitEntries moved
  simp only [changeAt, blind.dropValue_map naming same, postponed,
    blind.exchangePushes_map, checked, simplified, Option.map_or]

theorem Blind.scan_map (keepJitEntries : Bool) (state : Scan) :
    scan others keepJitEntries (state.map naming exchange) =
      (scan temporaries keepJitEntries state).map naming exchange := by
  fun_induction scan temporaries keepJitEntries state with
  | case1 state window again ih =>
      obtain ⟨⟨before, after⟩, changed, changes, vacated⟩ := state
      obtain rfl : after = [] := window
      obtain rfl : changed = true := again
      rw [← ih]
      simp only [Scan.map, Cursor.map, List.map_nil, scan_again,
        Cursor.entries, List.append_nil, List.map_reverse]
  | case2 state window again =>
      obtain ⟨⟨before, after⟩, changed, changes, vacated⟩ := state
      obtain rfl : after = [] := window
      obtain rfl : changed = false := by simpa using again
      exact scan_done
  | case3 state entry rest window change made ih =>
      obtain ⟨⟨before, after⟩, changed, changes, vacated⟩ := state
      obtain rfl : after = entry :: rest := window
      have mapped := blind.changeAt_map naming same keepJitEntries
        ⟨before, entry :: rest⟩
      rw [made] at mapped
      rw [← ih]
      refine (scan_of_change mapped).trans ?_
      simp only [Scan.map, Change.map, List.map_append, List.map_reverse]
  | case4 state entry rest window unmatched ih =>
      obtain ⟨⟨before, after⟩, changed, changes, vacated⟩ := state
      obtain rfl : after = entry :: rest := window
      have mapped := blind.changeAt_map naming same keepJitEntries
        ⟨before, entry :: rest⟩
      rw [unmatched] at mapped
      rw [← ih]
      exact scan_of_none mapped

end Maps

end Window

/-! ## From the routine to its reduced code -/

namespace Routine

open StackDepth Window

/-- One routine has the mapped entries of another one, and the same temporaries.
Nothing is said about their pools, line tables and greatest depths. -/
structure Mapped (naming : Handle → Handle) (exchange : Instr → Instr)
    (first second : Routine) : Prop where
  entries_eq : second.entries = first.entries.map (·.map naming exchange)
  contains_eq : ∀ slot,
    second.temporaries.contains slot = first.temporaries.contains slot

namespace Mapped

variable {naming : Handle → Handle} {exchange : Instr → Instr}
  {first second : Routine}

theorem instrs_eq (mapped : Mapped naming exchange first second) :
    second.instrs = first.instrs.map exchange := by
  rw [instrs, mapped.entries_eq, map_instr_map, instrs]

theorem depths_eq (mapped : Mapped naming exchange first second) :
    second.entries.map (·.depth) = first.entries.map (·.depth) := by
  simp [mapped.entries_eq, Function.comp_def]

theorem labels_eq (mapped : Mapped naming exchange first second)
    (marks : ∀ instr, (exchange instr).marks? = instr.marks?) :
    Flow.labels second.instrs = Flow.labels first.instrs := by
  simp [mapped.instrs_eq, Flow.labels, List.filterMap_map, Function.comp_def,
    marks]

theorem clearDepths (mapped : Mapped naming exchange first second) :
    Mapped naming exchange first.clearDepths second.clearDepths where
  entries_eq := by
    simp [Routine.clearDepths, mapped.entries_eq, Entry.map, Function.comp_def]
  contains_eq := mapped.contains_eq

theorem retain (mapped : Mapped naming exchange first second)
    {keep : Entry → Bool}
    (blind : ∀ entry, keep (entry.map naming exchange) = keep entry) :
    Mapped naming exchange (first.retain keep) (second.retain keep) where
  entries_eq := by
    rw [Routine.retain, mapped.entries_eq, filter_map_of_blind blind]
    rfl
  contains_eq := mapped.contains_eq

/-- The analysis forgets the depths that it finds, so only what is left without
them has to be mapped.  It fails on both routines or succeeds on both. -/
theorem measureDepths {invariant : Walk → Prop}
    (mapped : Mapped naming exchange first.clearDepths second.clearDepths)
    (marks : ∀ instr, (exchange instr).marks? = instr.marks?)
    (kept : ∀ walk next, Visit .words first.instrs walk next →
      invariant walk → invariant next)
    (same : ∀ walk, invariant walk →
      SameArrival .words first.instrs (first.instrs.map exchange) exchange
        walk)
    (initial : invariant (start first)) :
    ((∃ failure other, Requoted exchange failure other ∧
        first.measureDepths.1 = .error failure ∧
        second.measureDepths.1 = .error other) ∨
      ∃ analysis, first.measureDepths.1 = .ok analysis ∧
        second.measureDepths.1 = .ok analysis) ∧
    Mapped naming exchange first.measureDepths.2 second.measureDepths.2 := by
  have code : second.instrs = first.instrs.map exchange := by
    have cleared := mapped.instrs_eq
    rwa [instrs_clearDepths, instrs_clearDepths] at cleared
  have sameLabels : Flow.labels second.instrs = Flow.labels first.instrs := by
    have cleared := mapped.labels_eq marks
    rwa [instrs_clearDepths, instrs_clearDepths] at cleared
  have started : start second = (start first).map naming exchange := by
    rw [start, mapped.entries_eq]
    rfl
  rw [Routine.measureDepths, Routine.measureDepths]
  cases repeated : Flow.repeatedLabel? first.instrs with
  | some name =>
      have again : Flow.repeatedLabel? second.instrs = some name := by
        rwa [Flow.repeatedLabel?, sameLabels]
      rw [measureDepthsBy_of_repeatedLabel? repeated,
        measureDepthsBy_of_repeatedLabel? again]
      exact ⟨.inl ⟨_, _, .same _, rfl, rfl⟩, mapped⟩
  | none =>
      have distinct := Flow.repeatedLabel?_eq_none_iff.mp repeated
      obtain ⟨failure?, alike, walked⟩ :=
        @explore_map .words first.instrs _ naming exchange _ invariant kept
          same initial
      rw [← started, ← code] at walked
      rcases ended : explore .words first.instrs (start first) with
        ⟨final, found?⟩
      rw [ended] at alike walked
      cases alike with
      | some alike =>
          rw [measureDepthsBy_of_failure distinct ended,
            measureDepthsBy_of_failure (sameLabels ▸ distinct) walked]
          exact ⟨.inl ⟨_, _, alike, rfl, rfl⟩, rfl, mapped.contains_eq⟩
      | none =>
          rw [measureDepthsBy_of_finished distinct ended,
            measureDepthsBy_of_finished (sameLabels ▸ distinct) walked,
            analysisOf_map]
          refine ⟨.inr ⟨_, rfl, rfl⟩, ?_, mapped.contains_eq⟩
          exact filter_map_of_blind (fun _ => rfl) final.entries

theorem tighten (mapped : Mapped naming exchange first second)
    (blind : Blind exchange) (keepJitEntries : Bool) :
    Agreeing (fun left right =>
        right.1 = left.1 ∧ Mapped naming exchange left.2 right.2)
      (first.tighten keepJitEntries) (second.tighten keepJitEntries) := by
  have sameRepeat : Flow.repeatedLabel? second.instrs =
      Flow.repeatedLabel? first.instrs := by
    rw [Flow.repeatedLabel?, mapped.labels_eq blind.marks_eq,
      Flow.repeatedLabel?]
  rw [Routine.tighten, Routine.tighten, sameRepeat]
  cases Flow.repeatedLabel? first.instrs with
  | some label => exact .error _
  | none =>
      have scanned := blind.scan_map naming mapped.contains_eq keepJitEntries
        { cursor := ⟨[], first.entries⟩ }
      have started :
          Scan.map naming exchange { cursor := ⟨[], first.entries⟩ } =
            { cursor := ⟨[], second.entries⟩ } := by
        rw [mapped.entries_eq]
        rfl
      rw [started] at scanned
      simp only [scanned]
      exact .ok ⟨rfl, Cursor.entries_map naming exchange _,
        mapped.contains_eq⟩

theorem reduce (mapped : Mapped naming exchange first second)
    (blind : Blind exchange) (options : Options) :
    Agreeing (Mapped naming exchange) (first.reduce options)
      (second.reduce options) := by
  have dropped {left right : Routine}
      (same : Mapped naming exchange left right) :
      Mapped naming exchange
        (if options.jitEntries then left else left.dropJitEntries)
        (if options.jitEntries then right else right.dropJitEntries) := by
    split
    · exact same
    · exact same.retain fun entry => congrArg (!·) (blind.jits_eq entry.instr)
  unfold Routine.reduce
  cases options.optimize with
  | false => exact .ok (dropped mapped)
  | true =>
      have tightened := mapped.tighten blind options.jitEntries
      rw [if_pos rfl, if_pos rfl]
      generalize first.tighten options.jitEntries = left at tightened ⊢
      generalize second.tighten options.jitEntries = right at tightened ⊢
      cases tightened with
      | error defect => exact .error defect
      | ok same => exact .ok (dropped same.2)

end Mapped

end Routine

end StackAssembler
