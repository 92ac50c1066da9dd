import StackAssembler.Proofs.CueBlindness
import StackAssembler.Proofs.DepthSurvey
import StackAssembler.Proofs.LineSurvival

/-!
# Cues bring checkpoints and nothing else

A routine is assembled twice, once with its lines as cues and once without.
Both assemblies reduce it to the same code but for the cues, and only the layout
of that code tells them apart: a cue takes up code and leaves a suspend point, a
line without a cue leaves nothing.  So the code positions differ, and with them
the distances of jumps and the rows of the line table.  Without the suspend
points that come from lines, and without the distances, the two results are the
same, and the line tables answer alike for all code that they have in common.
-/

namespace StackAssembler

open Instr Layout Relation StackDepth Window

/-! ## Code without distances -/

namespace Instr

/-- A jump or branch without its distance; other instructions are unchanged. -/
def aimless (instr : Instr) : Instr :=
  (instr.retarget? (.offset 0)).getD instr

variable (instr : Instr)

@[simp]
theorem source?_aimless : instr.aimless.source? = instr.source? := by
  cases instr <;> rfl

@[simp]
theorem size_aimless : instr.aimless.size = instr.size := by
  cases instr <;> rfl

theorem aimless_withCue (cue : Bool) :
    (instr.withCue cue).aimless = instr.aimless.withCue cue := by
  cases instr <;> rfl

theorem vanishes_aimless : vanishes instr.aimless = vanishes instr := by
  cases instr <;> rfl

theorem settleLine_aimless :
    settleLine instr.aimless = (settleLine instr).aimless := by
  cases instr <;> rfl

variable {instr}

theorem eq_suspend_of_aimless (suspends : instr.aimless = .suspend) :
    instr = .suspend := by
  cases instr with
  | suspend => rfl
  | _ => cases suspends

theorem codeSize_aimless (code : List Instr) :
    codeSize (code.map aimless) = codeSize code := by
  induction code with
  | nil => rfl
  | cons instr code ih => simp [ih]

end Instr

namespace Layout

theorem lineBy?_aimless (limit position : Nat) (code : List Instr) :
    lineBy? limit position (code.map aimless) =
      lineBy? limit position code := by
  induction code generalizing position with
  | nil => rfl
  | cons instr code ih => simp [lineBy?, ih]

theorem Resolved.aimless_eq {code : List Instr} {position : Nat}
    {instr new : Instr} (resolved : Resolved code position instr new) :
    new.aimless = instr.aimless := by
  cases resolved with
  | kept => rfl
  | turned _ _ turned =>
      obtain ⟨_, rfl, rfl⟩ | ⟨_, _, rfl, rfl⟩ := retarget?_eq_some turned <;>
        rfl

theorem ResolvedFrom.map_aimless {code rest others : List Instr}
    {start : Nat} (resolved : ResolvedFrom code start rest others) :
    others.map aimless = rest.map aimless := by
  induction resolved with
  | nil => rfl
  | cons first _ ih => simp [first.aimless_eq, ih]

end Layout

/-- An entry without the distance of its jump. -/
def Entry.aimless (entry : Entry) : Entry :=
  { entry with instr := entry.instr.aimless }

@[simp]
theorem Entry.handle_aimless (entry : Entry) :
    entry.aimless.handle = entry.handle := rfl

@[simp]
theorem map_instr_aimless (entries : List Entry) :
    (entries.map Entry.aimless).map (·.instr) =
      (entries.map (·.instr)).map Instr.aimless := by
  simp [Entry.aimless, Function.comp_def]

theorem map_aimless_withInstrs {code others : List Instr} {start : Nat}
    {entries : List Entry}
    (resolved : ResolvedFrom code start (entries.map (·.instr)) others) :
    (entries.zipWith (fun entry instr => { entry with instr })
        others).map Entry.aimless = entries.map Entry.aimless := by
  induction entries generalizing start others with
  | nil => simp
  | cons entry entries ih =>
      cases resolved with
      | cons first onward =>
          simp [Entry.aimless, first.aimless_eq, ← ih onward]

theorem collectedEntries_aimless (entries : List Entry) :
    collectedEntries (entries.map Entry.aimless) =
      (collectedEntries entries).map Entry.aimless := by
  simp [collectedEntries, List.filter_map, Function.comp_def, Entry.aimless,
    vanishes_aimless, settleLine_aimless]

/-- What an assembly makes of reduced code: the lines are collected, the jumps
have distances, and the line table answers with the lines of the code. -/
structure Settles (reduced : Routine) (artifact : Artifact) (left : Routine) :
    Prop where
  entries_eq : left.entries.map Entry.aimless =
    collectedEntries (reduced.entries.map Entry.aimless)
  lookup?_eq : ∀ limit,
    artifact.lines.lookup? limit = lineBy? limit 0 reduced.instrs

theorem exists_settles {reduced : Routine}
    (resolvable : Resolvable reduced.instrs) (analysis : Analysis) :
    ∃ artifact left, reduced.finish analysis = (.ok artifact, left) ∧
      artifact.maxDepth = analysis.maxDepth ∧
      artifact.diagnostics = analysis.diagnostics ∧
      Settles reduced artifact left := by
  obtain ⟨_, resolved, _, left, resolvedDone, resolvedFrom, collectedDone,
    -, -, finished⟩ := exists_finish resolvable analysis
  obtain ⟨_, same, sameDone, leftEntries, lookups⟩ :=
    exists_lookup?_collectLines resolved
  obtain rfl : left = same := by
    rw [collectedDone] at sameDone
    exact (Prod.mk.inj (Except.ok.inj sameDone)).2
  refine ⟨_, left, finished, rfl, rfl, ?_, fun limit => ?_⟩
  · obtain ⟨code, resolves, filled⟩ := bind_eq_ok_iff.mp resolvedDone
    obtain ⟨-, rfl⟩ := Prod.mk.inj (Except.ok.inj filled)
    rw [resolve, Flow.repeatedLabel?_eq_none_iff.mpr resolvable.distinct]
      at resolves
    rw [leftEntries, ← collectedEntries_aimless, Routine.withInstrs,
      map_aimless_withInstrs (resolveFrom_eq_ok_iff.mp resolves)]
  · rw [lookups, ← lineBy?_aimless, resolvedFrom.map_aimless, lineBy?_aimless]

/-! ## Entries that come from lines -/

/-- The handles of entries, with the source positions of the lines among
them. -/
def sources (entries : List Entry) : List (Handle × Option SourcePos) :=
  entries.map fun entry => (entry.handle, entry.instr.source?)

@[simp]
theorem sources_cons (entry : Entry) (entries : List Entry) :
    sources (entry :: entries) =
      (entry.handle, entry.instr.source?) :: sources entries := rfl

@[simp]
theorem sources_append (first second : List Entry) :
    sources (first ++ second) = sources first ++ sources second :=
  List.map_append

theorem sources_filter_subset (keep : Entry → Bool) (entries : List Entry) :
    sources (entries.filter keep) ⊆ sources entries :=
  List.map_subset _ (List.filter_subset_self entries)

namespace StackDepth

theorem source?_of_anchor {add : Adder} {depth : Int}
    {instr anchored : Instr}
    (done : anchor add depth instr = .ok anchored) :
    anchored.source? = instr.source? :=
  apply_of_anchor Instr.source? (fun _ _ => rfl) done

theorem Visit.sources_eq {add : Adder} {code : List Instr}
    {walk next : Walk} (visit : Visit add code walk next) :
    sources next.entries = sources walk.entries := by
  cases visit with
  | pass order known => rfl
  | enter order found blank arrived =>
      obtain ⟨done, -⟩ := arrive_eq_ok_iff.mp arrived
      exact map_set_eq found (Prod.ext rfl (source?_of_anchor done))

/-- The analysis makes no line of an instruction, and no instruction of a
line. -/
theorem sources_measureDepths_subset {routine measured : Routine}
    {analysis : Analysis}
    (accepted : routine.measureDepths = (.ok analysis, measured)) :
    sources measured.entries ⊆ sources routine.entries := by
  obtain ⟨-, final, ended, -, rfl⟩ := finished_of_measureDepthsBy accepted
  have kept : sources final.entries = sources routine.entries := by
    have same := (@explore_induction _ _ _ _
      (fun walk => sources walk.entries = sources routine.entries)
      (fun _ _ visit before => visit.sources_eq.trans before)
      (by simp [start, sources, Routine.clearDepths, Function.comp_def])
      ended).1
    exact same
  rw [← kept]
  exact sources_filter_subset _ _

end StackDepth

namespace Window

theorem LineSafe.sources_fill {code : List Instr} {patch : Patch}
    (safe : LineSafe code patch) {window : List Entry}
    (same : window.map (·.instr) = code) :
    sources (patch.fill window) ⊆ sources window := by
  induction safe generalizing window with
  | done code => exact List.Subset.refl _
  | drop _ _ ih | dropLine _ _ ih =>
      obtain ⟨entry, rest, rfl, -, rfl⟩ := List.map_eq_cons_iff.mp same
      exact List.Subset.trans (ih rfl) (List.subset_cons_self _ _)
  | put sameLoose sameSource safe ih =>
      obtain ⟨entry, rest, rfl, rfl, rfl⟩ := List.map_eq_cons_iff.mp same
      rw [Patch.fill, sources_cons, sources_cons, sameSource]
      exact List.cons_subset_cons _ (ih rfl)

theorem Rewrite.sources_subset {temporaries : SlotSet}
    {keepJitEntries : Bool} {before after : List Entry}
    (rewrite : Rewrite temporaries keepJitEntries before after) :
    sources after ⊆ sources before := by
  cases rewrite with
  | patch rule =>
      intro pair member
      rw [sources_append, List.mem_append] at member ⊢
      exact member.imp_right fun filled =>
        rule.lineSafe.sources_fill rfl filled
  | postpone =>
      intro pair member
      simp only [sources_append, sources_cons, List.mem_append,
        List.mem_cons] at member ⊢
      tauto
  | exchange =>
      intro pair member
      simp only [sources_append, sources_cons, List.mem_append,
        List.mem_cons] at member ⊢
      tauto

theorem sources_of_rewrites {temporaries : SlotSet} {keepJitEntries : Bool}
    {before after : List Entry}
    (rewrites : ReflTransGen (Rewrite temporaries keepJitEntries)
      before after) : sources after ⊆ sources before :=
  @related_of_rewrites _ _ _ _ rewrites
    (fun before after => sources after ⊆ sources before)
    (fun _ => List.Subset.refl _)
    (fun early late => List.Subset.trans late early) Rewrite.sources_subset

end Window

theorem isLine_eq_isSome_source? (instr : Instr) :
    isLine instr = instr.source?.isSome := by
  cases instr <;> rfl

def Routine.namesLine (routine : Routine) (handle : Handle) : Bool :=
  routine.entries.any fun entry =>
    entry.handle = handle && isLine entry.instr

/-- An entry is a line exactly if its handle names a line of the routine that it
comes from. -/
theorem namesLine_of_sources {routine : Routine} {entries : List Entry}
    (distinct : routine.handles.Nodup)
    (subset : sources entries ⊆ sources routine.entries) {entry : Entry}
    (member : entry ∈ entries) :
    routine.namesLine entry.handle = isLine entry.instr := by
  obtain ⟨origin, inside, equal⟩ :=
    List.mem_map.mp (subset (List.mem_map_of_mem member))
  obtain ⟨sameHandle, sameSource⟩ := Prod.mk.inj equal
  have sameKind : isLine origin.instr = isLine entry.instr := by
    rw [isLine_eq_isSome_source?, sameSource, ← isLine_eq_isSome_source?]
  rw [← sameKind, Bool.eq_iff_iff, Routine.namesLine, List.any_eq_true]
  constructor
  · rintro ⟨other, otherInside, matched⟩
    simp only [Bool.and_eq_true, decide_eq_true_eq] at matched
    obtain rfl := List.inj_on_of_nodup_map distinct otherInside inside
      (matched.1.trans sameHandle.symm)
    exact matched.2
  · intro line
    exact ⟨origin, inside, by simp [sameHandle, line]⟩

/-- An entry with a suspend point in place of a line. -/
def Entry.settle (entry : Entry) : Entry :=
  { entry with instr := settleLine entry.instr }

@[simp]
theorem Entry.handle_settle (entry : Entry) :
    entry.settle.handle = entry.handle := rfl

theorem Entry.settle_of_noLine {entry : Entry}
    (noLine : isLine entry.instr = false) : entry.settle = entry := by
  obtain ⟨handle, instr, depth⟩ := entry
  cases instr with
  | line => cases noLine
  | _ => rfl

theorem collectedEntries_uncued (entries : List Entry) :
    collectedEntries (entries.map (·.recue false)) =
      entries.filter fun entry => !isLine entry.instr := by
  induction entries with
  | nil => rfl
  | cons entry entries ih =>
      obtain ⟨handle, instr, depth⟩ := entry
      cases instr with
      | line => exact ih
      | _ => exact congrArg (_ :: ·) ih

theorem collectedEntries_cued (entries : List Entry) :
    collectedEntries (entries.map (·.recue true)) =
      entries.map Entry.settle := by
  induction entries with
  | nil => rfl
  | cons entry entries ih =>
      obtain ⟨handle, instr, depth⟩ := entry
      cases instr <;> exact congrArg (_ :: ·) ih

/-! ## The two assemblies -/

/-- Two results of assembling a routine, without cues and with them, differ in
nothing but suspend points that come from lines, and in what depends on code
positions. -/
structure CheckpointsOnly (routine : Routine) (plain : Artifact)
    (plainLeft : Routine) (cued : Artifact) (cuedLeft : Routine) :
    Prop where
  maxDepth_eq : cued.maxDepth = plain.maxDepth
  diagnostics_eq : cued.diagnostics = plain.diagnostics
  /-- What comes from a line is a suspend point. -/
  suspends : ∀ entry ∈ cuedLeft.entries,
    routine.namesLine entry.handle = true → entry.instr = .suspend
  /-- All the rest is the same but for the distances of jumps. -/
  entries_eq :
    (cuedLeft.entries.filter fun entry =>
        !routine.namesLine entry.handle).map Entry.aimless =
      plainLeft.entries.map Entry.aimless
  /-- The line tables answer alike for what takes up code. -/
  lookup?_eq : ∀ handle front entry back,
    plainLeft.locate handle = .ok (front, entry, back) →
      entry.instr.size ≠ 0 →
        ∃ ahead same behind,
          cuedLeft.locate handle = .ok (ahead, same, behind) ∧
          same.aimless = entry.aimless ∧
          cued.lines.lookup? (codeSize (ahead.map (·.instr))) =
            plain.lines.lookup? (codeSize (front.map (·.instr)))

/-- A split of the entries that a filter keeps comes from a split of all
entries. -/
theorem exists_split_of_filter {keep : Entry → Bool}
    {entries front back : List Entry} {entry : Entry}
    (split : entries.filter keep = front ++ entry :: back) :
    ∃ ahead behind, entries = ahead ++ entry :: behind ∧
      keep entry = true ∧ ahead.filter keep = front := by
  obtain ⟨early, late, rfl, earlyKept, lateKept⟩ :=
    List.filter_eq_append_iff.mp split
  obtain ⟨skipped, behind, rfl, dropped, kept, -⟩ :=
    List.filter_eq_cons_iff.mp lateKept
  refine ⟨early ++ skipped, behind, by simp, kept, ?_⟩
  rw [List.filter_append, earlyKept, List.filter_eq_nil_iff.mpr dropped,
    List.append_nil]

section Comparison

variable {routine reduced recued plainLeft cuedLeft : Routine}
  {plain cued : Artifact}

theorem aimless_recue (cue : Bool) (entries : List Entry) :
    (entries.map (·.recue cue)).map Entry.aimless =
      (entries.map Entry.aimless).map (·.recue cue) := by
  simp [Entry.aimless, Entry.map, Function.comp_def, aimless_withCue]

theorem lastLine?_recue (cue : Bool) (code : List Instr) :
    lastLine? (Instr.recue cue code) = lastLine? code := by
  simp [lastLine?, Instr.recue, List.filterMap_map]

theorem Settles.entries_recued {cue : Bool}
    (settles : Settles recued cued cuedLeft)
    (sameCode : Routine.Recued cue reduced recued) :
    cuedLeft.entries.map Entry.aimless =
      collectedEntries
        ((reduced.entries.map Entry.aimless).map (·.recue cue)) := by
  rw [settles.entries_eq, sameCode.entries_eq, aimless_recue]

/-- Whatever the cues are, the line table answers for an instruction with the
last line in front of it. -/
theorem Settles.lookup?_of_split {cue : Bool}
    (settles : Settles recued cued cuedLeft)
    (sameCode : Routine.Recued cue reduced recued)
    {ahead behind front : List Entry} {entry : Entry}
    (split : reduced.entries.map Entry.aimless = ahead ++ entry :: behind)
    (noLine : entry.instr.source? = none) (sized : entry.instr.size ≠ 0)
    (inFront : front.map Entry.aimless =
      collectedEntries (ahead.map (·.recue cue))) :
    cued.lines.lookup? (codeSize (front.map (·.instr))) =
      lastLine? (ahead.map (·.instr)) := by
  have limit : codeSize (front.map (·.instr)) =
      codeSize (Instr.recue cue (ahead.map (·.instr))) := by
    rw [← codeSize_aimless, ← map_instr_aimless, inFront,
      map_instr_collectedEntries, codeSize_collected, map_instr_recue]
  have code : recued.instrs.map Instr.aimless =
      Instr.recue cue (ahead.map (·.instr)) ++ entry.instr ::
        Instr.recue cue (behind.map (·.instr)) := by
    rw [Routine.instrs, ← map_instr_aimless, sameCode.entries_eq,
      aimless_recue, split, map_instr_recue]
    simp [Instr.recue, withCue_of_noLine noLine]
  rw [settles.lookup?_eq, ← lineBy?_aimless, code, limit,
    lineBy?_middle noLine sized, lastLine?_recue]

variable (distinct : routine.handles.Nodup)
  (subset : sources reduced.entries ⊆ sources routine.entries)

section Handles

include distinct subset

/-- Handles tell the lines apart also when distances are left out. -/
theorem namesLine_of_mem_aimless {entry : Entry}
    (member : entry ∈ reduced.entries.map Entry.aimless) :
    routine.namesLine entry.handle = isLine entry.instr := by
  have same : sources (reduced.entries.map Entry.aimless) =
      sources reduced.entries := by
    simp [sources, Entry.aimless, Function.comp_def]
  exact namesLine_of_sources distinct (same ▸ subset) member

/-- What stands in front with cues has another handle, if what stands in front
without cues has. -/
theorem handle_ne_in_front {early late front ahead : List Entry}
    {entry : Entry}
    (split : reduced.entries.map Entry.aimless = early ++ entry :: late)
    (noLine : isLine entry.instr = false)
    (inFront : (early.filter fun entry => !isLine entry.instr) =
      front.map Entry.aimless)
    (first : ∀ other ∈ front, other.handle ≠ entry.handle)
    (inFrontCued : ahead.map Entry.aimless = early.map Entry.settle) :
    ∀ other ∈ ahead, other.handle ≠ entry.handle := by
  intro other member sameHandle
  have inside : other.aimless ∈ early.map Entry.settle :=
    inFrontCued ▸ List.mem_map_of_mem member
  obtain ⟨origin, originInside, settled⟩ := List.mem_map.mp inside
  have originHandle : origin.handle = entry.handle := by
    simpa [sameHandle] using congrArg Entry.handle settled
  have originKind := namesLine_of_mem_aimless distinct subset
    (show origin ∈ _ by rw [split]; simp [originInside])
  have entryKind := namesLine_of_mem_aimless distinct subset
    (show entry ∈ _ by rw [split]; simp)
  -- The handle names no line, so the origin is kept without cues as well.
  have unlike : isLine origin.instr = false := by
    rw [← originKind, originHandle, entryKind, noLine]
  have found : origin ∈ front.map Entry.aimless := by
    rw [← inFront]
    exact List.mem_filter.mpr ⟨originInside, by simp [unlike]⟩
  obtain ⟨source, sourceInside, rfl⟩ := List.mem_map.mp found
  exact first source sourceInside originHandle

end Handles

variable (uncued : Routine.Recued false reduced reduced)
  (allCued : Routine.Recued true reduced recued)
  (settles : Settles reduced plain plainLeft)
  (cuedSettles : Settles recued cued cuedLeft)

include distinct subset allCued cuedSettles

theorem suspend_of_namesLine {entry : Entry}
    (member : entry ∈ cuedLeft.entries)
    (line : routine.namesLine entry.handle = true) :
    entry.instr = .suspend := by
  have settled : entry.aimless ∈
      (reduced.entries.map Entry.aimless).map Entry.settle := by
    rw [← collectedEntries_cued, ← cuedSettles.entries_recued allCued]
    exact List.mem_map_of_mem member
  obtain ⟨origin, inside, same⟩ := List.mem_map.mp settled
  have sameHandle : origin.handle = entry.handle := by
    simpa using congrArg Entry.handle same
  have marker : isLine origin.instr = true := by
    rw [← namesLine_of_mem_aimless distinct subset inside, sameHandle, line]
  have suspends : settleLine origin.instr = .suspend := by
    cases kind : origin.instr with
    | line => rfl
    | _ => simp [kind, isLine] at marker
  exact eq_suspend_of_aimless
    ((congrArg Entry.instr same).symm.trans suspends)

include uncued settles

theorem entries_without_suspends :
    (cuedLeft.entries.filter fun entry =>
        !routine.namesLine entry.handle).map Entry.aimless =
      plainLeft.entries.map Entry.aimless := by
  have apart : (cuedLeft.entries.map Entry.aimless).filter
        (fun entry => !routine.namesLine entry.handle) =
      (cuedLeft.entries.filter fun entry =>
        !routine.namesLine entry.handle).map Entry.aimless :=
    List.filter_map
  rw [← apart, cuedSettles.entries_recued allCued,
    settles.entries_recued uncued, collectedEntries_cued,
    collectedEntries_uncued, List.filter_map]
  have sameKept : (reduced.entries.map Entry.aimless).filter
        ((fun entry => !routine.namesLine entry.handle) ∘ Entry.settle) =
      (reduced.entries.map Entry.aimless).filter fun entry =>
        !isLine entry.instr :=
    List.filter_congr fun entry member => congrArg (!·)
      (namesLine_of_mem_aimless distinct subset member)
  rw [sameKept]
  refine (List.map_congr_left fun entry member => ?_).trans (List.map_id _)
  exact Entry.settle_of_noLine (by simpa using (List.mem_filter.mp member).2)

theorem exists_locate_alike {handle : Handle} {front back : List Entry}
    {entry : Entry}
    (located : plainLeft.locate handle = .ok (front, entry, back))
    (sized : entry.instr.size ≠ 0) :
    ∃ ahead same behind,
      cuedLeft.locate handle = .ok (ahead, same, behind) ∧
      same.aimless = entry.aimless ∧
      cued.lines.lookup? (codeSize (ahead.map (·.instr))) =
        plain.lines.lookup? (codeSize (front.map (·.instr))) := by
  rw [Routine.locate_eq_ok_iff, Routine.splitAt?_eq_some_iff] at located
  obtain ⟨whole, rfl, first⟩ := located
  have plainSplit := settles.entries_recued uncued
  rw [collectedEntries_uncued, whole, List.map_append, List.map_cons]
    at plainSplit
  obtain ⟨early, late, split, kept, inFront⟩ :=
    exists_split_of_filter plainSplit.symm
  have noLine : isLine entry.aimless.instr = false := by simpa using kept
  have cuedSplit := cuedSettles.entries_recued allCued
  rw [collectedEntries_cued, split, List.map_append, List.map_cons,
    Entry.settle_of_noLine noLine] at cuedSplit
  obtain ⟨ahead, rest, cuedWhole, aheadSame, restSame⟩ :=
    List.map_eq_append_iff.mp cuedSplit
  obtain ⟨same, behind, rfl, alike, -⟩ := List.map_eq_cons_iff.mp restSame
  have apart : ∀ other ∈ ahead, other.handle ≠ entry.aimless.handle :=
    handle_ne_in_front distinct subset split noLine inFront first aheadSame
  refine ⟨ahead, same, behind, ?_, alike, ?_⟩
  · rw [Routine.locate_eq_ok_iff, Routine.splitAt?_eq_some_iff]
    have sameHandle : same.handle = entry.handle := by
      simpa using congrArg Entry.handle alike
    exact ⟨cuedWhole, sameHandle, apart⟩
  · have noSource : entry.aimless.instr.source? = none := by
      simpa [isLine_eq_isSome_source?] using noLine
    have takesRoom : entry.aimless.instr.size ≠ 0 := by
      simpa [Entry.aimless] using sized
    rw [cuedSettles.lookup?_of_split allCued split noSource takesRoom
        (aheadSame.trans (collectedEntries_cued early).symm),
      settles.lookup?_of_split uncued split noSource takesRoom
        (inFront.symm.trans (collectedEntries_uncued early).symm)]

end Comparison

theorem sources_setCues (routine : Routine) (cue : Bool) :
    sources (routine.setCues cue).entries = sources routine.entries := by
  simp [sources, Routine.setCues, Routine.mapInstrs, Function.comp_def]

theorem Stages.sources_subset {routine left measured reduced : Routine}
    {options : Options} {artifact : Artifact} {analysis : Analysis}
    (stages : Stages routine options artifact left analysis measured
      reduced) : sources reduced.entries ⊆ sources routine.entries := by
  obtain ⟨tightened, rewrites, -, kept⟩ := stages.exists_tightened
  have early := sources_measureDepths_subset stages.accepted
  rw [sources_setCues] at early
  rw [kept]
  exact List.Subset.trans (sources_filter_subset _ _)
    (List.Subset.trans (sources_of_rewrites rewrites) early)

theorem exists_settled_assembly {routine measured : Routine}
    {options : Options} {analysis : Analysis}
    (accepted : (routine.setCues options.lineCues).measureDepths =
      (.ok analysis, measured)) :
    ∃ reduced artifact left, measured.reduce options = .ok reduced ∧
      routine.assemble options = (.ok artifact, left) ∧
      artifact.maxDepth = analysis.maxDepth ∧
      artifact.diagnostics = analysis.diagnostics ∧
      Settles reduced artifact left ∧
      sources reduced.entries ⊆ sources routine.entries := by
  obtain ⟨_, _, reduced, -, stages⟩ := stages_of_accepted accepted
  obtain ⟨same, done, resolvable, -⟩ := exists_resolvable_reduce accepted
  obtain rfl : reduced = same :=
    Except.ok.inj (stages.reduced_eq.symm.trans done)
  obtain ⟨artifact, left, finished, depth, notes, settles⟩ :=
    exists_settles resolvable analysis
  exact ⟨reduced, artifact, left, done,
    (assemble_of_reduce accepted done).trans finished, depth, notes, settles,
    stages.sources_subset⟩

/-- A loop with a suspend point of its own, lines that meet, and a line in front
of its return. -/
def stepping : NamedRoutine where
  toRoutine := Routine.ofList [.label ⟨0⟩, .line ⟨1, 1⟩ false,
    .line ⟨2, 5⟩ true, .suspend, .line ⟨3, 1⟩ true, .copyVarToReg4 1,
    .branch .zero (.label ⟨0⟩), .push 0, .line ⟨4, 2⟩ false, .ret 0]
  nodup_handles := by decide

end StackAssembler
