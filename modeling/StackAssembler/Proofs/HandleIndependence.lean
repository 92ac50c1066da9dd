import StackAssembler.Proofs.AssemblyGate
import StackAssembler.Proofs.ParallelRuns

/-!
# Assembly does not depend on handles

Every step of an assembly commutes with a renaming of the handles: it comes to
the same outcome, and leaves the renamed entries of what it leaves otherwise.
The depths from an earlier analysis are forgotten before the first path is
followed, and the handle pool, the line table and the greatest depth of a
routine are only written.  So the assembly of a routine depends on nothing but
its instructions and its temporaries.
-/

namespace StackAssembler

open Layout StackDepth Window

theorem Window.blind_id : Blind id where
  access_eq _ := rfl
  drops_eq _ := rfl
  bars_eq _ := rfl
  plain_eq _ := rfl
  swaps_eq _ := rfl
  marks_eq _ := rfl
  jits_eq _ := rfl
  constant_iff _ _ _ := .rfl
  unusedValue_eq := by simp
  checks_eq := by simp
  simplify_eq := by simp

theorem StackDepth.Requoted.eq_of_id {failure other : Failure}
    (requoted : Requoted id failure other) : other = failure := by
  cases requoted <;> rfl

/-! ## The steps of an assembly -/

namespace Routine

/-- One routine has the entries of another one under other names, and the same
temporaries. -/
abbrev Renamed (naming : Handle → Handle) (first second : Routine) : Prop :=
  Mapped naming id first second

section Renamed

variable {naming : Handle → Handle} {first second : Routine}

theorem Renamed.sameInstrs (renamed : Renamed naming first second) :
    second.instrs = first.instrs := by
  rw [renamed.instrs_eq, List.map_id]

theorem Renamed.mapInstrs (renamed : Renamed naming first second)
    (change : Instr → Instr) :
    Renamed naming (first.mapInstrs change) (second.mapInstrs change) where
  entries_eq := by
    simp [Routine.mapInstrs, renamed.entries_eq, Entry.map, Function.comp_def]
  contains_eq := renamed.contains_eq

theorem Renamed.withInstrs (renamed : Renamed naming first second)
    (code : List Instr) :
    Renamed naming (first.withInstrs code) (second.withInstrs code) where
  entries_eq := by
    simp only [Routine.withInstrs, renamed.entries_eq, List.zipWith_map_left,
      List.map_zipWith]
    rfl
  contains_eq := renamed.contains_eq

theorem Renamed.measured
    (renamed : Renamed naming first.clearDepths second.clearDepths) :
    second.measureDepths.1 = first.measureDepths.1 ∧
      Renamed naming first.measureDepths.2 second.measureDepths.2 := by
  have same (walk : Walk) :
      SameArrival .words first.instrs (first.instrs.map id) id walk := by
    intro index depth pending entry order found
    rw [List.map_id]
    rfl
  obtain ⟨outcomes, left⟩ := @Mapped.measureDepths naming id first second
    (fun _ => True) renamed (fun _ => rfl) (fun _ _ _ _ => trivial)
    (fun walk _ => same walk) trivial
  refine ⟨?_, left⟩
  rcases outcomes with ⟨failure, other, requoted, refused, again⟩ |
    ⟨analysis, accepted, again⟩
  · rw [refused, again, requoted.eq_of_id]
  · rw [accepted, again]

theorem Renamed.resolveJumps (renamed : Renamed naming first second) :
    Agreeing (fun left right =>
        right.1 = left.1 ∧ Renamed naming left.2 right.2)
      first.resolveJumps second.resolveJumps := by
  rw [Routine.resolveJumps, Routine.resolveJumps, renamed.sameInstrs]
  cases resolve first.instrs with
  | error defect => exact .error defect
  | ok code => exact .ok ⟨rfl, renamed.withInstrs code⟩

theorem Renamed.collectLines (renamed : Renamed naming first second) :
    Agreeing (fun left right => right.1 = left.1 ∧
        right.2.lines = left.2.lines ∧ Renamed naming left.2 right.2)
      first.collectLines second.collectLines := by
  rw [Routine.collectLines, Routine.collectLines, renamed.sameInstrs]
  cases recordLines {} 0 first.instrs with
  | error fault => exact .error fault
  | ok lines =>
      have retained := (@Mapped.retain _ _ _ _ renamed
        (fun entry => !vanishes entry.instr) fun _ => rfl)
      have retained := Renamed.mapInstrs retained settleLine
      exact .ok ⟨rfl, rfl, retained.entries_eq, retained.contains_eq⟩

theorem Renamed.finish (renamed : Renamed naming first second)
    (analysis : Analysis) :
    (second.finish analysis).1 = (first.finish analysis).1 ∧
      Renamed naming (first.finish analysis).2 (second.finish analysis).2 := by
  have resolved := renamed.resolveJumps
  unfold Routine.finish
  generalize first.resolveJumps = left at resolved ⊢
  generalize second.resolveJumps = right at resolved ⊢
  cases resolved with
  | error defect => exact ⟨rfl, renamed⟩
  | @ok left right same =>
      have collected := same.2.collectLines
      dsimp only
      generalize left.2.collectLines = lines at collected ⊢
      generalize right.2.collectLines = others at collected ⊢
      cases collected with
      | error fault => exact ⟨rfl, same.2⟩
      | @ok lines others gathered =>
          obtain ⟨-, linesEq, kept⟩ := gathered
          dsimp only
          rw [Renamed.sameInstrs kept, linesEq]
          cases Instr.encode lines.2.instrs with
          | error defect => exact ⟨rfl, kept⟩
          | ok encoded => exact ⟨rfl, kept⟩

/-- An assembly commutes with a renaming, whatever depths there were. -/
theorem Renamed.assemble
    (renamed : Renamed naming first.clearDepths second.clearDepths)
    (options : Options) :
    (second.assemble options).1 = (first.assemble options).1 ∧
      Renamed naming (first.assemble options).2
        (second.assemble options).2 := by
  have cued : Renamed naming (first.setCues options.lineCues).clearDepths
      (second.setCues options.lineCues).clearDepths := by
    have changed := renamed.mapInstrs (·.withCue options.lineCues)
    simpa [setCues, clearDepths, Routine.mapInstrs, Function.comp_def]
      using changed
  obtain ⟨outcomes, measured⟩ := cued.measured
  unfold Routine.assemble
  generalize (first.setCues options.lineCues).measureDepths = result
    at outcomes measured ⊢
  generalize (second.setCues options.lineCues).measureDepths = other
    at outcomes measured ⊢
  obtain ⟨outcome, left⟩ := result
  obtain ⟨same, right⟩ := other
  obtain rfl : same = outcome := outcomes
  cases same with
  | error defect => exact ⟨rfl, measured⟩
  | ok analysis =>
      have reduced := Mapped.reduce measured blind_id options
      dsimp only at reduced ⊢
      generalize left.reduce options = lefts at reduced ⊢
      generalize right.reduce options = rights at reduced ⊢
      cases reduced with
      | error defect => exact ⟨rfl, measured⟩
      | ok same => exact Renamed.finish same analysis

end Renamed

/-- A routine of the given instructions and temporaries that has nothing
else. -/
def bare (code : List Instr) (temporaries : SlotSet) : Routine where
  entries := code.map fun instr => ⟨⟨0, 0⟩, instr, none⟩
  temporaries := temporaries

/-- Every routine is its bare routine once its depths are cleared and its
handles forgotten. -/
theorem renamed_bare {routine : Routine} {temporaries : SlotSet}
    (same : ∀ slot, temporaries.contains slot = routine.isTemporary slot) :
    Renamed (fun _ => ⟨0, 0⟩) routine.clearDepths
      (bare routine.instrs temporaries).clearDepths where
  entries_eq := by
    simp [bare, clearDepths, instrs, Entry.map, Function.comp_def]
  contains_eq := same

@[simp]
theorem instrs_pushAll (routine : Routine) (code : List Instr) :
    (routine.pushAll code).instrs = routine.instrs ++ code := by
  induction code generalizing routine with
  | nil => simp
  | cons instr code ih =>
      have pushed : (routine.push instr).2.instrs =
          routine.instrs ++ [instr] := by
        simp [push, instrs]
      rw [pushAll_cons, ih, pushed, List.append_assoc,
        List.singleton_append]

theorem instrs_ofList (code : List Instr) : (ofList code).instrs = code := by
  rw [ofList, instrs_pushAll]
  rfl

/-- Two routines come to the same outcome and are left with the same
instructions and depths. -/
structure SameAssembly (options : Options) (first second : Routine) :
    Prop where
  outcome_eq : (first.assemble options).1 = (second.assemble options).1
  instrs_eq : (first.assemble options).2.instrs =
    (second.assemble options).2.instrs
  depths_eq : (first.assemble options).2.entries.map (·.depth) =
    (second.assemble options).2.entries.map (·.depth)

theorem SameAssembly.of_instrs_eq {options : Options} {first second : Routine}
    (sameCode : first.instrs = second.instrs)
    (sameTemporaries : ∀ slot,
      first.isTemporary slot = second.isTemporary slot) :
    SameAssembly options first second := by
  have one : Renamed _ first.clearDepths
      (bare first.instrs first.temporaries).clearDepths :=
    renamed_bare fun _ => rfl
  have two : Renamed _ second.clearDepths
      (bare first.instrs first.temporaries).clearDepths :=
    sameCode ▸ renamed_bare sameTemporaries
  obtain ⟨outcome, left⟩ := one.assemble options
  obtain ⟨outcome', left'⟩ := two.assemble options
  exact ⟨outcome.symm.trans outcome', left.sameInstrs.symm.trans left'.sameInstrs,
    left.depths_eq.symm.trans left'.depths_eq⟩

end Routine

end StackAssembler
