import StackAssembler.Proofs.CueBlindRules
import StackAssembler.Proofs.ParallelRuns

/-!
# Steps that are blind to cues

Up to the layout of the code, no step of an assembly looks at the cue of a line
marker.  The window scan, the depth walk and the removal of entry points commute
with setting all cues, as long as jumps name labels: a jump over a distance
would count the code that cues stand for.  Only the text in which a conflict of
depths quotes a line shows its cue.
-/

namespace StackAssembler

open Instr StackDepth Window

/-! ## The window scan -/

abbrev Entry.recue (cue : Bool) (entry : Entry) : Entry :=
  entry.map id (·.withCue cue)

@[simp]
theorem Entry.instr_recue (cue : Bool) (entry : Entry) :
    (entry.recue cue).instr = entry.instr.withCue cue := rfl

@[simp]
theorem map_instr_recue (cue : Bool) (entries : List Entry) :
    (entries.map (·.recue cue)).map (·.instr) =
      Instr.recue cue (entries.map (·.instr)) :=
  map_instr_map id _ entries

theorem Window.blind_withCue (cue : Bool) : Blind (·.withCue cue) where
  access_eq instr := instr.access_withCue cue
  drops_eq instr := instr.dropsTemporaries_withCue cue
  bars_eq instr := instr.isBarrier_withCue cue
  plain_eq instr := instr.isPlainPush_withCue cue
  swaps_eq instr := instr.isSwap_withCue cue
  marks_eq instr := instr.marks?_withCue cue
  jits_eq instr := instr.isJitEntry_withCue cue
  constant_iff instr slot value := by
    rcases instr.withCue_cases cue with ⟨pos, old, rfl⟩ | ⟨-, same⟩
    · simp [withCue]
    · rw [same]
  unusedValue_eq temporaries keepJitEntries code window :=
    (recued_scopeOf cue temporaries keepJitEntries code).unusedValue window
  checks_eq window := checks_recue cue window
  simplify_eq temporaries keepJitEntries code window :=
    (recued_scopeOf cue temporaries keepJitEntries code).simplify window

/-! ## The depth walk -/

/-- A jump or branch names a label; all other instructions name nothing. -/
def Instr.namesLabel (instr : Instr) : Bool :=
  instr.target?.all (·.label?.isSome)

/-- Failures that differ in nothing but the cue of a line that they quote. -/
inductive Failure.SameButCue : Failure → Failure → Prop
  | same (failure : Failure) : SameButCue failure failure
  | quoted (pos : SourcePos) (cue other : Bool) (recorded incoming : Int) :
      SameButCue
        (.defect (.depthMismatch (Instr.line pos cue).text recorded incoming))
        (.defect (.depthMismatch (Instr.line pos other).text recorded incoming))

namespace StackDepth

theorem Requoted.sameButCue {cue : Bool} {failure other : Failure}
    (requoted : Requoted (·.withCue cue) failure other) :
    Failure.SameButCue failure other := by
  cases requoted with
  | same => exact .same failure
  | quoted instr recorded incoming =>
      rcases instr.withCue_cases cue with ⟨pos, old, rfl⟩ | ⟨-, same⟩
      · exact .quoted pos old cue recorded incoming
      · simp only [same]
        exact .same _

section Arrivals

variable (cue : Bool) (code : List Instr) (index : Nat)

theorem labelIndex?_recue (name : Label) :
    Flow.labelIndex? (Instr.recue cue code) name =
      Flow.labelIndex? code name := by
  simp [Flow.labelIndex?, Instr.recue, List.findIdx?_map, Function.comp_def]

variable {instr : Instr} (named : instr.namesLabel = true)

include named

theorem successors_recue :
    Flow.successors (Instr.recue cue code) index (instr.withCue cue) =
      Flow.successors code index instr := by
  cases instr with
  | jump target | branch _ target =>
      cases target with
      | label name =>
          simp only [Flow.successors, withCue, Flow.destination,
            labelIndex?_recue]
      | offset distance => cases named
  | jumpPtr slot fanOut =>
      simp only [Flow.successors, withCue, Instr.recue, List.length_map]
  | _ => rfl

/-- An arrival at a depth that is not negative does not see the cue. -/
theorem arrive_recue (add : Adder) [add.Exact] {depth : Int}
    (notBelow : 0 ≤ depth) :
    arrive add (Instr.recue cue code) index depth (instr.withCue cue) =
      (arrive add code index depth instr).map (·.withCue cue) id := by
  have onward := successors_recue cue code index named
  rcases instr.withCue_cases cue with ⟨pos, old, rfl⟩ | ⟨noLine, same⟩
  · have level : depthAfter add depth (.line pos cue) =
        depthAfter add depth (.line pos old) := by
      unfold depthAfter
      rw [show (line pos cue).stackChange = 0 from rfl,
        show (line pos old).stackChange = 0 from rfl]
      cases added : total add depth 0 with
      | error failure => rfl
      | ok after =>
          have exact := Adder.Exact.eq_add (total_eq_ok_iff.mp added)
          have kept : ¬ after < 0 := by omega
          simp only [bind, Except.bind, if_neg kept]
    simp only [arrive, anchor, withCue, level, Prod.map, id]
    rfl
  · rw [same] at onward ⊢
    unfold arrive
    cases done : anchor add depth instr with
    | error failure => simp only [same, Prod.map, id]
    | ok anchored =>
        have plain : anchored.source? = none := by
          rcases eq_or_frameAddr_of_anchor done with rfl | ⟨_, _, rfl, rfl⟩
          · exact noLine
          · rfl
        simp only [successors_of_anchor done, onward,
          withCue_of_noLine plain, Prod.map, id]

end Arrivals

/-- The jumps of a walk name labels, and nothing is pending at a negative
depth. -/
structure Walk.Steady (walk : Walk) : Prop where
  named : ∀ entry ∈ walk.entries, entry.instr.namesLabel = true
  notBelow : ∀ visit ∈ walk.pending, 0 ≤ visit.2

theorem namesLabel_of_anchor {add : Adder} {depth : Int}
    {instr anchored : Instr} (done : anchor add depth instr = .ok anchored)
    (named : instr.namesLabel = true) : anchored.namesLabel = true := by
  rcases eq_or_frameAddr_of_anchor done with rfl | ⟨_, _, rfl, rfl⟩
  · exact named
  · rfl

section Walks

variable {add : Adder} {code : List Instr} {walk next : Walk}

theorem Visit.steady (visit : Visit add code walk next)
    (steady : walk.Steady) : next.Steady := by
  cases visit with
  | pass order known =>
      refine ⟨steady.named, fun later member => ?_⟩
      exact steady.notBelow later (by rw [order]; simp [member])
  | enter order found blank arrived =>
      obtain ⟨done, -, notBelow, -⟩ := arrive_eq_ok_iff.mp arrived
      constructor
      · intro entry member
        rcases List.mem_or_eq_of_mem_set member with inside | rfl
        · exact steady.named entry inside
        · exact namesLabel_of_anchor done
            (steady.named _ (List.mem_of_getElem? found))
      · intro later member
        rcases List.mem_append.mp member with added | pending
        · obtain ⟨place, -, rfl⟩ := List.mem_map.mp added
          exact notBelow
        · exact steady.notBelow later (by rw [order]; simp [pending])

/-- At the next pending place of a steady walk, no cue is seen. -/
theorem Walk.Steady.sameArrival [add.Exact] (steady : walk.Steady)
    (cue : Bool) :
    SameArrival add code (Instr.recue cue code) (·.withCue cue) walk := by
  intro index depth pending entry order found
  have named := steady.named entry (List.mem_of_getElem? found)
  have notBelow : 0 ≤ depth :=
    steady.notBelow (index, depth) (by rw [order]; simp)
  exact arrive_recue cue code index named add notBelow

end Walks

end StackDepth

/-! ## From the routine to its reduced code -/

namespace Routine

/-- One routine is another one with its cues set. -/
abbrev Recued (cue : Bool) (first second : Routine) : Prop :=
  Mapped id (·.withCue cue) first second

theorem recued_setCues (routine : Routine) (cue other : Bool) :
    Recued cue (routine.setCues other) (routine.setCues cue) where
  entries_eq := by
    simp [setCues, mapInstrs, Entry.map, Function.comp_def]
  contains_eq _ := rfl

namespace Recued

variable {cue : Bool} {first second : Routine}
  (recued : Recued cue first second)

include recued

/-- Where jumps name labels, the depths are found or missed with any cues. -/
theorem measured (named : ∀ instr ∈ first.instrs, instr.namesLabel = true) :
    (∃ failure other, Failure.SameButCue failure other ∧
      first.measureDepths.1 = .error failure ∧
      second.measureDepths.1 = .error other) ∨
    ∃ analysis, first.measureDepths.1 = .ok analysis ∧
      second.measureDepths.1 = .ok analysis ∧
      Recued cue first.measureDepths.2 second.measureDepths.2 := by
  have steady : (start first).Steady := by
    refine ⟨fun entry member => ?_, by simp [start]⟩
    obtain ⟨index, found⟩ := List.getElem?_of_mem member
    exact named _ (List.mem_of_getElem? (blank_start found).2)
  obtain ⟨outcomes, left⟩ := recued.clearDepths.measureDepths
    (fun instr => instr.marks?_withCue cue) (fun _ _ visit => visit.steady)
    (fun _ steady => steady.sameArrival cue) steady
  rcases outcomes with ⟨failure, other, requoted, refused⟩ |
    ⟨analysis, accepted, again⟩
  · exact .inl ⟨failure, other, requoted.sameButCue, refused⟩
  · exact .inr ⟨analysis, accepted, again, left⟩

end Recued

end Routine

end StackAssembler
