import StackAssembler.Proofs.SoundRuns
import StackAssembler.Proofs.WindowRefinement
import Mathlib

/-!
# Tightening keeps the behaviour

A revision keeps the trace of the code from its window on.  It keeps that of
the whole program as well: up to the window nothing has changed, and a jump
finds its label at the same place, before or behind the window.  So a run of
rewrites refines the trace.  Balanced code does not fail, and for it the trace
stays the same.
-/

namespace StackAssembler

namespace Evaluation

open Flow StackDepth Window Relation

/-- Corresponding places in two programs that differ from a window on: the same
code follows, or the same code up to the window. -/
inductive Linked (old new : List Instr) : List Instr → List Instr → Prop
  | same (rest : List Instr) : Linked old new rest rest
  | upTo (front : List Instr) : Linked old new (front ++ old) (front ++ new)

section Programs

variable {machine : Machine} {temporaries : SlotSet}
  {front old new : List Instr}

theorem linked_codeBehind?
    (behind : ∀ name, codeBehind? new name = codeBehind? old name)
    (front : List Instr) (name : Label) :
    Option.Rel (Linked old new) (codeBehind? (front ++ old) name)
      (codeBehind? (front ++ new) name) := by
  induction front with
  | nil =>
      rw [List.nil_append, List.nil_append, behind]
      cases codeBehind? old name with
      | none => exact .none
      | some rest => exact .some (.same rest)
  | cons instr front ih =>
      rw [List.cons_append, List.cons_append, codeBehind?, codeBehind?]
      split
      · exact .some (.upTo front)
      · exact ih

/-- Runs that start with the same instruction, where what follows it and all
runs with fewer label passes are refined. -/
theorem run_cons_refinedBy {instr : Instr} {rest rest' : List Instr}
    {passes : Nat}
    (behind : ∀ name, codeBehind? new name = codeBehind? old name)
    (fewer : ∀ count < passes, ∀ {rest rest' : List Instr},
      Linked old new rest rest' → ∀ state,
        (run machine temporaries (front ++ old) count rest state).RefinedBy
          (run machine temporaries (front ++ new) count rest' state))
    (linked : Linked old new rest rest')
    (next : ∀ state,
      (run machine temporaries (front ++ old) passes rest state).RefinedBy
        (run machine temporaries (front ++ new) passes rest' state))
    (state : State) :
    (run machine temporaries (front ++ old) passes (instr :: rest)
        state).RefinedBy
      (run machine temporaries (front ++ new) passes (instr :: rest')
        state) := by
  rw [run, run]
  cases step machine temporaries passes state instr with
  | next after => exact next after
  | pass after =>
      cases passes with
      | zero => exact .refl _
      | succ passes => exact fewer passes (Nat.lt_succ_self _) linked _
  | goto name after =>
      have places := linked_codeBehind? behind front name
      dsimp only
      generalize codeBehind? (front ++ old) name = place at places ⊢
      generalize codeBehind? (front ++ new) name = place' at places ⊢
      rcases places with linked | _
      · cases passes with
        | zero => exact .refl _
        | succ passes => exact fewer passes (Nat.lt_succ_self _) linked _
      · exact .refl _
  | done trace => exact .refl trace

/-- A refinement of the code from a window on is one of the whole program. -/
theorem run_refinedBy_of_window
    (behind : ∀ name, codeBehind? new name = codeBehind? old name)
    (window : ∀ passes state,
      (run machine temporaries (front ++ old) passes old state).RefinedBy
        (run machine temporaries (front ++ old) passes new state))
    (passes : Nat) {rest rest' : List Instr}
    (linked : Linked old new rest rest') (state : State) :
    (run machine temporaries (front ++ old) passes rest state).RefinedBy
      (run machine temporaries (front ++ new) passes rest' state) := by
  -- A jump spends a label pass; between jumps the code gets shorter.
  induction passes using Nat.strongRecOn generalizing rest rest' state with
  | ind passes fewer =>
      have same (rest : List Instr) (state : State) :
          (run machine temporaries (front ++ old) passes rest
              state).RefinedBy
            (run machine temporaries (front ++ new) passes rest state) := by
        induction rest generalizing state with
        | nil =>
            rw [run, run]
            exact .refl _
        | cons instr rest ih =>
            exact run_cons_refinedBy behind
              (fun count less _ _ => fewer count less) (.same rest) ih state
      cases linked with
      | same => exact same _ state
      | upTo before =>
          induction before generalizing state with
          | nil => exact (window passes state).trans (same new state)
          | cons instr before ih =>
              exact run_cons_refinedBy behind
                (fun count less _ _ => fewer count less) (.upTo before) ih
                state

end Programs

theorem trace_refinedBy_of_rewrites {temporaries : SlotSet}
    {keepJitEntries : Bool} {before after : List Entry}
    (rewrites : ReflTransGen (Rewrite temporaries keepJitEntries)
      before after)
    (distinct : (labels (before.map (·.instr))).Nodup) (machine : Machine)
    (slots : Slot → UInt32) (register : Int32) (passes : Nat) :
    (trace machine temporaries (before.map (·.instr)) slots register
        passes).RefinedBy
      (trace machine temporaries (after.map (·.instr)) slots register
        passes) := by
  induction rewrites with
  | refl => exact .refl _
  | @tail middle after rewrites rewrite ih =>
      refine ih.trans ?_
      have kept := (carries_of_rewrites rewrites).labels_eq
      obtain ⟨front, old, new, oldEq, newEq, revision⟩ := rewrite.revision
      rw [← kept, oldEq] at distinct
      rw [oldEq] at revision ⊢
      rw [newEq]
      exact run_refinedBy_of_window revision.splice.codeBehind?_eq
        (refinedBy_of_revision revision rfl distinct) passes (.upTo front) _

theorem hasMeaning_of_anchor {add : Adder} {depth : Int}
    {instr anchored : Instr}
    (done : anchor add depth instr = .ok anchored)
    (meaningful : instr.hasMeaning = true) : anchored.hasMeaning = true := by
  rcases eq_or_frameAddr_of_anchor done with rfl | ⟨_, _, rfl, -⟩
  · exact meaningful
  · simp [Instr.hasMeaning] at meaningful

/-- Tightening an accepted routine, all of whose instructions have a meaning,
succeeds and changes the trace of no run. -/
theorem tighten_preserves_trace {routine measured : Routine}
    {analysis : Analysis}
    (accepted : routine.measureDepths = (.ok analysis, measured))
    (meaningful : ∀ instr ∈ routine.instrs, instr.hasMeaning = true)
    (keepJitEntries : Bool) :
    ∃ count tightened,
      measured.tighten keepJitEntries = .ok (count, tightened) ∧
        ∀ machine slots register passes,
          trace machine tightened.temporaries tightened.instrs slots register
              passes =
            trace machine measured.temporaries measured.instrs slots register
              passes := by
  have balanced := balanced_of_measureDepths accepted
  have measuredMeaningful : ∀ entry ∈ measured.entries,
      entry.instr.hasMeaning = true := by
    intro entry member
    obtain ⟨source, inside, depth, done⟩ :=
      exists_anchor_of_measureDepths accepted (List.mem_map_of_mem member)
    exact hasMeaning_of_anchor done (meaningful source inside)
  obtain ⟨count, tightened, done, same, rewrites⟩ :=
    exists_tighten balanced.distinct keepJitEntries
  refine ⟨count, tightened, done, fun machine slots register passes => ?_⟩
  have start : Stands measured.entries measured.instrs 0 :=
    ⟨[], measured.entries, rfl, rfl, fun _ => balanced.start⟩
  rw [same]
  rcases trace_refinedBy_of_rewrites rewrites balanced.distinct machine slots
    register passes with equal | fails
  · exact equal.symm
  · exact absurd fails (not_fails_run balanced measuredMeaningful start)

/-- A loop that counts a slot down, with its start value in a temporary. -/
def countdown : Routine :=
  (Routine.ofList [.setVar4 1 5, .copyVar4 0 1, .label ⟨0⟩, .decVi 0,
    .cmpImm .int 0 0, .test .positive, .branch .notZero (.label ⟨0⟩),
    .pushVar 0, .call .script 7 1, .ret 0]).markTemporary 1

theorem tighten_preserves_trace_countdown :
    countdown.measureDepths.1 = .ok ⟨1, 0, []⟩ ∧
      ∃ count tightened,
        countdown.measureDepths.2.tighten false = .ok (count, tightened) ∧
          ∀ machine slots register passes,
            trace machine tightened.temporaries tightened.instrs slots
                register passes =
              trace machine countdown.measureDepths.2.temporaries
                countdown.measureDepths.2.instrs slots register passes := by
  have accepted : countdown.measureDepths.1 = .ok ⟨1, 0, []⟩ := by cbv
  have meaningful : ∀ instr ∈ countdown.instrs,
      instr.hasMeaning = true := by decide
  exact ⟨accepted,
    tighten_preserves_trace (Prod.ext accepted rfl) meaningful false⟩

end Evaluation

end StackAssembler
