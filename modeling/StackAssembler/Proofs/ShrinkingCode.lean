import StackAssembler.Proofs.ControlGraph
import StackAssembler.Proofs.Rewriting
import Mathlib.Data.List.Permutation
import Mathlib.Order.Nat

/-!
# Tightening never makes code bigger

A change of the scan makes code lighter, so there are at most as many changes
as weight is lost.  Only loads of a global that keep its address weigh more
than any other instruction: two instructions may become such a load, and the
load may lose its slot and become a plain one again, each time with a loss of
weight.  Moving a constant on its own is no change and loses nothing.

Weight does not bound the code units, since instructions of the same weight
differ in size.  That no rule puts more code units than it takes away is
checked rule by rule.
-/

namespace StackAssembler

namespace Instr

/-- A load of the address of a global together with a read of its value. -/
def isGlobalRead : Instr → Bool
  | loadGlobalReadReg4 .. => true
  | _ => false

theorem weight_eq (instr : Instr) :
    instr.weight = 2 + if instr.isGlobalRead then 1 else 0 := by
  cases instr <;> rfl

/-- An instruction weighs two, and one more if it is a load of a global that
keeps its address. -/
theorem totalWeight_eq (code : List Instr) :
    totalWeight code = 2 * code.length + code.countP isGlobalRead := by
  induction code with
  | nil => rfl
  | cons instr code ih =>
      rw [totalWeight_cons, ih, List.length_cons, List.countP_cons, weight_eq]
      omega

end Instr

theorem Patch.length_fillInstrs_le (patch : Patch) (code : List Instr) :
    (patch.fillInstrs code).length ≤ code.length := by
  fun_induction Patch.fillInstrs patch code with
  | case1 code => exact le_refl _
  | case2 => exact le_refl _
  | case3 instr patch _ code ih => simpa using ih
  | case4 patch _ code ih => exact ih.trans (Nat.le_succ _)

namespace Window

open Instr Relation

/-- Code has not become longer, neither in instructions nor in code units. -/
structure Shrinks (before after : List Instr) : Prop where
  length_le : after.length ≤ before.length
  codeSize_le : codeSize after ≤ codeSize before

theorem Shrinks.refl (code : List Instr) : Shrinks code code :=
  ⟨le_refl _, le_refl _⟩

theorem Shrinks.trans {first second third : List Instr}
    (early : Shrinks first second) (late : Shrinks second third) :
    Shrinks first third where
  length_le := late.length_le.trans early.length_le
  codeSize_le := late.codeSize_le.trans early.codeSize_le

theorem Shrinks.behind {before after : List Instr}
    (shrinks : Shrinks before after) (front : List Instr) :
    Shrinks (front ++ before) (front ++ after) where
  length_le := by simpa using shrinks.length_le
  codeSize_le := by simpa using shrinks.codeSize_le

theorem Rule.codeSize_le {scope : Scope} {window : List Instr} {patch : Patch}
    (rule : Rule scope window patch) :
    codeSize (patch.fillInstrs window) ≤ codeSize window := by
  cases rule with
  | discardUnit pushes =>
      cases pushes <;>
        simp only [Patch.fillInstrs, codeSize_cons, size, shape, Shape.size] <;>
        omega
  | _ =>
      simp only [Patch.fillInstrs, codeSize_cons, size, shape, Shape.size]
      omega

theorem Revision.shrinks {temporaries : SlotSet} {keepJitEntries : Bool}
    {code before after : List Instr}
    (revision : Revision temporaries keepJitEntries code before after) :
    Shrinks before after := by
  cases revision with
  | patch rule => exact ⟨Patch.length_fillInstrs_le _ _, rule.codeSize_le⟩
  | postpone =>
      constructor
      · simp only [List.length_cons, List.length_append]
        omega
      · simp only [codeSize_cons, codeSize_append]
        omega
  | exchange =>
      constructor
      · simp
      · simp only [codeSize_cons]
        omega

theorem shrinks_of_rewrites {temporaries : SlotSet} {keepJitEntries : Bool}
    {before after : List Entry}
    (rewrites : ReflTransGen (Rewrite temporaries keepJitEntries)
      before after) :
    Shrinks (before.map (·.instr)) (after.map (·.instr)) :=
  instrs_related_of_rewrites rewrites .refl .trans fun revision =>
    revision.shrinks.behind _

/-- Each change that the scan counts is paid for with weight. -/
theorem changes_add_weight_scan_le (temporaries : SlotSet)
    (keepJitEntries : Bool) (state : Scan) :
    (scan temporaries keepJitEntries state).changes +
        (scan temporaries keepJitEntries state).cursor.weight ≤
      state.changes + state.cursor.weight := by
  fun_induction scan temporaries keepJitEntries state with
  | case1 state window again ih =>
      rw [weight_restart] at ih
      exact ih
  | case2 => exact le_refl _
  | case3 state entry rest window change made ih =>
      have lighter := weight_changeAt_lt made
      dsimp only at ih
      omega
  | case4 state entry rest window unmatched ih =>
      rw [weight_advance window] at ih
      exact ih

end Window

/-- Tightening ends and never makes code bigger.  For a routine with distinct
labels, the number of changes is at most what the code loses in weight: twice
its length and one for each load of a global that keeps its address.  Neither
the number of instructions nor the number of code units grows. -/
theorem tighten_never_grows {routine : Routine}
    (distinct : (Flow.labels routine.instrs).Nodup) (keepJitEntries : Bool) :
    ∃ count tightened,
      routine.tighten keepJitEntries = .ok (count, tightened) ∧
        count + (2 * tightened.entries.length +
            tightened.instrs.countP Instr.isGlobalRead) ≤
          2 * routine.entries.length +
            routine.instrs.countP Instr.isGlobalRead ∧
        tightened.entries.length ≤ routine.entries.length ∧
        tightened.codeSize ≤ routine.codeSize := by
  obtain ⟨result, scanned, done⟩ :=
    Window.tighten_eq_scan distinct keepJitEntries
  have paid := Window.changes_add_weight_scan_le routine.temporaries
    keepJitEntries { cursor := ⟨[], routine.entries⟩ }
  have shrinks := Window.shrinks_of_rewrites
    (@Window.rewrites_scan routine.temporaries keepJitEntries
      { cursor := ⟨[], routine.entries⟩ })
  rw [scanned] at paid shrinks
  refine ⟨_, _, done, ?_, ?_, shrinks.codeSize_le⟩
  · change result.changes +
        Instr.totalWeight (result.cursor.entries.map (·.instr)) ≤
      0 + Instr.totalWeight (routine.entries.map (·.instr)) at paid
    rw [Instr.totalWeight_eq, Instr.totalWeight_eq, List.length_map,
      List.length_map, Nat.zero_add] at paid
    exact paid
  · simpa [Cursor.entries] using shrinks.length_le

/-- A routine that reads a global and keeps its address in the register.  Here
the bound is attained: one change, one unit of weight, and no code unit. -/
def fetching : Routine :=
  Routine.ofList [.loadGlobal 3, .readReg4 1, .incI, .ret 0]

theorem tighten_never_grows_fetching :
    (Flow.labels fetching.instrs).Nodup ∧
      ∃ tightened, fetching.tighten false = .ok (1, tightened) ∧
        tightened.instrs = [.loadGlobalReadReg4 1 3, .incI, .ret 0] ∧
        1 + (2 * tightened.entries.length +
            tightened.instrs.countP Instr.isGlobalRead) ≤
          2 * fetching.entries.length +
            fetching.instrs.countP Instr.isGlobalRead ∧
        tightened.entries.length ≤ fetching.entries.length ∧
        tightened.codeSize ≤ fetching.codeSize := by
  have distinct : (Flow.labels fetching.instrs).Nodup := by decide
  have outcome : (fetching.tighten false).map
      (fun result => (result.1, result.2.instrs)) =
        .ok (1, [.loadGlobalReadReg4 1 3, .incI, .ret 0]) := by cbv
  obtain ⟨count, tightened, done, bounds⟩ :=
    tighten_never_grows distinct false
  rw [done] at outcome
  obtain ⟨rfl, instrs⟩ := Prod.mk.inj (Except.ok.inj outcome)
  exact ⟨distinct, tightened, done, instrs, bounds⟩

end StackAssembler
