import StackAssembler.Fault
import StackAssembler.Flow
import StackAssembler.Instr.Stack
import StackAssembler.Instr.Text
import StackAssembler.Routine.Edit

/-!
# Stack depths

The depth analysis follows every path from the first instruction and writes to
each instruction the stack depth before it.  All paths to an instruction have
to agree on its depth, and no depth may be negative.  An address relative to
the stack's top becomes a frame address, since its depth is known.  What no
path reaches is removed.

Depths are added by a given adder.  The analysis of a routine adds 32-bit words
and fails where a sum leaves their range; with integers the same walk tells what
the depths would be.

The walk keeps a stack of places to visit.  It ends because each visit either
gives a depth to an instruction that had none or takes a place off the stack.
-/

namespace StackAssembler

namespace StackDepth

/-- How depths are added.  There may be no number for a sum. -/
abbrev Adder := Int → Int → Option Int

/-- A number that a signed 32-bit word can hold. -/
def FitsWord (value : Int) : Prop :=
  -2147483648 ≤ value ∧ value ≤ 2147483647

instance (value : Int) : Decidable (FitsWord value) :=
  inferInstanceAs (Decidable (_ ∧ _))

namespace Adder

/-- Integers have a sum always. -/
def integers : Adder := fun left right => some (left + right)

/-- Signed 32-bit words have the sum that fits a word. -/
def words : Adder := fun left right =>
  if FitsWord (left + right) then some (left + right) else none

end Adder

/-- The state of the walk: the entries with the depths found so far, the places
to visit with the depths on arrival, and the greatest depth met. -/
structure Walk where
  entries : List Entry
  pending : List (Nat × Int)
  deepest : Int := 0

section Sums

variable (add : Adder)

def total (left right : Int) : Except Failure Int :=
  match add left right with
  | some sum => .ok sum
  | none => .error (.fault .overflow)

/-- Replace an address relative to the stack's top by the frame address that
it means at a depth. -/
def anchor (depth : Int) : Instr → Except Failure Instr
  | .pushStackAddr distance => do
      match Slot.ofInt? (← total add distance.toInt depth) with
      | some slot => return .pushFrameAddr slot
      | none => .error (.defect (.frameSlotOutOfRange distance.toInt depth))
  | instr => .ok instr

/-- The depth after an instruction, which must not be negative. -/
def depthAfter (depth : Int) (instr : Instr) : Except Failure Int := do
  let after ← total add depth instr.stackChange
  if after < 0 then .error (.defect (.underflow instr.text after))
  else return after

/-- Arrive at an instruction with a depth: the instruction as the visit leaves
it and, unless the visit fails, the depth after it and the places where it may
continue. -/
def arrive (code : List Instr) (index : Nat) (depth : Int) (instr : Instr) :
    Instr × Except Failure (Int × List Nat) :=
  match anchor add depth instr with
  | .error failure => (instr, .error failure)
  | .ok instr =>
      (instr, do
        let after ← depthAfter add depth instr
        let places ← (Flow.successors code index instr).mapError .defect
        return (after, places))

end Sums

/-- Write an instruction and its depth to the entry at a place. -/
def recordAt (instr : Instr) (depth : Int) : Nat → List Entry → List Entry
  | _, [] => []
  | 0, entry :: entries => { entry with instr, depth := some depth } :: entries
  | index + 1, entry :: entries => entry :: recordAt instr depth index entries

theorem recordAt_eq_set {entries : List Entry} {index : Nat} {entry : Entry}
    (found : entries[index]? = some entry) (instr : Instr) (depth : Int) :
    recordAt instr depth index entries =
      entries.set index { entry with instr, depth := some depth } := by
  fun_induction recordAt instr depth index entries with
  | case1 => cases found
  | case2 first entries =>
      obtain rfl := Option.some.inj found
      rfl
  | case3 index first entries ih => exact congrArg _ (ih found)

def unvisited (entries : List Entry) : Nat :=
  entries.countP (·.depth.isNone)

theorem unvisited_recordAt {entries : List Entry} {index : Nat} {entry : Entry}
    (found : entries[index]? = some entry) (blank : entry.depth = none)
    (instr : Instr) (depth : Int) :
    unvisited (recordAt instr depth index entries) < unvisited entries := by
  rw [recordAt_eq_set found]
  obtain ⟨inside, rfl⟩ := List.getElem?_eq_some_iff.mp found
  have positive : 0 < unvisited entries :=
    List.countP_pos_iff.mpr
      ⟨entries[index], List.getElem_mem inside, by simp [blank]⟩
  unfold unvisited at positive ⊢
  rw [List.countP_set inside]
  simp only [blank, Option.isNone_none, if_true, Option.isNone_some,
    Bool.false_eq_true, if_false]
  omega

/-- Visit the pending places, the last one put down first.  A failure ends the
walk and leaves the depths found so far. -/
def explore (add : Adder) (code : List Instr) (walk : Walk) :
    Walk × Option Failure :=
  match _order : walk.pending with
  | [] => (walk, none)
  | (index, depth) :: pending =>
      match _found : walk.entries[index]? with
      | none => explore add code { walk with pending }
      | some entry =>
          match _blank : entry.depth with
          | some recorded =>
              if recorded = depth then explore add code { walk with pending }
              else
                (walk, some (.defect
                  (.depthMismatch entry.instr.text recorded depth)))
          | none =>
              let (instr, outcome) := arrive add code index depth entry.instr
              let entries := recordAt instr depth index walk.entries
              match outcome with
              | .error failure => ({ walk with entries }, some failure)
              | .ok (after, places) =>
                  explore add code
                    { entries
                      pending := places.reverse.map (·, after) ++ pending
                      deepest := max walk.deepest after }
termination_by (unvisited walk.entries, walk.pending.length)
decreasing_by
  · exact Prod.Lex.right _ (by simp [_order])
  · exact Prod.Lex.right _ (by simp [_order])
  · exact Prod.Lex.left _ _ (unvisited_recordAt _found _blank _ depth)

/-- The result of the analysis of a routine. -/
structure Analysis where
  maxDepth : Nat
  removed : Nat
  diagnostics : List Diagnostic
  deriving DecidableEq

end StackDepth

namespace Routine

open StackDepth

def clearDepths (routine : Routine) : Routine :=
  { routine with
    entries := routine.entries.map fun entry => { entry with depth := none } }

/-- Find the stack depth before every instruction, and remove the instructions
that no path reaches.  A failure leaves the depths found up to it. -/
def measureDepthsBy (add : Adder) (routine : Routine) :
    Except Failure Analysis × Routine :=
  let routine := routine.clearDepths
  match Flow.repeatedLabel? routine.instrs with
  | some label => (.error (.defect (.duplicateLabel label)), routine)
  | none =>
      let (walk, failure?) := explore add routine.instrs
        { entries := routine.entries, pending := [(0, 0)] }
      let visited := { routine with entries := walk.entries }
      match failure? with
      | some failure => (.error failure, visited)
      | none =>
          let removed := unvisited walk.entries
          let maxDepth := walk.deepest.toNat
          (.ok
            { maxDepth
              removed
              diagnostics :=
                if removed = 0 then []
                else
                  [.note s!"removed {removed} unreachable instruction(s)"] },
            { visited.retain (·.depth.isSome) with maxDepth })

/-- Find the stack depths, which are kept in words. -/
def measureDepths (routine : Routine) : Except Failure Analysis × Routine :=
  routine.measureDepthsBy .words

end Routine

end StackAssembler
