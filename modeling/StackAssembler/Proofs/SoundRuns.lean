import StackAssembler.Proofs.Evaluation
import StackAssembler.Proofs.MeasuredCode

/-!
# Runs of balanced code

Where the stack depths of code are balanced, a run has at every instruction as
many units on the stack as the depth there says.  So it never takes more units
from the stack than there are.
-/

namespace StackAssembler

namespace Evaluation

open Flow StackDepth

/-- What an instruction leads to if the stack has at least the units that it
takes: control goes where the instruction says, and the depth of the stack has
changed as the instruction says. -/
def Outcome.Suits (instr : Instr) (depth : Int) : Outcome → Prop
  | .next after | .pass after =>
      instr.fallsThrough = true ∧
        after.stack.length = depth + instr.stackChange
  | .goto name after =>
      instr.target? = some (.label name) ∧
        after.stack.length = depth + instr.stackChange
  | .done trace => ¬trace.Fails

section Steps

variable {machine : Machine} {temporaries : SlotSet} {passes : Nat}
  {instr : Instr} {state : State}

theorem step_suits (meaningful : instr.hasMeaning = true)
    (enough : 0 ≤ state.stack.length + instr.stackChange) :
    (step machine temporaries passes state instr).Suits instr
      state.stack.length := by
  cases instr with
  | label | line | jitEntry | suspend | setVar4 | copyVar4 | incVi | decVi
  | binOp | binOpImm | cmp | cmpImm | test | copyVarToGlobal4 | setGlobal4 =>
      exact ⟨rfl, (Int.add_zero _).symm⟩
  | pushConst | pushVar =>
      exact ⟨rfl, by simp [RunState.push, Instr.stackChange]⟩
  | push count =>
      refine ⟨rfl, ?_⟩
      simp only [List.length_append, List.length_replicate,
        Instr.stackChange]
      omega
  | pop count | call kind func count =>
      have units : count.toNat ≤ state.stack.length := by
        simp only [Instr.stackChange] at enough
        omega
      rw [step, if_pos units]
      refine ⟨rfl, ?_⟩
      simp only [State.clobber, State.emit, List.length_drop,
        Instr.stackChange]
      omega
  | swap4 =>
      rcases shape : state.stack with _ | ⟨first, _ | ⟨second, more⟩⟩
      · simp [step, shape, Outcome.Suits, State.ends, Trace.Fails]
      · simp [step, shape, Outcome.Suits, State.ends, Trace.Fails]
      · simp [step, shape, Outcome.Suits, Instr.fallsThrough,
          Instr.stackChange]
  | jump target =>
      cases target with
      | label name => exact ⟨rfl, (Int.add_zero _).symm⟩
      | offset distance => simp [Instr.hasMeaning] at meaningful
  | branch cond target =>
      cases target with
      | label name =>
          rw [step]
          split <;> exact ⟨rfl, (Int.add_zero _).symm⟩
      | offset distance => simp [Instr.hasMeaning] at meaningful
  | ret count => simp [step, Outcome.Suits, State.returns, State.ends,
      Trace.Fails]
  | _ => simp [Instr.hasMeaning] at meaningful

end Steps

/-- The code from a place of balanced entries on, with the depth there. -/
def Stands (entries : List Entry) (rest : List Instr) (depth : Int) : Prop :=
  ∃ front tail, entries = front ++ tail ∧ rest = tail.map (·.instr) ∧
    ∀ entry, tail.head? = some entry → entry.depth = some depth

section Places

variable {entries : List Entry} {instr : Instr} {rest : List Instr}
  {depth : Int}

theorem Stands.first (stands : Stands entries (instr :: rest) depth) :
    ∃ entry ∈ entries, entry.instr = instr ∧ entry.depth = some depth := by
  obtain ⟨front, tail, rfl, equal, known⟩ := stands
  obtain ⟨entry, tail, rfl, rfl, rfl⟩ := List.map_eq_cons_iff.mp equal.symm
  exact ⟨entry, by simp, rfl, known entry rfl⟩

theorem Stands.next (stands : Stands entries (instr :: rest) depth)
    (balanced : Balanced entries) (falls : instr.fallsThrough = true) :
    Stands entries rest (depth + instr.stackChange) := by
  obtain ⟨front, tail, split, equal, known⟩ := stands
  obtain ⟨entry, tail, rfl, rfl, rfl⟩ := List.map_eq_cons_iff.mp equal.symm
  refine ⟨front ++ [entry], tail, by simp [split], rfl, ?_⟩
  intro follower first
  obtain ⟨more, rfl⟩ := List.head?_eq_some_iff.mp first
  exact balanced.next split (known entry rfl) falls

/-- Behind the marker of a label the depth is that after a jump to it. -/
theorem Stands.goto {name : Label} {behind : List Instr}
    (stands : Stands entries (instr :: rest) depth)
    (balanced : Balanced entries)
    (aimed : instr.target? = some (.label name))
    (located : codeBehind? (entries.map (·.instr)) name = some behind) :
    Stands entries behind (depth + instr.stackChange) := by
  obtain ⟨entry, member, rfl, known⟩ := stands.first
  obtain ⟨front, split⟩ := codeBehind?_eq_some_split located
  obtain ⟨before, after, rfl, -, equal⟩ := List.map_eq_append_iff.mp split
  obtain ⟨marker, tail, rfl, marks, rfl⟩ := List.map_eq_cons_iff.mp equal
  have markerKnown := balanced.target member known aimed (by simp) marks
  have atMarker : Stands (before ++ marker :: tail)
      (.label name :: tail.map (·.instr))
      (depth + entry.instr.stackChange) := by
    refine ⟨before, marker :: tail, rfl, by simp [marks], ?_⟩
    rintro _ ⟨⟩
    exact markerKnown
  simpa [Instr.stackChange] using atMarker.next balanced rfl

end Places

/-- A run of balanced code whose instructions all have a meaning does not
fail. -/
theorem not_fails_run {machine : Machine} {temporaries : SlotSet}
    {entries : List Entry} {passes : Nat} {rest : List Instr} {state : State}
    (balanced : Balanced entries)
    (meaningful : ∀ entry ∈ entries, entry.instr.hasMeaning = true)
    (stands : Stands entries rest state.stack.length) :
    ¬(run machine temporaries (entries.map (·.instr)) passes rest
      state).Fails := by
  have suits {instr : Instr} {rest : List Instr} {state : State}
      {passes : Nat} {outcome : Outcome}
      (stands : Stands entries (instr :: rest) state.stack.length)
      (stepped : step machine temporaries passes state instr = outcome) :
      outcome.Suits instr state.stack.length := by
    obtain ⟨entry, member, rfl, known⟩ := stands.first
    obtain ⟨depth, sameKnown, notBelow⟩ := balanced.known member
    obtain rfl := Option.some.inj (known.symm.trans sameKnown)
    rw [← stepped]
    exact step_suits (meaningful entry member) notBelow
  fun_induction run machine temporaries (entries.map (·.instr)) passes rest
    state with
  | case1 passes state => simp [State.returns, State.ends, Trace.Fails]
  | case2 passes instr rest state after stepped ih =>
      obtain ⟨falls, depth⟩ := suits stands stepped
      exact ih (depth ▸ stands.next balanced falls)
  | case3 | case5 | case6 => simp [State.ends, Trace.Fails]
  | case4 instr rest state after passes stepped ih =>
      obtain ⟨falls, depth⟩ := suits stands stepped
      exact ih (depth ▸ stands.next balanced falls)
  | case7 instr rest state name after behind located passes stepped ih =>
      obtain ⟨aimed, depth⟩ := suits stands stepped
      exact ih (depth ▸ stands.goto balanced aimed located)
  | case8 passes instr rest state trace stepped =>
      exact suits stands stepped

end Evaluation

end StackAssembler
