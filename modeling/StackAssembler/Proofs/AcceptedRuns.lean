import StackAssembler.Proofs.RepeatedAnalysis
import StackAssembler.Proofs.Rewriting
import StackAssembler.Proofs.StraightRuns

/-!
# Runs of accepted straight code

In straight code every instruction is reached, so an analysis that accepts it
leaves all of it.  A run of it then has as many units on the stack as the depths
say, above those that were there before, and never takes more than there are.
Only an exchange of two units looks below the depth that was recorded.
-/

namespace StackAssembler

/-- The instructions that a straight run gives a meaning to. -/
def Instr.hasStraightMeaning : Instr → Bool
  | setVar4 .. | copyVar4 .. | incVi _ | decVi _ | binOp .. | binOpImm ..
  | cmp .. | cmpImm .. | test _ | push _ | pop _ | pushConst _ | pushVar _
  | pushGlobal _ | swap4 | copyVarToReg4 _ | copyRegToVar4 _ | loadVar _
  | loadGlobal _ | loadGlobalReadReg4 .. | readReg4 _ | writeVar4 _ | incI
  | decI | copyVarToGlobal4 .. | copyGlobalToVar4 .. | setGlobal4 .. => true
  | _ => false

theorem Instr.isPlain_of_hasStraightMeaning {instr : Instr}
    (meaningful : instr.hasStraightMeaning = true) : instr.isPlain = true := by
  cases instr <;> first | rfl | cases meaningful

namespace StackDepth

open Flow Relation

section Plain

variable {routine measured : Routine} {analysis : Analysis}

theorem reachable_of_straight {code : List Instr}
    (straight : ∀ instr ∈ code, instr.isStraight = true) {index : Nat}
    (inside : index < code.length) : Reachable code index := by
  induction index with
  | zero => exact .refl
  | succ index ih =>
      have before : index < code.length := by omega
      have falls := (Instr.flow_of_isStraight
        (straight _ (List.getElem_mem before))).2.2.1
      exact (ih before).tail
        (.next (List.getElem?_eq_getElem before) falls inside)

theorem map_instr_of_touched {olds news : List Entry}
    (touched : List.Forall₂ Touched olds news)
    (plain : ∀ entry ∈ olds, entry.instr.isPlain = true) :
    news.map (·.instr) = olds.map (·.instr) := by
  induction touched with
  | nil => rfl
  | cons first _ ih =>
      have later := ih fun entry member =>
        plain entry (List.mem_cons_of_mem _ member)
      have here := plain _ List.mem_cons_self
      rcases first.instr_eq with same | ⟨_, _, _, relative, -⟩
      · rw [List.map_cons, List.map_cons, same, later]
      · rw [relative] at here
        cases here

theorem instrs_of_plain
    (accepted : routine.measureDepths = (.ok analysis, measured))
    (plain : ∀ instr ∈ routine.instrs, instr.isPlain = true) :
    measured.instrs = routine.instrs ∧
      measured.temporaries = routine.temporaries := by
  obtain ⟨distinct, final, ended, -, rfl⟩ := finished_of_measureDepthsBy accepted
  obtain ⟨closed, finished⟩ := closed_of_finished ended
  have recorded : ∀ entry ∈ final.entries, entry.depth.isSome = true := by
    intro entry member
    obtain ⟨index, found⟩ := List.getElem?_of_mem member
    have inside : index < routine.instrs.length := by
      rw [← closed.tracks.length_eq]
      exact (List.getElem?_eq_some_iff.mp found).1
    have reachable := reachable_of_straight (fun instr inside =>
      Instr.isStraight_of_isPlain (plain instr inside)) inside
    obtain ⟨same, incoming, located, known⟩ :=
      closed.recorded_of_reachable finished distinct reachable inside
    obtain rfl := Option.some.inj (found.symm.trans located)
    simp [known]
  have instrs_eq : final.entries.map (·.instr) = routine.instrs := by
    apply map_instr_of_touched (touched_explore ended)
    intro entry member
    exact plain _ (List.mem_map_of_mem member)
  refine ⟨?_, rfl⟩
  calc
    _ = (final.entries.filter (·.depth.isSome)).map (·.instr) := rfl
    _ = routine.instrs := by rw [List.filter_eq_self.mpr recorded, instrs_eq]

end Plain

end StackDepth

namespace Straight

open Evaluation (Machine Breakdown)
open StackDepth

section Heights

variable {space : Space} {instr : Instr} {state : State} {base : Nat}
  {depth : Int}

/-- An instruction with a meaning is evaluated, and changes the height of the
stack by its effect, if there are units for it. -/
theorem exists_step (machine : Machine)
    (meaningful : instr.hasStraightMeaning = true)
    (height : (state.stack.length : Int) = base + depth)
    (notBelow : 0 ≤ depth + instr.stackChange)
    (room : instr = .swap4 → 2 ≤ state.stack.length) :
    ∃ after, step machine space state instr = .ok after ∧
      (after.stack.length : Int) = base + (depth + instr.stackChange) := by
  have kept : (state.stack.length : Int) = base + (depth + 0) := by
    rw [Int.add_zero]
    exact height
  cases instr with
  | push count =>
      refine ⟨_, rfl, ?_⟩
      simp only [List.length_append, List.length_replicate, Nat.cast_add,
        Instr.stackChange]
      omega
  | pop count =>
      have enough : count.toNat ≤ state.stack.length := by
        rw [Instr.stackChange] at notBelow
        omega
      refine ⟨_, if_pos enough, ?_⟩
      simp only [List.length_drop, Instr.stackChange]
      omega
  | pushConst | pushVar | pushGlobal =>
      refine ⟨_, rfl, ?_⟩
      simp only [RunState.push, List.length_cons, Nat.cast_add, Nat.cast_one,
        Instr.stackChange]
      omega
  | swap4 =>
      rcases shape : state.stack with _ | ⟨first, _ | ⟨second, more⟩⟩
      · simp [shape] at room
      · simp [shape] at room
      · refine ⟨{ state with stack := second :: first :: more }, ?_, ?_⟩
        · simp [step, shape]
        · simpa [shape, Instr.stackChange] using kept
  | writeVar4 | incI | decI | copyVarToGlobal4 | setGlobal4 =>
      refine ⟨_, rfl, ?_⟩
      rw [stack_save]
      exact kept
  | setVar4 | copyVar4 | incVi | decVi | binOp | binOpImm | cmp | cmpImm | test
  | copyVarToReg4 | copyRegToVar4 | loadVar | loadGlobal | loadGlobalReadReg4
  | readReg4 | copyGlobalToVar4 =>
      exact ⟨_, rfl, kept⟩
  | _ => cases meaningful

/-- A run over entries with balanced depths goes on to their end. -/
theorem exists_run_of_balanced (machine : Machine)
    {entries front rest : List Entry}
    (balanced : Balanced entries) (split : entries = front ++ rest)
    (meaningful : ∀ entry ∈ rest, entry.instr.hasStraightMeaning = true)
    (first : ∀ entry, rest.head? = some entry → entry.depth = some depth)
    (height : (state.stack.length : Int) = base + depth)
    (room : ∀ entry ∈ rest, entry.instr = .swap4 → 2 ≤ base) :
    ∃ final, run machine space (rest.map (·.instr)) state = .ok final := by
  induction rest generalizing front depth state with
  | nil => exact ⟨state, rfl⟩
  | cons entry rest ih =>
      have here := first entry rfl
      have member : entry ∈ entries := by simp [split]
      obtain ⟨same, known, notBelow⟩ := balanced.known member
      obtain rfl := Option.some.inj (here.symm.trans known)
      have entryMeaningful := meaningful entry List.mem_cons_self
      have units (swaps : entry.instr = .swap4) : 2 ≤ state.stack.length := by
        have deep := room entry List.mem_cons_self swaps
        have still : entry.instr.stackChange = 0 := by
          rw [swaps]
          rfl
        omega
      obtain ⟨after, stepped, afterHeight⟩ :=
        exists_step machine entryMeaningful height notBelow units
      have falls := (Instr.flow_of_isStraight (Instr.isStraight_of_isPlain
        (Instr.isPlain_of_hasStraightMeaning entryMeaningful))).2.2.1
      have next (follower : Entry) (head : rest.head? = some follower) :
          follower.depth = some (depth + entry.instr.stackChange) := by
        obtain ⟨later, rfl⟩ := List.head?_eq_some_iff.mp head
        exact balanced.next split here falls
      rw [List.map_cons, run, stepped]
      apply @ih after _ (front ++ [entry]) (by simp [split]) _ next afterHeight
      · intro other inside
        exact room other (List.mem_cons_of_mem _ inside)
      · intro other inside
        exact meaningful other (List.mem_cons_of_mem _ inside)

end Heights

/-- A run of accepted straight code goes on to its end, if there are units for
the exchanges. -/
theorem exists_run {routine measured : Routine} {analysis : Analysis}
    (accepted : routine.measureDepths = (.ok analysis, measured))
    (meaningful : ∀ instr ∈ routine.instrs, instr.hasStraightMeaning = true)
    (machine : Machine) (space : Space) {state : State}
    (room : .swap4 ∈ routine.instrs → 2 ≤ state.stack.length) :
    ∃ final, run machine space routine.instrs state = .ok final := by
  have balanced := balanced_of_measureDepths accepted
  have plain : ∀ instr ∈ routine.instrs, instr.isPlain = true :=
    fun instr member =>
      Instr.isPlain_of_hasStraightMeaning (meaningful instr member)
  obtain ⟨same, -⟩ := instrs_of_plain accepted plain
  rw [← same] at meaningful room ⊢
  apply exists_run_of_balanced machine balanced (List.nil_append _).symm
  · intro entry member
    exact meaningful _ (List.mem_map_of_mem member)
  · intro entry head
    exact balanced.start head
  · exact (Int.add_zero _).symm
  · intro entry member swaps
    exact room (swaps ▸ List.mem_map_of_mem member)

/-- Accepted straight code is tightened by a run of rewrites, which starts from
the code as it was before the analysis. -/
theorem exists_rewrites {routine measured : Routine} {analysis : Analysis}
    (accepted : routine.measureDepths = (.ok analysis, measured))
    (meaningful : ∀ instr ∈ routine.instrs, instr.hasStraightMeaning = true)
    (keepJitEntries : Bool) :
    ∃ count tightened,
      measured.tighten keepJitEntries = .ok (count, tightened) ∧
        measured.instrs = routine.instrs ∧
          Relation.ReflTransGen
            (Window.Rewrite routine.temporaries keepJitEntries)
            measured.entries tightened.entries := by
  have balanced := balanced_of_measureDepths accepted
  obtain ⟨same, kept⟩ := instrs_of_plain accepted fun instr member =>
    Instr.isPlain_of_hasStraightMeaning (meaningful instr member)
  obtain ⟨count, tightened, done, -, rewrites⟩ :=
    Window.exists_tighten balanced.distinct keepJitEntries
  rw [kept] at rewrites
  exact ⟨count, tightened, done, same, rewrites⟩

end Straight

end StackAssembler
