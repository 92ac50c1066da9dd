import StackAssembler.Proofs.ControlGraph
import StackAssembler.Proofs.PacedCode

/-!
# Code without unreachable instructions

Code that names its destinations by labels is connected if all of it is
reachable.  It stays so when an instruction that only passes control on is left
out or exchanged for another such instruction, and when a jump to the next
instruction is left out.  The revisions of the window are made of such changes.

Each change comes with a map of the old places to the new ones under which
every edge becomes a path.
-/

namespace StackAssembler

namespace Instr

/-- Instructions that name the places that they lead to by labels only. -/
def isSymbolic : Instr → Bool
  | jump target | branch _ target => target.label?.isSome
  | jumpPtr .. => false
  | _ => true

theorem exists_label_of_isSymbolic {instr : Instr} {target : Target}
    (symbolic : instr.isSymbolic = true)
    (aimed : instr.target? = some target) :
    ∃ name, target = .label name := by
  cases target with
  | label name => exact ⟨name, rfl⟩
  | offset distance =>
      cases instr with
      | jump | branch =>
          obtain rfl := Option.some.inj aimed
          cases symbolic
      | _ => cases aimed

/-- Straight instructions pass control on and do nothing else with it. -/
theorem flow_of_isStraight {instr : Instr}
    (straight : instr.isStraight = true) :
    instr.marks? = none ∧ instr.target? = none ∧
      instr.fallsThrough = true ∧ instr.isSymbolic = true := by
  cases instr <;> first | exact ⟨rfl, rfl, rfl, rfl⟩ | cases straight

end Instr

namespace Flow

open Relation Window StackDepth

theorem Edge.cases_of_symbolic {code : List Instr} {index place : Nat}
    (edge : Edge code index place)
    (symbolic : ∀ instr ∈ code, instr.isSymbolic = true) :
    ∃ instr, code[index]? = some instr ∧
      ((∃ name, instr.target? = some (.label name) ∧
          code[place]? = some (.label name)) ∨
        (instr.fallsThrough = true ∧ place = index + 1)) := by
  cases edge with
  | target here aimed leads =>
      obtain ⟨name, rfl⟩ := Instr.exists_label_of_isSymbolic
        (symbolic _ (List.mem_of_getElem? here)) aimed
      cases leads with
      | label marked => exact ⟨_, here, .inl ⟨name, aimed, marked⟩⟩
  | table here =>
      have plain := symbolic _ (List.mem_of_getElem? here)
      cases plain
  | next here falls => exact ⟨_, here, .inr ⟨falls, rfl⟩⟩

/-- A map of places that takes every edge to a path takes what is reachable to
what is reachable. -/
theorem Reachable.lift {code code' : List Instr} (place : Nat → Nat)
    (zero : place 0 = 0)
    (step : ∀ {index next : Nat}, Reachable code index →
      Edge code index next → place next < code'.length →
        place index < code'.length ∧
          ReflTransGen (Edge code') (place index) (place next))
    {index : Nat} (reachable : Reachable code index)
    (inside : place index < code'.length) :
    Reachable code' (place index) := by
  induction reachable with
  | refl =>
      rw [zero]
      exact .refl
  | tail early edge ih =>
      obtain ⟨sourceInside, path⟩ := step early edge inside
      exact (ih sourceInside).trans path

/-- Symbolic code with distinct labels, all of which is reachable. -/
structure Connected (code : List Instr) : Prop where
  distinct : (labels code).Nodup
  symbolic : ∀ instr ∈ code, instr.isSymbolic = true
  reachable : ∀ index < code.length, Reachable code index

/-- Two instructions that lead to the same places and mark the same label. -/
structure SameFlow (old new : Instr) : Prop where
  marks?_eq : new.marks? = old.marks?
  target?_eq : new.target? = old.target?
  fallsThrough_eq : new.fallsThrough = old.fallsThrough
  isSymbolic_eq : new.isSymbolic = old.isSymbolic

theorem SameFlow.refl (instr : Instr) : SameFlow instr instr :=
  ⟨rfl, rfl, rfl, rfl⟩

theorem sameFlow_of_isStraight {old new : Instr}
    (oldStraight : old.isStraight = true)
    (newStraight : new.isStraight = true) : SameFlow old new := by
  obtain ⟨oldMarks, oldTarget, oldFalls, oldSymbolic⟩ :=
    Instr.flow_of_isStraight oldStraight
  obtain ⟨newMarks, newTarget, newFalls, newSymbolic⟩ :=
    Instr.flow_of_isStraight newStraight
  exact ⟨newMarks.trans oldMarks.symm, newTarget.trans oldTarget.symm,
    newFalls.trans oldFalls.symm, newSymbolic.trans oldSymbolic.symm⟩

section Changes

variable {front rest : List Instr} {instr old new : Instr}

theorem exists_sameFlow (flow : SameFlow old new) {index : Nat}
    {before : Instr} (here : (front ++ old :: rest)[index]? = some before) :
    ∃ after, (front ++ new :: rest)[index]? = some after ∧
      SameFlow before after := by
  rw [List.getElem?_append] at here ⊢
  split
  · rw [if_pos ‹_›] at here
    exact ⟨before, here, .refl before⟩
  · rw [if_neg ‹_›] at here
    generalize index - front.length = distance at here ⊢
    cases distance with
    | zero =>
        obtain rfl : old = before := by simpa using here
        exact ⟨new, rfl, flow⟩
    | succ distance => exact ⟨before, here, .refl before⟩

theorem Connected.alter (connected : Connected (front ++ old :: rest))
    (flow : SameFlow old new) : Connected (front ++ new :: rest) where
  distinct := by
    have distinct := connected.distinct
    rwa [labels_append, labels_cons, ← flow.marks?_eq, ← labels_cons,
      ← labels_append] at distinct
  symbolic other member := by
    rcases List.mem_append.mp member with inFront | inRest
    · exact connected.symbolic other (List.mem_append_left _ inFront)
    · rcases List.mem_cons.mp inRest with rfl | later
      · rw [flow.isSymbolic_eq]
        exact connected.symbolic old (by simp)
      · exact connected.symbolic other (by simp [later])
  reachable index inside := by
    have size : (front ++ new :: rest).length =
        (front ++ old :: rest).length := by simp
    refine (connected.reachable index (size ▸ inside)).lift id rfl ?_ inside
    intro source next _ edge nextInside
    refine ⟨size ▸ edge.source_lt_length, .single ?_⟩
    obtain ⟨before, here, ways⟩ :=
      edge.cases_of_symbolic connected.symbolic
    obtain ⟨after, there, same⟩ := exists_sameFlow flow here
    rcases ways with ⟨name, aimed, marked⟩ | ⟨falls, rfl⟩
    · obtain ⟨marker, placed, sameMarker⟩ := exists_sameFlow flow marked
      obtain rfl := Instr.marks?_eq_some_iff.mp sameMarker.marks?_eq
      exact .target there (same.target?_eq.trans aimed) (.label placed)
    · exact .next there (same.fallsThrough_eq.trans falls) nextInside

/-- Where a place of code is found when the instruction at an index is left
out.  The index itself goes to what followed it. -/
def placeWithout (omitted index : Nat) : Nat :=
  if index ≤ omitted then index else index - 1

theorem getElem?_placeWithout {index : Nat} (other : index ≠ front.length) :
    (front ++ rest)[placeWithout front.length index]? =
      (front ++ instr :: rest)[index]? := by
  unfold placeWithout
  split
  · rw [List.getElem?_append_left (by omega),
      List.getElem?_append_left (by omega)]
  · rw [List.getElem?_append_right (by omega),
      List.getElem?_append_right (by omega)]
    obtain ⟨distance, equal⟩ :
        ∃ distance, index - front.length = distance + 1 :=
      ⟨index - front.length - 1, by omega⟩
    rw [equal, List.getElem?_cons_succ]
    congr 1
    omega

/-- An instruction that leads to the next one only may be left out. -/
theorem Connected.leaveOut (connected : Connected (front ++ instr :: rest))
    (unmarked : instr.marks? = none)
    (onward : ∀ place, Edge (front ++ instr :: rest) front.length place →
      place = front.length + 1) : Connected (front ++ rest) where
  distinct := by
    have distinct := connected.distinct
    rwa [labels_append, labels_cons, unmarked, Option.toList_none,
      List.nil_append, ← labels_append] at distinct
  symbolic other member := by
    refine connected.symbolic other ?_
    rcases List.mem_append.mp member with inFront | inRest
    · exact List.mem_append_left _ inFront
    · exact List.mem_append_right _ (List.mem_cons_of_mem _ inRest)
  reachable index inside := by
    have size : (front ++ instr :: rest).length =
        (front ++ rest).length + 1 := by
      simp only [List.length_append, List.length_cons]
      omega
    obtain ⟨source, sourceInside, rfl⟩ :
        ∃ source < (front ++ instr :: rest).length,
          placeWithout front.length source = index := by
      by_cases before : index < front.length
      · exact ⟨index, by omega, by rw [placeWithout, if_pos (by omega)]⟩
      · exact ⟨index + 1, by omega, by
          rw [placeWithout, if_neg (by omega)]
          omega⟩
    refine (connected.reachable source sourceInside).lift
      (placeWithout front.length) (by simp [placeWithout]) ?_ inside
    intro place next _ edge nextInside
    by_cases omitted : place = front.length
    · -- The way over the omitted instruction has become no way at all.
      subst omitted
      obtain rfl := onward next edge
      have same : placeWithout front.length (front.length + 1) =
          placeWithout front.length front.length := by
        simp [placeWithout]
      rw [same] at nextInside ⊢
      exact ⟨nextInside, .refl⟩
    · obtain ⟨before, here, ⟨name, aimed, marked⟩ | ⟨falls, rfl⟩⟩ :=
        edge.cases_of_symbolic connected.symbolic
      · have kept : next ≠ front.length := by
          rintro rfl
          obtain rfl : instr = .label name := by simpa using marked
          simp [Instr.marks?] at unmarked
        rw [← getElem?_placeWithout omitted] at here
        rw [← getElem?_placeWithout kept] at marked
        exact ⟨(List.getElem?_eq_some_iff.mp here).1,
          .single (.target here aimed (.label marked))⟩
      · have step : placeWithout front.length (place + 1) =
            placeWithout front.length place + 1 := by
          unfold placeWithout
          split <;> split <;> omega
        rw [step] at nextInside ⊢
        rw [← getElem?_placeWithout omitted] at here
        exact ⟨(List.getElem?_eq_some_iff.mp here).1,
          .single (.next here falls nextInside)⟩

theorem Connected.drop (connected : Connected (front ++ instr :: rest))
    (straight : instr.isStraight = true) : Connected (front ++ rest) := by
  refine connected.leaveOut (Instr.marks?_of_isStraight straight) ?_
  intro place edge
  obtain ⟨same, here, ⟨name, aimed, -⟩ | ⟨-, next⟩⟩ :=
    edge.cases_of_symbolic connected.symbolic
  · obtain rfl : instr = same := by simpa using here
    obtain ⟨-, aimless, -⟩ := Instr.flow_of_isStraight straight
    cases aimless.symm.trans aimed
  · exact next

theorem Connected.skip {name : Label}
    (connected : Connected
      (front ++ .jump (.label name) :: .label name :: rest)) :
    Connected (front ++ .label name :: rest) := by
  refine connected.leaveOut rfl ?_
  intro place edge
  obtain ⟨same, here, ⟨other, aimed, marked⟩ | ⟨falls, -⟩⟩ :=
    edge.cases_of_symbolic connected.symbolic
  · obtain rfl : .jump (.label name) = same := by simpa using here
    obtain rfl : name = other := by simpa [Instr.target?] using aimed
    have behind : (front ++ .jump (.label name) :: .label name ::
        rest)[front.length + 1]? = some (.label name) := by simp
    have first := labelIndex?_of_getElem? connected.distinct marked
    rw [labelIndex?_of_getElem? connected.distinct behind] at first
    exact (Option.some.inj first).symm
  · obtain rfl : .jump (.label name) = same := by simpa using here
    cases falls

end Changes

/-- Code that results from changes that keep it connected: from some place on
it is as before. -/
inductive Thins : List Instr → List Instr → Prop
  | same (rest : List Instr) : Thins rest rest
  | alter {old new : Instr} {before after : List Instr}
      (flow : SameFlow old new) (thins : Thins before after) :
      Thins (old :: before) (new :: after)
  | drop {instr : Instr} {before after : List Instr}
      (straight : instr.isStraight = true) (thins : Thins before after) :
      Thins (instr :: before) after
  | skip {name : Label} {rest : List Instr} :
      Thins (.jump (.label name) :: .label name :: rest)
        (.label name :: rest)

theorem Connected.thinned {before after : List Instr}
    (thins : Thins before after) (front : List Instr)
    (connected : Connected (front ++ before)) :
    Connected (front ++ after) := by
  induction thins generalizing front with
  | same => exact connected
  | @alter old new before after flow _ ih =>
      simpa using ih (front ++ [new]) (by simpa using connected.alter flow)
  | drop straight _ ih => exact ih front (connected.drop straight)
  | skip => exact connected.skip

/-- A straight instruction in front may stand for one behind other straight
instructions. -/
theorem thins_across {first last : Instr} {skipped rest : List Instr}
    (firstStraight : first.isStraight = true)
    (lastStraight : last.isStraight = true)
    (straight : ∀ instr ∈ skipped, instr.isStraight = true) :
    Thins (first :: (skipped ++ rest)) (skipped ++ last :: rest) := by
  induction skipped generalizing first with
  | nil =>
      exact .alter (sameFlow_of_isStraight firstStraight lastStraight)
        (.same rest)
  | cons instr skipped ih =>
      have instrStraight := straight instr List.mem_cons_self
      refine .alter (sameFlow_of_isStraight firstStraight instrStraight) ?_
      exact ih instrStraight fun other member =>
        straight other (List.mem_cons_of_mem _ member)

theorem thins_of_rule {scope : Scope} {window : List Instr} {patch : Patch}
    (rule : Rule scope window patch) :
    Thins window (patch.fillInstrs window) := by
  have flow {old new : Instr} := @sameFlow_of_isStraight old new
  cases rule with
  | unusedWrite writes =>
      exact .drop (Instr.isStraight_of_isPlain (isPlain_of_write? writes).1)
        (.same _)
  | unusedGlobalRead => exact .alter (flow rfl rfl) (.same _)
  | compareConst | arithConst | arithConstLeft | globalPush | constPush
  | constStore | discardConst8 | discardRead | discardRead8 =>
      exact .drop rfl (.alter (flow rfl rfl) (.same _))
  | discardUnit pushes =>
      have plain := (stackChange_of_unitPush pushes).1
      exact .drop (Instr.isStraight_of_isPlain plain)
        (.alter (flow rfl rfl) (.same _))
  | arithCopy | arithImmCopy | constCopy | globalWrite | globalReadUsed
  | globalRead | increment | decrement | frameRead | pushTwice | constRef =>
      exact .alter (flow rfl rfl) (.drop rfl (.same _))
  | registerBack | suspendBefore | lineBefore =>
      exact .drop rfl (.drop rfl (.same _))
  | checkRead =>
      exact .alter (flow rfl rfl) (.alter (flow rfl rfl)
        (.drop rfl (.same _)))
  | checkFrame | checkVar =>
      exact .alter (flow rfl rfl) (.drop rfl
        (.alter (flow rfl rfl) (.same _)))
  | jitEntry | popNone | pushNone | popReturn | suspendTwice | lineTwice =>
      exact .drop rfl (.same _)
  | branchUnless | branchIf =>
      exact .drop rfl (.alter ⟨rfl, rfl, rfl, rfl⟩ (.same _))
  | jumpNext => exact .skip

theorem thins_of_revision {temporaries : SlotSet} {keepJitEntries : Bool}
    {code old new : List Instr}
    (revision : Revision temporaries keepJitEntries code old new) :
    Thins old new := by
  cases revision with
  | patch rule => exact thins_of_rule rule
  | postpone passed =>
      exact thins_across rfl rfl fun instr member =>
        isStraight_of_crossable (passed instr member)
  | exchange firstPush secondPush =>
      have straight {instr : Instr} (pushes : isPlainPush instr = true) :=
        Instr.isStraight_of_isPlain (stackChange_of_isPlainPush pushes).1
      exact .alter
        (sameFlow_of_isStraight (straight firstPush) (straight secondPush))
        (.alter
          (sameFlow_of_isStraight (straight secondPush) (straight firstPush))
          (.drop rfl (.same _)))

theorem thins_of_idles {before after : List Instr}
    (idles : Idles before after) : Thins before after := by
  induction idles with
  | done => exact .same []
  | keep instr _ ih => exact .alter (.refl instr) ih
  | alter oldPlain newPlain _ _ ih =>
      exact .alter (sameFlow_of_isStraight
        (Instr.isStraight_of_isPlain oldPlain)
        (Instr.isStraight_of_isPlain newPlain)) ih
  | drop plain _ _ ih =>
      exact .drop (Instr.isStraight_of_isPlain plain) ih

end Flow

end StackAssembler
