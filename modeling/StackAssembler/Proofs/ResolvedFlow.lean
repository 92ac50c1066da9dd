import StackAssembler.Proofs.LeveledCode
import StackAssembler.Proofs.SettledCode
import Mathlib.Data.Nat.Find
import Mathlib.Order.Monotone.Basic

/-!
# Control flow over distances

A jump over a distance arrives at the first instruction at a code position, a
jump to a label at the marker of the label.  In code without lines only labels
take no room, so the two places differ by a run of labels.  All of these have
the same depth, and each leads to the next.  Hence code whose jumps get their
distances stays reachable, and its depths stay suitable.
-/

namespace StackAssembler

open Flow Layout StackDepth Relation

section Positions

variable {code : List Instr}

theorem position_mono (code : List Instr) : Monotone (position code) := by
  refine monotone_nat_of_le_succ fun index => ?_
  cases here : code[index]? with
  | none =>
      have outside := List.getElem?_eq_none_iff.mp here
      simp [position, List.take_of_length_le, outside,
        Nat.le_succ_of_le outside]
  | some instr =>
      rw [position_succ here]
      exact Nat.le_add_right _ _

theorem exists_label_of_size {instr : Instr} (noLine : isLine instr = false)
    (empty : instr.size = 0) : ∃ name, instr = .label name := by
  cases instr with
  | label name => exact ⟨name, rfl⟩
  | line => cases noLine
  | _ => simp [Instr.size, Instr.shape, Shape.size] at empty

/-- The places from a label back to the first one at its position hold
labels. -/
theorem exists_first_place (noLines : ∀ instr ∈ code, isLine instr = false)
    {place : Nat} (inside : place < code.length) :
    ∃ first ≤ place, position code first = position code place ∧
      (∀ earlier < first, position code earlier ≠ position code first) ∧
      ∀ between, first ≤ between → between < place →
        ∃ name, code[between]? = some (.label name) := by
  have some_place : ∃ index, position code index = position code place :=
    ⟨place, rfl⟩
  refine ⟨Nat.find some_place, Nat.find_le rfl, Nat.find_spec some_place,
    ?_, ?_⟩
  · intro earlier before
    rw [Nat.find_spec some_place]
    exact Nat.find_min some_place before
  · intro between after before
    have here : code[between]? = some (code.get ⟨between, by omega⟩) :=
      List.getElem?_eq_getElem _
    have low := position_mono code after
    have high := position_mono code (Nat.succ_le_of_lt before)
    rw [Nat.find_spec some_place] at low
    rw [Nat.succ_eq_add_one, position_succ here] at high
    obtain ⟨name, same⟩ := exists_label_of_size
      (noLines _ (List.mem_of_getElem? here)) (by omega)
    exact ⟨name, same ▸ here⟩

end Positions

section Distances

theorem Layout.Resolved.effect_eq {code : List Instr} {start : Nat}
    {instr new : Instr} (resolved : Resolved code start instr new) :
    new.stackChange = instr.stackChange ∧
      new.fallsThrough = instr.fallsThrough ∧ new.marks? = instr.marks? := by
  cases resolved with
  | kept => exact ⟨rfl, rfl, rfl⟩
  | turned _ _ turned =>
      obtain ⟨_, rfl, rfl⟩ | ⟨_, _, rfl, rfl⟩ := retarget?_eq_some turned
      · exact ⟨rfl, rfl, rfl⟩
      · exact ⟨rfl, rfl, rfl⟩

theorem Layout.ResolvedFrom.labels_eq {code rest others : List Instr}
    {start : Nat} (resolved : ResolvedFrom code start rest others) :
    labels others = labels rest := by
  induction resolved with
  | nil => rfl
  | cons first _ ih => rw [labels_cons, labels_cons, first.effect_eq.2.2, ih]

/-- In symbolic code, what has no distance stays as it is. -/
theorem Layout.Resolved.cases_of_symbolic {code : List Instr} {start : Nat}
    {instr new : Instr} (resolved : Resolved code start instr new)
    (symbolic : instr.isSymbolic = true) :
    (new = instr ∧ instr.target? = none) ∨
      ∃ name place distance, instr.target? = some (.label name) ∧
        labelIndex? code name = some place ∧
        new.target? = some (.offset distance) := by
  cases resolved with
  | kept unnamed =>
      refine .inl ⟨rfl, ?_⟩
      cases aimed : instr.target? with
      | none => rfl
      | some target =>
          obtain ⟨name, rfl⟩ :=
            Instr.exists_label_of_isSymbolic symbolic aimed
          simp [Instr.jumpLabel?_eq_some_iff.mpr aimed] at unnamed
  | turned named located turned =>
      have aimed := Instr.jumpLabel?_eq_some_iff.mp named
      obtain ⟨_, rfl, rfl⟩ | ⟨_, _, rfl, rfl⟩ := retarget?_eq_some turned
      · exact .inr ⟨_, _, _, aimed, located, rfl⟩
      · exact .inr ⟨_, _, _, aimed, located, rfl⟩

theorem Flow.Leads.unique {code : List Instr} {index : Nat} {instr : Instr}
    {target : Target} {first second : Nat} (distinct : (labels code).Nodup)
    (one : Leads code index instr target first)
    (other : Leads code index instr target second) : first = second := by
  rw [← destination_eq_ok_iff distinct] at one other
  exact Except.ok.inj (one.symm.trans other)

variable {code others : List Instr} {level : Label → Int} {depth : Nat → Int}
  (resolved : ResolvedFrom code 0 code others) (connected : Connected code)
  (noLines : ∀ instr ∈ code, isLine instr = false)
  (short : Instr.codeSize code < 2 ^ 31)

include resolved connected noLines short

/-- A jump that has named a label arrives at the first of the labels that stand
together with it. -/
theorem exists_landing {index place : Nat} {new : Instr} {distance : Int32}
    {name : Label} {instr : Instr} (there : others[index]? = some new)
    (aimed : new.target? = some (.offset distance))
    (here : code[index]? = some instr)
    (named : instr.target? = some (.label name))
    (marked : code[place]? = some (.label name)) :
    ∃ first ≤ place, Leads others index new (.offset distance) first ∧
      ∀ between, first ≤ between → between < place →
        ∃ other, code[between]? = some (.label other) := by
  have located := labelIndex?_of_getElem? connected.distinct marked
  have placeInside := (List.getElem?_eq_some_iff.mp marked).1
  obtain ⟨first, before, same, least, labelled⟩ :=
    exists_first_place noLines placeInside
  refine ⟨first, before, ?_, labelled⟩
  rcases resolved.cases_of_offset short there aimed with
    kept | ⟨source, other, target, found, alike, targetLocated, reached⟩
  · obtain rfl := Option.some.inj (here.symm.trans kept)
    cases named.symm.trans aimed
  · obtain rfl := Option.some.inj (here.symm.trans found)
    obtain rfl : name = other := by simpa [named] using alike
    obtain rfl := Option.some.inj (located.symm.trans targetLocated)
    have bound := position_le_codeSize code place
    refine .offset ?_ ?_ ?_ ?_
    · rw [resolved.length_eq]
      omega
    · rw [← reached, resolved.position_eq, resolved.position_eq, same]
    · rw [resolved.position_eq]
      omega
    · intro earlier early
      rw [resolved.position_eq, resolved.position_eq]
      exact least earlier early

omit connected noLines short in
theorem path_of_labels {first place : Nat} (before : first ≤ place)
    (inside : place < code.length)
    (labelled : ∀ between, first ≤ between → between < place →
      ∃ name, code[between]? = some (.label name)) :
    ReflTransGen (Edge others) first place := by
  induction place, before using Nat.le_induction with
  | base => exact .refl
  | succ place after ih =>
      obtain ⟨name, here⟩ := labelled place after (Nat.lt_succ_self place)
      obtain ⟨new, there, outcome⟩ := resolved.getElem? here
      refine .tail (ih (by omega) fun between low high =>
        labelled between low (by omega)) ?_
      refine .next there ?_ (resolved.length_eq ▸ inside)
      exact outcome.effect_eq.2.1

/-- Where jumps have their distances, all code is still reachable. -/
theorem reachable_resolved {index : Nat} (inside : index < others.length) :
    Reachable others index := by
  rw [resolved.length_eq] at inside
  refine (connected.reachable index inside).lift id rfl ?_
    (resolved.length_eq ▸ inside)
  intro source next _ edge nextInside
  refine ⟨resolved.length_eq ▸ edge.source_lt_length, ?_⟩
  obtain ⟨instr, here, ways⟩ := edge.cases_of_symbolic connected.symbolic
  obtain ⟨new, there, outcome⟩ := resolved.getElem? here
  rcases ways with ⟨name, aimed, marked⟩ | ⟨falls, rfl⟩
  · rcases outcome.cases_of_symbolic
      (connected.symbolic instr (List.mem_of_getElem? here)) with
      ⟨-, unaimed⟩ | ⟨_, _, distance, -, -, newAimed⟩
    · cases unaimed.symm.trans aimed
    · obtain ⟨first, before, leads, labelled⟩ := exists_landing resolved
        connected noLines short there newAimed here aimed marked
      exact .head (.target there newAimed leads)
        (path_of_labels resolved before edge.lt_length labelled)
  · exact .single (.next there (outcome.effect_eq.2.1.trans falls) nextInside)

variable (leveled : Leveled level code depth)

include leveled

omit resolved connected noLines short in
theorem depth_of_labels {first place : Nat} (before : first ≤ place)
    (inside : place < code.length)
    (labelled : ∀ between, first ≤ between → between < place →
      ∃ name, code[between]? = some (.label name)) :
    depth first = depth place := by
  induction place, before using Nat.le_induction with
  | base => rfl
  | succ place after ih =>
      obtain ⟨name, here⟩ := labelled place after (Nat.lt_succ_self place)
      rw [leveled.next here rfl inside, ih (by omega) fun between low high =>
        labelled between low (by omega)]
      exact (Int.add_zero _).symm

/-- The depths of the code suit it when its jumps have their distances. -/
theorem suits_resolved {index : Nat} {new : Instr}
    (there : others[index]? = some new) : Suits others depth index new := by
  obtain ⟨instr, here, outcome⟩ := resolved.exists_getElem? there
  obtain ⟨change, fall, -⟩ := outcome.effect_eq
  have symbolic := connected.symbolic instr (List.mem_of_getElem? here)
  have distinct : (labels others).Nodup :=
    resolved.labels_eq ▸ connected.distinct
  have landing {target : Target} (aimed : new.target? = some target) :
      ∃ first, Leads others index new target first ∧
        depth first = depth index + new.stackChange := by
    rcases outcome.cases_of_symbolic symbolic with
      ⟨rfl, unaimed⟩ | ⟨name, place, distance, named, located, newAimed⟩
    · cases unaimed.symm.trans aimed
    · obtain rfl := Option.some.inj (newAimed.symm.trans aimed)
      have marked := (labelIndex?_eq_some_iff.mp located).1
      obtain ⟨first, before, leads, labelled⟩ := exists_landing resolved
        connected noLines short there aimed here named marked
      refine ⟨first, leads, ?_⟩
      rw [depth_of_labels leveled before
        (List.getElem?_eq_some_iff.mp marked).1 labelled,
        leveled.marker marked, leveled.target here named,
        stackChange_of_target? aimed, Int.add_zero]
  have noTable (slot : Slot) (fanOut : UInt32) :
      new ≠ .jumpPtr slot fanOut := by
    rintro rfl
    rcases outcome.cases_of_symbolic symbolic with
      ⟨rfl, -⟩ | ⟨_, _, _, -, -, aimed⟩
    · cases symbolic
    · cases aimed
  refine ⟨?_, ?_, ?_, ?_, ?_⟩
  · rw [change]
    exact (leveled.notBelow here).2
  · intro place edge
    rcases (edge_iff there edge.lt_length).mp edge with
      ⟨target, aimed, leads⟩ | ⟨slot, fanOut, same, -⟩ | ⟨falls, rfl⟩
    · obtain ⟨first, leadsFirst, arrives⟩ := landing aimed
      rw [leads.unique distinct leadsFirst, arrives]
    · exact absurd same (noTable slot fanOut)
    · rw [change]
      exact leveled.next here (fall ▸ falls)
        (resolved.length_eq ▸ edge.lt_length)
  · intro target aimed
    obtain ⟨first, leads, -⟩ := landing aimed
    exact ⟨first, leads⟩
  · intro slot fanOut same
    exact absurd same (noTable slot fanOut)
  · rintro distance rfl
    rcases outcome.cases_of_symbolic symbolic with
      ⟨rfl, -⟩ | ⟨_, _, _, -, -, aimed⟩
    · exact absurd (List.mem_of_getElem? here) (leveled.absolute distance)
    · cases aimed

end Distances

end StackAssembler
