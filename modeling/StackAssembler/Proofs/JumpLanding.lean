import StackAssembler.Proofs.SettledCode
import Mathlib.Tactic.Tauto

/-!
# Where jumps land

All jumps that an assembly leaves carry distances.  A distance that the
assembly computed leads to the place of its label.  A distance that the routine
came with was checked against the code before anything was removed from it, and
is left as it was: it leads to an instruction if nothing was removed or
rewritten, and may lead to none otherwise.
-/

namespace StackAssembler

open Flow Layout StackDepth

/-- A jump over a distance, from an index of the code, lands on an
instruction. -/
def Flow.Lands (code : List Instr) (index : Nat) (instr : Instr)
    (distance : Int32) : Prop :=
  ∃ place < code.length, (position code place : Int) =
    position code index + instr.size + distance.toInt

section SameSizes

variable {code other : List Instr}

theorem position_congr (sizes : code.map Instr.size = other.map Instr.size)
    (index : Nat) : position code index = position other index := by
  have total (run : List Instr) :
      Instr.codeSize run = (run.map Instr.size).sum := by
    induction run with
    | nil => rfl
    | cons instr run ih => simp [ih]
  rw [position, position, total, total, List.map_take, List.map_take, sizes]

theorem Flow.Lands.congr {index : Nat} {instr : Instr} {distance : Int32}
    (lands : Lands code index instr distance)
    (sizes : code.map Instr.size = other.map Instr.size) :
    Lands other index instr distance := by
  obtain ⟨place, inside, reached⟩ := lands
  have length_eq : code.length = other.length := by
    simpa using congrArg List.length sizes
  refine ⟨place, length_eq ▸ inside, ?_⟩
  rw [← position_congr sizes, ← position_congr sizes, reached]

theorem Layout.ResolvedFrom.map_size_eq {rest others : List Instr}
    {start : Nat} (resolved : ResolvedFrom code start rest others) :
    others.map Instr.size = rest.map Instr.size := by
  induction resolved with
  | nil => rfl
  | cons first _ ih => simp [first.size_eq.1, ih]

/-- If no line vanishes, collecting the lines exchanges instructions for others
of the same size. -/
theorem Layout.collected_of_length_le
    (whole : code.length ≤ (collected code).length) :
    collected code = code.map settleLine ∧
      (collected code).map Instr.size = code.map Instr.size := by
  rw [collected, List.length_map] at whole
  have all := List.filter_sublist.eq_of_length_le whole
  have kept : ∀ instr ∈ code, vanishes instr = false := by
    simpa using List.filter_eq_self.mp all
  rw [collected, all]
  refine ⟨rfl, ?_⟩
  rw [List.map_map]
  exact List.map_congr_left fun instr member =>
    Instr.size_settleLine (kept instr member)

end SameSizes

section Untouched

/-- An analysis that removes nothing leaves all sizes as they are, and has
followed every jump to an instruction. -/
theorem StackDepth.lands_of_measureDepths {routine measured : Routine}
    {analysis : Analysis}
    (accepted : routine.measureDepths = (.ok analysis, measured))
    (whole : routine.instrs.length ≤ measured.instrs.length) :
    measured.instrs.map Instr.size = routine.instrs.map Instr.size ∧
      ∀ {index : Nat} {instr : Instr} {distance : Int32},
        measured.instrs[index]? = some instr →
          instr.target? = some (.offset distance) →
            Lands routine.instrs index instr distance := by
  obtain ⟨distinct, final, ended, -, rfl⟩ := finished_of_measureDepthsBy accepted
  obtain ⟨closed, -⟩ := closed_of_finished ended
  have all : final.entries.filter (·.depth.isSome) = final.entries := by
    refine List.filter_sublist.eq_of_length_le ?_
    rw [closed.tracks.length_eq]
    simpa [Routine.instrs, Routine.retain] using whole
  have left : Routine.instrs
      { { routine with entries := final.entries }.retain (·.depth.isSome)
        with maxDepth := final.deepest.toNat } =
      final.entries.map (·.instr) := by
    simp only [Routine.instrs, Routine.retain, all]
  have recorded {index : Nat} {entry : Entry}
      (found : final.entries[index]? = some entry) :
      ∃ depth, entry.depth = some depth :=
    Option.isSome_iff_exists.mp
      (List.filter_eq_self.mp all entry (List.mem_of_getElem? found))
  rw [left]
  constructor
  · apply List.ext_getElem?
    intro index
    simp only [List.getElem?_map]
    cases found : final.entries[index]? with
    | none =>
        have outside : routine.instrs[index]? = none := by
          rw [List.getElem?_eq_none_iff, ← closed.tracks.length_eq]
          exact List.getElem?_eq_none_iff.mp found
        rw [outside]
        rfl
    | some entry =>
        obtain ⟨depth, known⟩ := recorded found
        obtain ⟨instr, here, done⟩ := closed.tracks.anchored found known
        simp [here, size_of_anchor done]
  · intro index instr distance here aimed
    obtain ⟨entry, found, rfl⟩ : ∃ entry,
        final.entries[index]? = some entry ∧ entry.instr = instr := by
      simpa using here
    obtain ⟨depth, known⟩ := recorded found
    obtain ⟨-, places, successorsFound, -⟩ := closed.onward found known
    obtain ⟨lands, -⟩ := (exists_successors_iff distinct).mp
      ⟨places, successorsFound⟩
    obtain ⟨place, leads⟩ := lands _ aimed
    cases leads with
    | offset inside distant => exact ⟨place, inside, distant⟩

theorem StackDepth.length_measured_le {routine measured : Routine}
    {analysis : Analysis}
    (accepted : routine.measureDepths = (.ok analysis, measured)) :
    measured.instrs.length ≤ routine.instrs.length := by
  obtain ⟨-, final, ended, -, rfl⟩ := finished_of_measureDepthsBy accepted
  obtain ⟨closed, -⟩ := closed_of_finished ended
  rw [← closed.tracks.length_eq]
  simpa [Routine.instrs, Routine.retain] using List.length_filter_le _ _

theorem settleLine_of_target? {instr : Instr} {target : Target}
    (aimed : (settleLine instr).target? = some target) :
    settleLine instr = instr := by
  cases instr <;> first | rfl | cases aimed

/-- A distance that the routine came with still leads to an instruction if the
assembly has neither rewritten nor removed anything. -/
theorem Stages.lands_of_whole {routine left measured reduced : Routine}
    {options : Options} {artifact : Artifact} {analysis : Analysis}
    (stages : Stages routine options artifact left analysis measured reduced)
    (untightened : options.optimize = false)
    (whole : routine.instrs.length ≤ left.instrs.length) {index : Nat}
    {new : Instr} {distance : Int32}
    (here : (collected reduced.instrs)[index]? = some new)
    (aimed : new.target? = some (.offset distance)) :
    Lands left.instrs index new distance := by
  have reduced_eq : reduced.instrs = measured.instrs.filter fun instr =>
      options.jitEntries || !instr.isJitEntry := by
    obtain ⟨_, -, unchanged, left⟩ := stages.exists_tightened
    rw [Routine.instrs, left, unchanged untightened, Routine.instrs,
      List.filter_map]
    rfl
  have measuredLength := length_measured_le stages.accepted
  have cuedLength : (routine.setCues options.lineCues).instrs.length =
      routine.instrs.length := by
    simp [Routine.setCues, Routine.mapInstrs, Routine.instrs]
  have reducedLength : reduced.instrs.length ≤ measured.instrs.length :=
    reduced_eq ▸ List.length_filter_le _ _
  have collectedLength : (collected reduced.instrs).length ≤
      reduced.instrs.length := by
    rw [collected, List.length_map]
    exact List.length_filter_le _ _
  have leftLength := stages.resolved.length_eq
  -- As many instructions are left as there were, so every step kept all.
  have same : reduced.instrs = measured.instrs := by
    rw [reduced_eq]
    refine List.filter_sublist.eq_of_length_le ?_
    rw [← reduced_eq]
    omega
  obtain ⟨settled, settledSizes⟩ :=
    @collected_of_length_le reduced.instrs (by omega)
  obtain ⟨measuredSizes, lands⟩ :=
    lands_of_measureDepths stages.accepted (by omega)
  have sizes : (routine.setCues options.lineCues).instrs.map Instr.size =
      left.instrs.map Instr.size := by
    rw [stages.resolved.map_size_eq, settledSizes, same, measuredSizes]
  obtain ⟨source, found, rfl⟩ : ∃ source,
      reduced.instrs[index]? = some source ∧ settleLine source = new := by
    simpa [settled] using here
  have plain := settleLine_of_target? aimed
  rw [plain] at aimed ⊢
  exact (lands (same ▸ found) aimed).congr sizes

end Untouched

/-- Every jump that an assembly leaves carries a distance.  In code of fewer
than 2³¹ units it lands on an instruction, unless the routine came with that
distance and was then rewritten or shortened. -/
theorem assemble_lands_jumps {routine left : Routine} {options : Options}
    {artifact : Artifact}
    (assembled : routine.assemble options = (.ok artifact, left)) :
    (∀ instr ∈ left.instrs, ∀ target, instr.target? = some target →
      ∃ distance, target = .offset distance) ∧
    (artifact.code.length < 2 ^ 31 →
      ∀ index instr distance, left.instrs[index]? = some instr →
        instr.target? = some (.offset distance) →
          Lands left.instrs index instr distance ∨
            (∃ source ∈ routine.instrs,
              source.target? = some (.offset distance)) ∧
            (options.optimize = true ∨
              left.instrs.length < routine.instrs.length)) := by
  obtain ⟨analysis, measured, reduced, stages⟩ := exists_stages assembled
  constructor
  · intro instr member target aimed
    have unnamed := stages.resolved.jumpLabel?_eq_none instr member
    cases target with
    | offset distance => exact ⟨distance, rfl⟩
    | label name => simp [Instr.jumpLabel?_eq_some_iff.mpr aimed] at unnamed
  · intro short index instr distance there aimed
    rw [stages.length_code, ← codeSize_collected] at short
    rcases stages.resolved.cases_of_offset short there aimed with
      here | ⟨_, name, place, -, -, located, reached⟩
    · -- The routine came with the distance.
      by_cases untouched : options.optimize = false ∧
          routine.instrs.length ≤ left.instrs.length
      · exact .inl (stages.lands_of_whole untouched.1 untouched.2 here aimed)
      · obtain ⟨source, inside, rfl⟩ := mem_collected
          (List.mem_of_getElem? here)
        rw [settleLine_of_target? aimed] at aimed
        refine .inr ⟨exists_source_target stages.accepted stages.carries
          inside aimed, ?_⟩
        rw [← Bool.not_eq_false, ← Nat.not_le]
        tauto
    · refine .inl ⟨place, ?_, reached⟩
      rw [stages.resolved.length_eq]
      have marked := (labelIndex?_eq_some_iff.mp located).1
      exact (List.getElem?_eq_some_iff.mp marked).1

/-- A loop with a branch to a label and a jump back over a given distance. -/
def retrying : Routine :=
  Routine.ofList [.branch .zero (.label ⟨0⟩), .jump (.offset (-4)),
    .label ⟨0⟩, .ret 0]

theorem assemble_lands_jumps_retrying :
    ∃ artifact left,
      retrying.assemble ⟨false, true, false⟩ = (.ok artifact, left) ∧
      left.instrs = [.branch .zero (.offset 2), .jump (.offset (-4)),
        .label ⟨0⟩, .ret 0] ∧
      Lands left.instrs 0 (.branch .zero (.offset 2)) 2 ∧
      Lands left.instrs 1 (.jump (.offset (-4))) (-4) := by
  have assembled : (retrying.assemble ⟨false, true, false⟩).1 =
      .ok ⟨[113, 2, 112, 4294967292, 125], 0, ⟨[]⟩, [], []⟩ := by cbv
  have left : (retrying.assemble ⟨false, true, false⟩).2.instrs =
      [.branch .zero (.offset 2), .jump (.offset (-4)), .label ⟨0⟩,
        .ret 0] := by cbv
  obtain ⟨-, lands⟩ := assemble_lands_jumps (Prod.ext assembled rfl)
  have whole : ¬(false = true ∨
      (retrying.assemble ⟨false, true, false⟩).2.instrs.length <
        retrying.instrs.length) := by
    rw [left]
    decide
  have landing := lands (by decide)
  refine ⟨_, _, Prod.ext assembled rfl, left, ?_, ?_⟩
  · exact (landing 0 _ 2 (by rw [left]; rfl) rfl).resolve_right
      fun stranded => whole stranded.2
  · exact (landing 1 _ (-4) (by rw [left]; rfl) rfl).resolve_right
      fun stranded => whole stranded.2

/-- A jump over code that nothing reaches. -/
def skipping : Routine :=
  Routine.ofList [.jump (.offset 2), .pushConst 7, .ret 0]

/-- The analysis follows the jump to the return and removes the push between
them.  The distance stays and now leads behind the code, so the analysis refuses
what is left. -/
theorem assemble_strands_skipping :
    ∃ artifact left, skipping.assemble {} = (.ok artifact, left) ∧
      artifact.code = [112, 2, 125] ∧
      left.instrs = [.jump (.offset 2), .ret 0] ∧
      ¬Lands left.instrs 0 (.jump (.offset 2)) 2 ∧
      left.measureDepths.1 = .error (.defect (.jumpOutOfRange 2)) := by
  have assembled : (skipping.assemble {}).1 =
      .ok ⟨[112, 2, 125], 0, ⟨[]⟩, [],
        [.note "removed 1 unreachable instruction(s)"]⟩ := by cbv
  have left : (skipping.assemble {}).2.instrs =
      [.jump (.offset 2), .ret 0] := by cbv
  have refused : (skipping.assemble {}).2.measureDepths.1 =
      .error (.defect (.jumpOutOfRange 2)) := by cbv
  refine ⟨_, _, Prod.ext assembled rfl, rfl, left, ?_, refused⟩
  rw [left]
  rintro ⟨place, inside, reached⟩
  have target : position [.jump (.offset 2), .ret 0] 0 +
      (Instr.jump (.offset 2)).size + (2 : Int32).toInt = 4 := by decide
  have before : ∀ place < 2,
      position [.jump (.offset 2), .ret 0] place < 4 := by decide
  have behind := before place inside
  omega

end StackAssembler
