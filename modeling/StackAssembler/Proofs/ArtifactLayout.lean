import StackAssembler.Proofs.AssemblyGate
import Mathlib

/-!
# The layout of an artifact

The code of an artifact is made of chunks, one for each instruction that is
left when the jumps get their distances.  A jump carries the number of units
from its end to the chunk of its label, counted in the code as it is emitted:
the positions that the distances are computed from, before any line is
collected, are the positions that the encoder reaches.
-/

namespace StackAssembler

open Flow Layout StackDepth Window

/-- The number of units in front of the chunk at an index. -/
def unitsBefore (chunks : List (List UInt32)) (index : Nat) : Nat :=
  (chunks.take index).flatten.length

/-- The chunk of an instruction that stands at an index of the code, where
`cues` says whether lines are cues and `chunks` are the chunks of all
instructions. -/
inductive Chunk (code : List Instr) (cues : Bool) (chunks : List (List UInt32))
    (index : Nat) : Instr → List UInt32 → Prop
  | label (name : Label) : Chunk code cues chunks index (.label name) []
  | line (pos : SourcePos) (cue : Bool) :
      Chunk code cues chunks index (.line pos cue)
        (if cues then [0x7E] else [])
  | jump {instr : Instr} {opcode : Opcode} {name : Label} {place : Nat}
      {distance : Int32} (coded : instr.opcode? = some opcode)
      (aimed : instr.target? = some (.label name))
      (marked : code[place]? = some (.label name))
      (apart : distance.toInt =
        unitsBefore chunks place - unitsBefore chunks (index + 1)) :
      Chunk code cues chunks index instr
        [Instr.packWords opcode.byte.toUInt16 0, distance.toUInt32]
  | plain {instr : Instr} {opcode : Opcode}
      (coded : instr.opcode? = some opcode) (unaimed : instr.target? = none) :
      Chunk code cues chunks index instr
        (Instr.pack instr.shape opcode instr.payload)

section Sources

theorem target?_withCue (instr : Instr) (cue : Bool) :
    (instr.withCue cue).target? = instr.target? := by
  cases instr <;> rfl

theorem mem_instrs_setCues {routine : Routine} {cue : Bool} {instr : Instr}
    (member : instr ∈ (routine.setCues cue).instrs) :
    ∃ source ∈ routine.instrs, source.withCue cue = instr := by
  rw [Routine.setCues, Routine.instrs_mapInstrs] at member
  exact List.mem_map.mp member

variable {routine measured : Routine} {options : Options} {analysis : Analysis}
  {code : List Instr}
  (accepted : (routine.setCues options.lineCues).measureDepths =
    (.ok analysis, measured))
  (carries : Carries measured.instrs code)

include accepted carries

theorem exists_source_target {instr : Instr} (member : instr ∈ code)
    {target : Target} (aimed : instr.target? = some target) :
    ∃ source ∈ routine.instrs, source.target? = some target := by
  obtain ⟨anchored, inside, same⟩ := carries.exists_target member aimed
  obtain ⟨cued, cuedInside, depth, done⟩ :=
    exists_anchor_of_measureDepths accepted inside
  obtain ⟨source, sourceInside, rfl⟩ := mem_instrs_setCues cuedInside
  refine ⟨source, sourceInside, ?_⟩
  rw [← target?_withCue, ← target?_of_anchor done, same]

/-- All lines that are left are cues or none of them is. -/
theorem cue_of_mem_line {pos : SourcePos} {cue : Bool}
    (member : .line pos cue ∈ code) : cue = options.lineCues := by
  obtain ⟨cued, cuedInside, depth, done⟩ :=
    exists_anchor_of_measureDepths accepted (carries.mem_line member)
  obtain ⟨source, -, rfl⟩ := mem_instrs_setCues cuedInside
  rcases eq_or_frameAddr_of_anchor done with same | ⟨_, _, -, other⟩
  · cases source <;> simp_all [Instr.withCue]
  · simp at other

end Sources

section Positions

variable {code rest others : List Instr} {start : Nat}

/-- Distances move no instruction. -/
theorem Layout.ResolvedFrom.position_eq
    (resolved : ResolvedFrom code start rest others) (index : Nat) :
    position others index = position rest index := by
  induction resolved generalizing index with
  | nil => rfl
  | cons head _ ih =>
      cases index with
      | zero => simp
      | succ index => simp [head.size_eq.1, ih]

/-- The positions that distances are computed from are those of the chunks. -/
theorem Layout.ResolvedFrom.unitsBefore_eq
    (resolved : ResolvedFrom code start rest others) (index : Nat) :
    unitsBefore (others.map Instr.emitted) index = position rest index := by
  rw [unitsBefore, ← List.map_take, ← List.flatMap_def,
    Instr.length_flatMap_emitted]
  exact resolved.position_eq index

end Positions

theorem toInt_distance {target finish : Nat} (targetShort : target < 2 ^ 31)
    (finishShort : finish < 2 ^ 31) :
    (Int32.ofInt (target - finish)).toInt = target - finish :=
  Int32.toInt_ofInt_of_le (by omega) (by omega)

theorem emitted_of_retarget? {instr new : Instr} {distance : Int32}
    (turned : instr.retarget? (.offset distance) = some new) :
    ∃ opcode, instr.opcode? = some opcode ∧
      new.emitted =
        [Instr.packWords opcode.byte.toUInt16 0, distance.toUInt32] := by
  obtain ⟨_, rfl, rfl⟩ | ⟨cond, _, rfl, rfl⟩ := retarget?_eq_some turned
  · refine ⟨_, rfl, ?_⟩
    rw [Instr.emitted_of_opcode? rfl]
    simp [Instr.pack, Instr.shape, Instr.payload, Target.bits]
  · refine ⟨_, rfl, ?_⟩
    rw [Instr.emitted_of_opcode? rfl]
    simp [Instr.pack, Instr.shape, Instr.payload, Target.bits]

/-- In short code whose jumps all name labels, every instruction leaves its
chunk. -/
theorem chunk_of_resolvedFrom {code resolved : List Instr} {cues : Bool}
    (resolvedFrom : ResolvedFrom code 0 code resolved)
    (named : ∀ instr ∈ code, ∀ target, instr.target? = some target →
      ∃ name, target = .label name)
    (cued : ∀ pos cue, .line pos cue ∈ code → cue = cues)
    (short : Instr.codeSize code < 2 ^ 31) {index : Nat} {instr : Instr}
    {chunk : List UInt32} (here : code[index]? = some instr)
    (found : (resolved.map Instr.emitted)[index]? = some chunk) :
    Chunk code cues (resolved.map Instr.emitted) index instr chunk := by
  have inside := List.mem_of_getElem? here
  obtain ⟨new, there, outcome⟩ := resolvedFrom.getElem? here
  obtain rfl : new.emitted = chunk := by
    simpa [List.getElem?_map, there] using found
  cases outcome with
  | kept unnamed =>
      have unaimed : instr.target? = none := by
        cases aimed : instr.target? with
        | none => rfl
        | some target =>
            obtain ⟨name, rfl⟩ := named instr inside target aimed
            simp [Instr.jumpLabel?_eq_some_iff.mpr aimed] at unnamed
      cases marker : instr.isMarker with
      | false =>
          obtain ⟨opcode, coded⟩ := Instr.exists_opcode? marker
          rw [Instr.emitted_of_opcode? coded]
          exact .plain coded unaimed
      | true =>
          cases instr with
          | label name => exact .label name
          | line pos cue =>
              obtain rfl := cued pos cue inside
              exact .line pos cue
          | _ => simp [Instr.isMarker] at marker
  | @turned _ name place isNamed located turned =>
      obtain ⟨opcode, coded, units⟩ := emitted_of_retarget? turned
      rw [units]
      refine .jump coded (Instr.jumpLabel?_eq_some_iff.mp isNamed)
        (labelIndex?_eq_some_iff.mp located).1 ?_
      rw [resolvedFrom.unitsBefore_eq, resolvedFrom.unitsBefore_eq,
        position_succ here, Nat.zero_add]
      have placeShort := position_le_codeSize code place
      have finishShort := position_le_codeSize code (index + 1)
      rw [position_succ here] at finishShort
      rw [← Int.natCast_add]
      exact toInt_distance (by omega) (by omega)

/-- Code laid out as an artifact: its chunks one after the other, and where the
chunks of its entry points start. -/
structure LaidOut (code : List Instr) (cues : Bool)
    (chunks : List (List UInt32)) (artifact : Artifact) : Prop where
  distinct : (labels code).Nodup
  length_eq : chunks.length = code.length
  code_eq : artifact.code = chunks.flatten
  chunk : ∀ {index : Nat} {instr : Instr} {units : List UInt32},
    code[index]? = some instr → chunks[index]? = some units →
      Chunk code cues chunks index instr units
  increasing : artifact.jitEntries.Pairwise (· < ·)
  mem_jitEntries_iff : ∀ {place : Nat}, place ∈ artifact.jitEntries ↔
    ∃ (index : Nat) (number : UInt16),
      code[index]? = some (.jitEntry number) ∧
        place = unitsBefore chunks index

/-- The artifact of a routine whose jumps all name labels is laid out as the
code that is left after the reduction, if it is short enough for distances of
32 bits. -/
theorem assemble_lays_out_code {routine left : Routine} {options : Options}
    {artifact : Artifact}
    (named : ∀ instr ∈ routine.instrs, ∀ target,
      instr.target? = some target → ∃ name, target = .label name)
    (assembled : routine.assemble options = (.ok artifact, left))
    (short : artifact.code.length < 2 ^ 31) :
    ∃ analysis measured reduced chunks,
      (routine.setCues options.lineCues).measureDepths =
        (.ok analysis, measured) ∧
      measured.reduce options = .ok reduced ∧
      LaidOut reduced.instrs options.lineCues chunks artifact ∧
      artifact.code.length = left.codeSize ∧
      (options.jitEntries = false → artifact.jitEntries = []) := by
  rcases outcome : (routine.setCues options.lineCues).measureDepths with
    ⟨defect | analysis, measured⟩
  · simp [assemble_of_failure outcome] at assembled
  obtain ⟨reduced, done, resolvable, carries, noEntries⟩ :=
    exists_resolvable_reduce outcome
  obtain ⟨_, resolved, _, last, -, resolvedFrom, -, lastInstrs, -,
    finished⟩ := exists_finish resolvable analysis
  rw [assemble_of_reduce outcome done, finished] at assembled
  obtain ⟨⟨⟩, rfl⟩ := assembled
  have size : (resolved.instrs.flatMap Instr.emitted).length =
      Instr.codeSize reduced.instrs := by
    rw [Instr.length_flatMap_emitted, resolvedFrom.codeSize_eq]
  have reducedNamed : ∀ instr ∈ reduced.instrs, ∀ target,
      instr.target? = some target → ∃ name, target = .label name := by
    intro instr member target aimed
    obtain ⟨source, inside, same⟩ :=
      exists_source_target outcome carries member aimed
    exact named source inside target same
  refine ⟨analysis, measured, reduced, resolved.instrs.map Instr.emitted, rfl,
    done, ?_, ?_, ?_⟩
  · exact
      { distinct := resolvable.distinct
        length_eq := by rw [List.length_map, resolvedFrom.length_eq]
        code_eq := List.flatMap_def
        chunk := chunk_of_resolvedFrom resolvedFrom reducedNamed
          (fun _ _ => cue_of_mem_line outcome carries) (size ▸ short)
        increasing := Instr.pairwise_entryPoints _ _
        mem_jitEntries_iff := by
          simp only [Instr.mem_entryPoints_iff, resolvedFrom.unitsBefore_eq,
            Nat.zero_add, implies_true] }
  · rw [Routine.codeSize, lastInstrs, ← Instr.length_flatMap_emitted,
      Instr.flatMap_emitted_collected]
  · intro off
    refine List.eq_nil_iff_forall_not_mem.mpr fun place inside => ?_
    obtain ⟨index, number, here, -⟩ := Instr.mem_entryPoints_iff.mp inside
    simpa [Instr.isJitEntry] using noEntries off _ (List.mem_of_getElem? here)

/-- A loop that is entered at its test, with a jump forward and a jump back. -/
def polling : Routine :=
  Routine.ofList [.line ⟨4, 2⟩ false, .jump (.label ⟨1⟩), .label ⟨0⟩,
    .jitEntry 3, .decVi 0, .label ⟨1⟩, .cmpImm .int 0 0, .test .positive,
    .branch .notZero (.label ⟨0⟩), .ret 0]

theorem assemble_lays_out_code_polling :
    ∃ artifact left,
      polling.assemble ⟨true, true, true⟩ = (.ok artifact, left) ∧
      artifact.code =
        [126, 112, 2, 196735, 46, 92, 0, 117, 4294967290, 125] ∧
      artifact.jitEntries = [3] ∧
      ∃ analysis measured reduced chunks,
        (polling.setCues true).measureDepths = (.ok analysis, measured) ∧
        measured.reduce ⟨true, true, true⟩ = .ok reduced ∧
        LaidOut reduced.instrs true chunks artifact ∧
        artifact.code.length = left.codeSize := by
  have named : ∀ instr ∈ polling.instrs, ∀ target,
      instr.target? = some target → ∃ name, target = .label name := by
    have aims : ∀ instr ∈ polling.instrs, instr.target? = none ∨
        instr.target? = some (.label ⟨0⟩) ∨
          instr.target? = some (.label ⟨1⟩) := by decide
    intro instr member target aimed
    rcases aims instr member with same | same | same
    · simp [same] at aimed
    · exact ⟨⟨0⟩, Option.some.inj (aimed.symm.trans same)⟩
    · exact ⟨⟨1⟩, Option.some.inj (aimed.symm.trans same)⟩
  have assembled : (polling.assemble ⟨true, true, true⟩).1 =
      .ok ⟨[126, 112, 2, 196735, 46, 92, 0, 117, 4294967290, 125], 0,
        ⟨[⟨0, ⟨4, 2⟩⟩]⟩, [3], []⟩ := by cbv
  obtain ⟨analysis, measured, reduced, chunks, accepted, done, laidOut, size,
    -⟩ := assemble_lays_out_code named (Prod.ext assembled rfl) (by decide)
  exact ⟨_, _, Prod.ext assembled rfl, rfl, rfl, analysis, measured, reduced,
    chunks, accepted, done, laidOut, size⟩

end StackAssembler
