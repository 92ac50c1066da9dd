import StackAssembler.Assembly
import StackAssembler.Proofs.Emission
import StackAssembler.Proofs.MeasuredCode
import StackAssembler.Proofs.Rewriting

/-!
# The depth analysis is the only gate

A routine that the depth analysis accepts is assembled.  Its labels are
distinct and every jump that is left finds its label; neither tightening nor the
removal of entry points changes that, so all jumps get their distances, and
then nothing is left that the line table or the encoder could refuse.
-/

namespace StackAssembler

open Flow Layout StackDepth Window

theorem resolvable_of_balanced {entries : List Entry}
    (balanced : Balanced entries) : Resolvable (entries.map (·.instr)) where
  distinct := balanced.distinct
  marked member named := by
    obtain ⟨entry, inside, rfl⟩ := List.mem_map.mp member
    exact balanced.marked inside (Instr.jumpLabel?_eq_some_iff.mp named)

theorem Layout.Resolvable.carried {before after : List Instr}
    (resolvable : Resolvable before) (carries : Carries before after) :
    Resolvable after where
  distinct := carries.labels_eq ▸ resolvable.distinct
  marked member named := by
    obtain ⟨source, inside, aimed⟩ := carries.exists_target member
      (Instr.jumpLabel?_eq_some_iff.mp named)
    rw [carries.labels_eq]
    exact resolvable.marked inside (Instr.jumpLabel?_eq_some_iff.mpr aimed)

section Reduction

theorem instrs_dropJitEntries (routine : Routine) :
    routine.dropJitEntries.instrs =
      routine.instrs.filter fun instr => !instr.isJitEntry := by
  simp [Routine.dropJitEntries, Routine.retain, Routine.instrs,
    List.filter_map, Function.comp_def]

theorem carries_dropJitEntries (routine : Routine) :
    Carries routine.instrs routine.dropJitEntries.instrs where
  labels_eq := by
    rw [instrs_dropJitEntries]
    induction routine.instrs with
    | nil => rfl
    | cons instr code ih =>
        cases entry : instr.isJitEntry with
        | true =>
            obtain ⟨number, rfl⟩ := Instr.isJitEntry_iff.mp entry
            simpa [labels_cons, Instr.isJitEntry, Instr.marks?] using ih
        | false => simp [entry, labels_cons, ih]
  exists_target member _ aimed := by
    rw [instrs_dropJitEntries] at member
    exact ⟨_, (List.mem_filter.mp member).1, aimed⟩
  mem_line member := by
    rw [instrs_dropJitEntries] at member
    exact (List.mem_filter.mp member).1

/-- Code with distinct labels can be reduced, and keeps what its layout
needs. -/
theorem exists_reduce {routine : Routine}
    (distinct : (labels routine.instrs).Nodup) (options : Options) :
    ∃ reduced, routine.reduce options = .ok reduced ∧
      Carries routine.instrs reduced.instrs ∧
      (options.jitEntries = false →
        ∀ instr ∈ reduced.instrs, instr.isJitEntry = false) := by
  obtain ⟨tightened, reduced, carries⟩ : ∃ tightened,
      routine.reduce options =
          .ok (if options.jitEntries then tightened
            else tightened.dropJitEntries) ∧
        Carries routine.instrs tightened.instrs := by
    unfold Routine.reduce
    cases options.optimize with
    | false => exact ⟨routine, rfl, .refl _⟩
    | true =>
        obtain ⟨count, tightened, done, -, rewrites⟩ :=
          exists_tighten distinct options.jitEntries
        exact ⟨tightened, by rw [if_pos rfl, done]; rfl,
          carries_of_rewrites rewrites⟩
  refine ⟨_, reduced, ?_⟩
  cases options.jitEntries with
  | true => exact ⟨carries, by simp⟩
  | false =>
      refine ⟨carries.trans (carries_dropJitEntries tightened), ?_⟩
      intro _ instr member
      rw [if_neg (by simp), instrs_dropJitEntries] at member
      simpa using (List.mem_filter.mp member).2

end Reduction

theorem exists_finish {routine : Routine}
    (resolvable : Resolvable routine.instrs) (analysis : Analysis) :
    ∃ count resolved lineCount left,
      routine.resolveJumps = .ok (count, resolved) ∧
      ResolvedFrom routine.instrs 0 routine.instrs resolved.instrs ∧
      resolved.collectLines = .ok (lineCount, left) ∧
      left.instrs = collected resolved.instrs ∧
      Instr.encode left.instrs =
        .ok ⟨resolved.instrs.flatMap Instr.emitted,
          Instr.entryPoints 0 routine.instrs⟩ ∧
      routine.finish analysis =
        (.ok
          { code := resolved.instrs.flatMap Instr.emitted
            maxDepth := analysis.maxDepth
            lines := left.lines
            jitEntries := Instr.entryPoints 0 routine.instrs
            diagnostics := analysis.diagnostics }, left) := by
  obtain ⟨count, resolved, resolvedDone, resolvedFrom⟩ :=
    exists_resolveJumps resolvable
  obtain ⟨lineCount, left, collectedDone, leftInstrs⟩ :=
    exists_collectLines resolved
  have plain : ∀ instr ∈ left.instrs,
      isLine instr = false ∧ instr.jumpLabel? = none := by
    intro instr member
    rw [leftInstrs] at member
    obtain ⟨source, inside, rfl⟩ := mem_collected member
    refine ⟨isLine_settleLine source, ?_⟩
    rw [jumpLabel?_settleLine]
    exact resolvedFrom.jumpLabel?_eq_none source inside
  have encoded : Instr.encode left.instrs =
      .ok ⟨resolved.instrs.flatMap Instr.emitted,
        Instr.entryPoints 0 routine.instrs⟩ := by
    rw [Instr.encode_eq_ok plain, leftInstrs,
      Instr.flatMap_emitted_collected, Instr.entryPoints_collected,
      Instr.entryPoints_of_resolvedFrom resolvedFrom]
  refine ⟨count, resolved, lineCount, left, resolvedDone, resolvedFrom,
    collectedDone, leftInstrs, encoded, ?_⟩
  rw [Routine.finish, resolvedDone]
  simp only [collectedDone, encoded]

section Assemblies

variable {routine measured : Routine} {options : Options}

theorem assemble_of_failure {failure : Failure}
    (rejected : (routine.setCues options.lineCues).measureDepths =
      (.error failure, measured)) :
    routine.assemble options = (.error failure, measured) := by
  rw [Routine.assemble, rejected]

theorem assemble_of_reduce {analysis : Analysis} {reduced : Routine}
    (accepted : (routine.setCues options.lineCues).measureDepths =
      (.ok analysis, measured))
    (done : measured.reduce options = .ok reduced) :
    routine.assemble options = reduced.finish analysis := by
  rw [Routine.assemble, accepted]
  simp only [done]

theorem exists_resolvable_reduce {analysis : Analysis}
    (accepted : (routine.setCues options.lineCues).measureDepths =
      (.ok analysis, measured)) :
    ∃ reduced, measured.reduce options = .ok reduced ∧
      Resolvable reduced.instrs ∧ Carries measured.instrs reduced.instrs ∧
      (options.jitEntries = false →
        ∀ instr ∈ reduced.instrs, instr.isJitEntry = false) := by
  have resolvable := resolvable_of_balanced
    (balanced_of_measureDepths accepted)
  obtain ⟨reduced, done, carries, noEntries⟩ :=
    exists_reduce resolvable.distinct options
  exact ⟨reduced, done, resolvable.carried carries, carries, noEntries⟩

end Assemblies

end StackAssembler
