import StackAssembler.Proofs.HandleIndependence
import StackAssembler.Proofs.SettledCode
import StackAssembler.Proofs.ShrinkingCode
import StackAssembler.Proofs.StoredDepths
import StackAssembler.Proofs.StoredLayout
import StackAssembler.Proofs.StoredWindows

/-!
# The assembly in linked storage

Each step of an assembly performs on a body what it does to a routine, and so
does the assembly as a whole.  The positions of the code have to fit their words
for that.  The code gets no larger from step to step, so it is enough to know
this of the code with its cues set; if it is too large, the analysis says so.
-/

namespace StackAssembler

open Flow Layout StackDepth Window

/-! ## Sizes -/

namespace Instr

theorem codeSize_le_of_sublist {first second : List Instr}
    (sublist : first.Sublist second) : codeSize first ≤ codeSize second := by
  induction sublist with
  | slnil => exact Nat.le_refl _
  | cons instr _ ih =>
      rw [codeSize_cons]
      omega
  | cons_cons instr _ ih =>
      rw [codeSize_cons, codeSize_cons]
      omega

theorem codeSize_congr {first second : List Instr}
    (length_eq : first.length = second.length)
    (same : ∀ (index : Nat) (instr other : Instr),
      first[index]? = some instr → second[index]? = some other →
        instr.size = other.size) : codeSize first = codeSize second := by
  induction first generalizing second with
  | nil =>
      rw [List.eq_nil_of_length_eq_zero length_eq.symm]
  | cons instr first ih =>
      cases second with
      | nil => cases length_eq
      | cons other second =>
          rw [codeSize_cons, codeSize_cons, same 0 instr other rfl rfl,
            ih (Nat.succ.inj length_eq) fun index => same (index + 1)]

end Instr

theorem StackDepth.Tracks.codeSize_eq {code : List Instr} {entries : List Entry}
    (tracks : Tracks code entries) :
    Instr.codeSize (entries.map (·.instr)) = Instr.codeSize code := by
  apply Instr.codeSize_congr (by simpa using tracks.length_eq)
  intro index instr other found there
  rw [List.getElem?_map] at found
  obtain ⟨entry, located, rfl⟩ := Option.map_eq_some_iff.mp found
  cases known : entry.depth with
  | none =>
      obtain rfl := Option.some.inj
        (there.symm.trans (tracks.blank located known))
      rfl
  | some depth =>
      obtain ⟨old, here, done⟩ := tracks.anchored located known
      obtain rfl := Option.some.inj (there.symm.trans here)
      exact size_of_anchor done

/-- What the analysis leaves is no larger than what it got. -/
theorem codeSize_measureDepths_le {routine measured : Routine}
    {analysis : Analysis}
    (accepted : routine.measureDepths = (.ok analysis, measured)) :
    measured.codeSize ≤ routine.codeSize := by
  obtain ⟨-, final, ended, -, rfl⟩ := finished_of_measureDepthsBy accepted
  have tracks := (closed_of_finished ended).1.tracks
  rw [Routine.codeSize, Routine.codeSize, ← tracks.codeSize_eq]
  apply Instr.codeSize_le_of_sublist
  exact (List.filter_sublist).map _

theorem tightened_of_reduce {routine reduced : Routine} {options : Options}
    (done : routine.reduce options = .ok reduced) :
    ∃ tightened,
      (options.optimize = false ∧ tightened = routine ∨
        options.optimize = true ∧ ∃ count,
          routine.tighten options.jitEntries = .ok (count, tightened)) ∧
      reduced = if options.jitEntries then tightened
        else tightened.dropJitEntries := by
  unfold Routine.reduce at done
  cases wanted : options.optimize with
  | false =>
      rw [wanted] at done
      exact ⟨routine, .inl ⟨rfl, rfl⟩, (Except.ok.inj done).symm⟩
  | true =>
      rw [wanted, if_pos rfl] at done
      cases outcome : routine.tighten options.jitEntries with
      | error defect =>
          rw [outcome] at done
          cases done
      | ok result =>
          rw [outcome] at done
          exact ⟨result.2, .inr ⟨rfl, result.1, rfl⟩,
            (Except.ok.inj done).symm⟩

theorem codeSize_reduce_le {routine reduced : Routine} {options : Options}
    (distinct : (labels routine.instrs).Nodup)
    (done : routine.reduce options = .ok reduced) :
    reduced.codeSize ≤ routine.codeSize := by
  obtain ⟨tightened, kept, rfl⟩ := tightened_of_reduce done
  have tight : tightened.codeSize ≤ routine.codeSize := by
    rcases kept with ⟨-, rfl⟩ | ⟨-, count, outcome⟩
    · exact Nat.le_refl _
    · obtain ⟨_, _, again, -, rewrites⟩ :=
        exists_tighten distinct options.jitEntries
      obtain ⟨rfl, rfl⟩ := Prod.mk.inj
        (Except.ok.inj (again.symm.trans outcome))
      exact (shrinks_of_rewrites rewrites).codeSize_le
  refine Nat.le_trans ?_ tight
  split
  · exact Nat.le_refl _
  · rw [Routine.codeSize, instrs_dropJitEntries]
    exact Instr.codeSize_le_of_sublist List.filter_sublist

/-- Small code that the analysis accepts is reduced to small code. -/
theorem exists_small_reduce {routine measured : Routine} {options : Options}
    {analysis : Analysis}
    (accepted : (routine.setCues options.lineCues).measureDepths =
      (.ok analysis, measured))
    (small : (routine.setCues options.lineCues).codeSize < positionLimit) :
    ∃ reduced, measured.reduce options = .ok reduced ∧
      Resolvable reduced.instrs ∧ reduced.codeSize < positionLimit := by
  obtain ⟨reduced, done, resolvable, -⟩ := exists_resolvable_reduce accepted
  have distinct := (resolvable_of_balanced
    (balanced_of_measureDepths accepted)).distinct
  exact ⟨reduced, done, resolvable, ((codeSize_reduce_le distinct done).trans
    (codeSize_measureDepths_le accepted)).trans_lt small⟩

theorem exists_small_finish {routine : Routine}
    (resolvable : Resolvable routine.instrs)
    (small : routine.codeSize < positionLimit) (analysis : Analysis) :
    ∃ count resolved lineCount left encoded,
      routine.resolveJumps = .ok (count, resolved) ∧
      resolved.codeSize < positionLimit ∧
      resolved.collectLines = .ok (lineCount, left) ∧
      left.codeSize < positionLimit ∧
      Instr.encode left.instrs = .ok encoded ∧
      routine.finish analysis =
        (.ok
          { code := encoded.code
            maxDepth := analysis.maxDepth
            lines := left.lines
            jitEntries := encoded.jitEntries
            diagnostics := analysis.diagnostics }, left) := by
  obtain ⟨count, resolved, lineCount, left, resolving, resolvedFrom,
    collecting, leftInstrs, encoded, finished⟩ :=
    exists_finish resolvable analysis
  have resolvedSmall : resolved.codeSize < positionLimit := by
    rw [Routine.codeSize, resolvedFrom.codeSize_eq]
    exact small
  have leftSmall : left.codeSize < positionLimit := by
    rw [Routine.codeSize, leftInstrs, codeSize_collected]
    exact resolvedSmall
  exact ⟨count, resolved, lineCount, left, _, resolving, resolvedSmall,
    collecting, leftSmall, encoded, finished⟩

namespace Program

section Steps

variable {routine : Routine} {options : Options}

theorem performs_analyze
    (small : (routine.setCues options.lineCues).codeSize < positionLimit) :
    Performs (analyze options) routine
      (routine.setCues options.lineCues).measureDepths :=
  (performs_head routine).bind
    ((performs_setCuesFrom options.lineCues (List.nil_append _).symm).bind
      (performs_measureDepths small))

theorem performs_analyze_of_large
    (large : positionLimit ≤ (routine.setCues options.lineCues).codeSize) :
    Performs (analyze options) routine
      (.error (largeCodeFailure (routine.setCues options.lineCues).instrs),
        (routine.setCues options.lineCues).clearDepths) :=
  (performs_head routine).bind
    ((performs_setCuesFrom options.lineCues (List.nil_append _).symm).bind
      (performs_measureDepths_of_large large))

theorem performs_reduce {reduced : Routine}
    (done : routine.reduce options = .ok reduced) :
    Performs (reduce options) routine (.ok (), reduced) := by
  obtain ⟨tightened, kept, rfl⟩ := tightened_of_reduce done
  have dropping : Performs
      (if !options.jitEntries then head >>= Link.dropJitEntries else pure ())
      tightened (.ok (), if options.jitEntries then tightened
        else tightened.dropJitEntries) := by
    cases options.jitEntries with
    | true => exact performs_pure _ _
    | false => exact performs_dropJitEntries tightened
  unfold reduce
  rcases kept with ⟨unwanted, rfl⟩ | ⟨wanted, count, outcome⟩
  · rw [unwanted]
    exact dropping
  · have tightening := @performs_tighten routine options.jitEntries
    rw [outcome] at tightening
    rw [wanted]
    exact tightening.discard.bind dropping

theorem performs_finish (resolvable : Resolvable routine.instrs)
    (small : routine.codeSize < positionLimit) (analysis : Analysis) :
    Performs (finish analysis) routine (routine.finish analysis) := by
  obtain ⟨count, resolved, lineCount, left, encoded, resolving, resolvedSmall,
    collecting, leftSmall, encodes, finished⟩ :=
    exists_small_finish resolvable small analysis
  have encoding := performs_encode leftSmall
  rw [encodes] at encoding
  rw [finished]
  apply (performs_resolveJumps small resolving).discard.bind
  apply (performs_collectLines resolvedSmall collecting).discard.bind
  apply encoding.bind
  refine performs_get fun body stores => ?_
  rw [stores.lines_eq]
  exact performs_pure _ _

/-- The assembly of a body with small code is the assembly of the routine. -/
theorem performs_assemble
    (small : (routine.setCues options.lineCues).codeSize < positionLimit) :
    Performs (assemble options) routine (routine.assemble options) := by
  have analyzing := @performs_analyze _ options small
  rcases outcome : (routine.setCues options.lineCues).measureDepths with
    ⟨failure | analysis, measured⟩
  · rw [outcome] at analyzing
    rw [assemble_of_failure outcome]
    exact analyzing.bind_error
  · rw [outcome] at analyzing
    obtain ⟨reduced, done, resolvable, reducedSmall⟩ :=
      exists_small_reduce outcome small
    rw [assemble_of_reduce outcome done]
    apply analyzing.bind
    apply (performs_reduce done).bind
    exact performs_finish resolvable reducedSmall analysis

theorem performs_assemble_of_large
    (large : positionLimit ≤ (routine.setCues options.lineCues).codeSize) :
    Performs (assemble options) routine
      (.error (largeCodeFailure (routine.setCues options.lineCues).instrs),
        (routine.setCues options.lineCues).clearDepths) :=
  (performs_analyze_of_large large).bind_error

end Steps

end Program

end StackAssembler
