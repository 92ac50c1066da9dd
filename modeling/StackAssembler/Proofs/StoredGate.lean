import StackAssembler.Proofs.DepthLimits
import StackAssembler.Proofs.StoredHistories
import Mathlib.Tactic.Linarith

/-!
# The depth analysis is the only gate to the artifact

An assembly holds handles, follows links, and keeps tables of what it found at
which handle.  Once the analysis has accepted the code of a body, none of this
goes wrong: each later step finds all its handles in place, ends, and succeeds.
So an assembly fails exactly if its analysis does.

The analysis fails because of a defect of the code, or because a number leaves
the range of its words.  The latter takes code of 2 ^ 32 units or more than 32768
instructions.  There is well-formed code of that kind, and it is not assembled.
-/

namespace StackAssembler

open Flow Layout StackDepth

/-! ## Failures of the analysis -/

section Failures

variable {routine : Routine} {failure : Failure}

theorem overflow_or_defect_of_measureDepths
    (failed : routine.measureDepths.1 = .error failure) :
    failure = .fault .overflow ∨ ∃ defect, failure = .defect defect := by
  rcases measureDepthsBy_integers_or_overflow .words routine with
    same | overflow
  · rw [Routine.measureDepths, same] at failed
    exact .inr (exists_defect_of_measureDepthsBy failed)
  · exact .inl (Except.error.inj (failed.symm.trans overflow))

/-- Depths of few instructions do not overflow. -/
theorem long_of_measureDepths
    (failed : routine.measureDepths.1 = .error (.fault .overflow)) :
    32768 < routine.instrs.length := by
  by_contra short
  rw [Routine.measureDepths, measureDepthsBy_of_short Adder.hasWords_words
    (Nat.le_of_not_lt short)] at failed
  obtain ⟨_, ⟨⟩⟩ := exists_defect_of_measureDepthsBy failed

end Failures

/-- Code with numbers that need not fit their words: those of its positions or
those of its depths. -/
def Oversized (code : List Instr) : Prop :=
  positionLimit ≤ Instr.codeSize code ∨ 32768 < code.length

/-- What an analysis that fails says about the code. -/
def Refused (code : List Instr) (failure : Failure) : Prop :=
  failure = .fault .overflow ∧ Oversized code ∨
    ∃ defect, failure = .defect defect

theorem refused_of_measureDepths {routine : Routine} {failure : Failure}
    (failed : routine.measureDepths.1 = .error failure) :
    Refused routine.instrs failure := by
  rcases overflow_or_defect_of_measureDepths failed with rfl | defect
  · exact .inl ⟨rfl, .inr (long_of_measureDepths failed)⟩
  · exact .inr defect

theorem refused_largeCodeFailure {code : List Instr}
    (large : positionLimit ≤ Instr.codeSize code) :
    Refused code (Program.largeCodeFailure code) := by
  unfold Program.largeCodeFailure
  split
  · exact .inr ⟨_, rfl⟩
  · exact .inl ⟨rfl, .inl large⟩

namespace Program

section Steps

variable {body : Body} {routine : Routine} {options : Options}

theorem assemble_of_steps {measured reduced resolved collected left : Body}
    {analysis : Analysis} {jumps lines : Nat} {encoded : Encoded}
    (analyzed : analyze options body = some (.ok analysis, measured))
    (reducing : reduce options measured = some (.ok (), reduced))
    (resolving : resolveJumps reduced = some (.ok jumps, resolved))
    (collecting : collectLines resolved = some (.ok lines, collected))
    (encoding : encode collected = some (.ok encoded, left)) :
    assemble options body =
      some (.ok
        { code := encoded.code
          maxDepth := analysis.maxDepth
          lines := left.lines
          jitEntries := encoded.jitEntries
          diagnostics := analysis.diagnostics }, left) := by
  rw [assemble, bind_of_ok analyzed, bind_of_ok reducing, finish,
    discard_bind, bind_of_ok resolving, discard_bind, bind_of_ok collecting,
    bind_of_ok encoding]
  rfl

/-- Every step after an analysis that succeeds succeeds too. -/
theorem exists_steps {measured : Body} {accepted : Routine}
    {analysis : Analysis}
    (outcome : (routine.setCues options.lineCues).measureDepths =
      (.ok analysis, accepted))
    (small : (routine.setCues options.lineCues).codeSize < positionLimit)
    (stores : measured.Stores accepted) :
    ∃ reduced resolved collected left jumps lines encoded,
      reduce options measured = some (.ok (), reduced) ∧
      resolveJumps reduced = some (.ok jumps, resolved) ∧
      collectLines resolved = some (.ok lines, collected) ∧
      encode collected = some (.ok encoded, left) := by
  obtain ⟨tight, done, resolvable, tightSmall⟩ :=
    exists_small_reduce outcome small
  obtain ⟨jumps, aimed, lines, plain, encoded, resolving, aimedSmall,
    collecting, plainSmall, encodes, -⟩ :=
    exists_small_finish resolvable tightSmall analysis
  have encoding := performs_encode plainSmall
  rw [encodes] at encoding
  obtain ⟨reduced, reducing, storesTight⟩ :=
    performs_reduce done measured stores
  obtain ⟨resolved, resolvedDone, storesAimed⟩ :=
    performs_resolveJumps tightSmall resolving reduced storesTight
  obtain ⟨collected, collectedDone, storesPlain⟩ :=
    performs_collectLines aimedSmall collecting resolved storesAimed
  obtain ⟨left, encodedDone, -⟩ := encoding collected storesPlain
  exact ⟨reduced, resolved, collected, left, jumps, lines, encoded, reducing,
    resolvedDone, collectedDone, encodedDone⟩

/-- The analysis of a body accepts its code, which is small then, or refuses
it. -/
theorem analyze_cases (stores : body.Stores routine) (options : Options) :
    (∃ failure measured,
      analyze options body = some (.error failure, measured) ∧
      Refused (routine.setCues options.lineCues).instrs failure) ∨
    ∃ analysis measured accepted,
      analyze options body = some (.ok analysis, measured) ∧
      measured.Stores accepted ∧
      (routine.setCues options.lineCues).measureDepths =
        (.ok analysis, accepted) ∧
      (routine.setCues options.lineCues).codeSize < positionLimit := by
  rcases Nat.lt_or_ge (routine.setCues options.lineCues).codeSize
    positionLimit with small | large
  · obtain ⟨measured, analyzed, kept⟩ := performs_analyze small body stores
    rcases outcome : (routine.setCues options.lineCues).measureDepths with
      ⟨failure | analysis, accepted⟩
    · rw [outcome] at analyzed
      exact .inl ⟨failure, measured, analyzed,
        refused_of_measureDepths (congrArg Prod.fst outcome)⟩
    · rw [outcome] at analyzed kept
      exact .inr ⟨analysis, measured, accepted, analyzed, kept, rfl, small⟩
  · obtain ⟨measured, analyzed, -⟩ :=
      performs_analyze_of_large large body stores
    exact .inl ⟨_, measured, analyzed, refused_largeCodeFailure large⟩

end Steps

end Program

/-- An assembly fails exactly if the analysis of the body with its cues set
does, with the same failure and the same body left behind.  If the analysis
succeeds, so does every step after it, and the artifact has the depth and the
notes of the analysis. -/
theorem assemble_fails_iff_analyze_fails {body : Body} (built : Built body)
    (options : Options) :
    ∃ code analysis measured outcome left,
      body.code? = some code ∧
      Program.analyze options body = some (analysis, measured) ∧
      Program.assemble options body = some (outcome, left) ∧
      (∀ failure, outcome = .error failure ↔ analysis = .error failure) ∧
      (∀ failure, outcome = .error failure → left = measured ∧
        Refused (code.map (·.withCue options.lineCues)) failure) ∧
      ∀ found, analysis = .ok found →
        ∃ reduced resolved collected jumps lines encoded artifact,
          Program.reduce options measured = some (.ok (), reduced) ∧
          Program.resolveJumps reduced = some (.ok jumps, resolved) ∧
          Program.collectLines resolved = some (.ok lines, collected) ∧
          Program.encode collected = some (.ok encoded, left) ∧
          outcome = .ok artifact ∧ artifact.maxDepth = found.maxDepth ∧
          artifact.diagnostics = found.diagnostics := by
  obtain ⟨routine, stores⟩ := built.stores
  have cued : (routine.setCues options.lineCues).instrs =
      routine.instrs.map (·.withCue options.lineCues) :=
    Routine.instrs_mapInstrs _ _
  rcases Program.analyze_cases stores options with
    ⟨failure, measured, analyzed, refused⟩ |
    ⟨analysis, measured, accepted, analyzed, kept, outcome, small⟩
  · refine ⟨routine.instrs, .error failure, measured, .error failure, measured,
      stores.code?_eq, analyzed, Program.bind_of_error analyzed,
      by simp, ?_, by simp⟩
    rintro _ ⟨⟩
    exact ⟨rfl, cued ▸ refused⟩
  · obtain ⟨reduced, resolved, collected, left, jumps, lines, encoded,
      reducing, resolving, collecting, encoding⟩ :=
      Program.exists_steps outcome small kept
    refine ⟨routine.instrs, .ok analysis, measured, _, left, stores.code?_eq,
      analyzed, Program.assemble_of_steps analyzed reducing resolving
        collecting encoding, by simp, by simp, ?_⟩
    rintro _ ⟨⟩
    exact ⟨reduced, resolved, collected, jumps, lines, encoded, _, reducing,
      resolving, collecting, encoding, rfl, rfl, rfl⟩

theorem assemble_fails_iff_analyze_fails_loop :
    ∃ body measured left artifact, Built body ∧
      body.code? = some [.push 2, .label ⟨0⟩, .pushVar 1, .popRegPtr,
        .branch .zero (.label ⟨0⟩), .pop 2, .ret 0] ∧
      Program.analyze {} body = some (.ok ⟨3, 0, []⟩, measured) ∧
      Program.assemble {} body = some (.ok artifact, left) ∧
      artifact.maxDepth = 3 := by
  obtain ⟨body, pushed, stores⟩ := Program.performs_pushAll
    [.push 2, .label ⟨0⟩, .pushVar 1, .popRegPtr,
      .branch .zero (.label ⟨0⟩), .pop 2, .ret 0] {} {} (Body.stores_new {})
  have built := Built.new.editAll pushed
  obtain ⟨measured, analyzed, -⟩ :=
    @Program.performs_analyze _ {} (by decide) body stores
  have accepted : ((Routine.pushAll {} [.push 2, .label ⟨0⟩, .pushVar 1,
      .popRegPtr, .branch .zero (.label ⟨0⟩), .pop 2, .ret 0]).setCues
        true).measureDepths.1 = .ok ⟨3, 0, []⟩ := by cbv
  rw [accepted] at analyzed
  obtain ⟨code, analysis, _, outcome, left, -, ran, assembled, -, -, steps⟩ :=
    assemble_fails_iff_analyze_fails built {}
  obtain ⟨rfl, rfl⟩ := Prod.mk.inj (Option.some.inj (analyzed.symm.trans ran))
  obtain ⟨-, -, -, -, -, -, artifact, -, -, -, -, rfl, deep, -⟩ :=
    steps _ rfl
  exact ⟨body, measured, left, artifact, built, stores.code?_eq, analyzed,
    assembled, deep⟩

/-! ## Too many pushes -/

section Pushes

variable {routine : Routine} {units : UInt16} {count : Nat}
  (pushes : routine.instrs = List.replicate count (.push units))

include pushes

/-- The walk along pushes gets deeper by the same number of units each time. -/
theorem exists_climb {height : Nat} (inside : height ≤ count) :
    ∃ walk, Relation.ReflTransGen (Visit .integers routine.instrs)
        (start routine) walk ∧
      walk.pending = [(height, (units.toNat : Int) * height)] ∧
      walk.deepest = (units.toNat : Int) * height ∧
      ∀ index, height ≤ index →
        walk.entries[index]? = (start routine).entries[index]? := by
  induction height with
  | zero => exact ⟨start routine, .refl, by simp [start], by simp [start],
      fun _ _ => rfl⟩
  | succ height ih =>
      obtain ⟨walk, run, waiting, deepest, rest⟩ := ih (by omega)
      have here : routine.instrs[height]? = some (.push units) := by
        rw [pushes, List.getElem?_replicate, if_pos (by omega)]
      have long : height < (start routine).entries.length := by
        rw [(tracks_start routine).length_eq, pushes, List.length_replicate]
        omega
      have found := List.getElem?_eq_getElem long
      obtain ⟨blank, same⟩ := blank_start found
      have pushed := Option.some.inj (same.symm.trans here)
      have arrived : arrive .integers routine.instrs height
          ((units.toNat : Int) * height) (.push units) =
            (.push units, .ok ((units.toNat : Int) * (height + 1 : Nat),
              [height + 1])) := by
        refine arrive_eq_ok_iff.mpr ⟨rfl, ?_, by positivity, rfl⟩
        simp [Adder.integers, Instr.stackChange, mul_add]
      rw [← pushed] at arrived
      refine ⟨_, run.tail (.enter waiting ((rest height le_rfl).trans found)
        blank arrived), rfl, ?_, ?_⟩
      · rw [deepest]
        apply max_eq_right
        push_cast
        nlinarith
      · intro index above
        rw [List.getElem?_set_ne (by omega)]
        exact rest index (by omega)

theorem measureDepthsBy_pushes :
    ∃ analysis left,
      routine.measureDepthsBy .integers = (.ok analysis, left) ∧
        analysis.maxDepth = units.toNat * count := by
  obtain ⟨walk, run, waiting, deepest, rest⟩ := exists_climb pushes le_rfl
  have unmarked : labels routine.instrs = [] := by
    rw [pushes, labels, List.filterMap_replicate_of_none rfl]
  have behind : routine.instrs.length ≤ count := by
    rw [pushes, List.length_replicate]
  have passed : Visit .integers routine.instrs walk { walk with pending := [] } :=
    .pass waiting (by
      intro entry found
      rw [rest count le_rfl] at found
      have inside := (List.getElem?_eq_some_iff.mp found).1
      rw [(tracks_start routine).length_eq] at inside
      omega)
  have ended := (explore_of_run (run.tail passed)).trans
    (explore_of_halts (.done rfl))
  refine ⟨_, _, measureDepthsBy_of_finished (unmarked ▸ List.nodup_nil) ended, ?_⟩
  simp only [analysisOf, deepest]
  omega

/-- Pushes of more units than a word can count are refused. -/
theorem measureDepths_pushes_overflows
    (tall : 2147483647 < units.toNat * count) :
    routine.measureDepths.1 = .error (.fault .overflow) := by
  obtain ⟨analysis, left, accepted, deep⟩ := measureDepthsBy_pushes pushes
  rcases measureDepthsBy_integers_or_overflow .words routine with
    same | overflow
  · have within := (measureDepths_eq_ok_iff.mp (same.trans accepted)).2
    omega
  · exact overflow

end Pushes

theorem wellFormed_pushes (count : Nat) (units : UInt16) :
    WellFormed (List.replicate count (.push units)) := by
  have pushes := Routine.instrs_ofList (List.replicate count (.push units))
  obtain ⟨analysis, left, accepted, -⟩ := measureDepthsBy_pushes pushes
  obtain ⟨distinct, final, ended, -⟩ := finished_of_measureDepthsBy accepted
  obtain ⟨closed, finished⟩ := closed_of_finished ended
  exact pushes ▸ closed.wellFormed finished distinct

theorem Instr.codeSize_replicate (count : Nat) (instr : Instr) :
    codeSize (List.replicate count instr) = count * instr.size := by
  induction count with
  | zero => simp
  | succ count ih => rw [List.replicate_succ, codeSize_cons, ih, Nat.succ_mul,
      Nat.add_comm]

/-- Well-formed code of small size is refused if it pushes too many units. -/
theorem exists_refused_pushes {count : Nat} {units : UInt16}
    (small : count < positionLimit)
    (tall : 2147483647 < units.toNat * count) :
    ∃ body left, Built body ∧
      body.code? = some (List.replicate count (.push units)) ∧
      Program.analyze {} body = some (.error (.fault .overflow), left) ∧
      Program.assemble {} body = some (.error (.fault .overflow), left) := by
  obtain ⟨body, pushed, stores⟩ := Program.performs_pushAll
    (List.replicate count (.push units)) {} {} (Body.stores_new {})
  have code := stores.code?_eq
  have cued : ((Routine.pushAll {}
      (List.replicate count (.push units))).setCues true).instrs =
        List.replicate count (.push units) := by
    rw [Routine.setCues, Routine.instrs_mapInstrs, Routine.instrs_pushAll]
    simp [Routine.instrs, Instr.withCue]
  have fits : ((Routine.pushAll {}
      (List.replicate count (.push units))).setCues true).codeSize <
        positionLimit := by
    have single : Instr.size (.push units) = 1 := rfl
    rw [Routine.codeSize, cued, Instr.codeSize_replicate, single, Nat.mul_one]
    exact small
  obtain ⟨left, analyzed, -⟩ :=
    @Program.performs_analyze _ {} fits body stores
  rw [measureDepths_pushes_overflows cued tall] at analyzed
  rw [Routine.instrs_pushAll] at code
  exact ⟨body, left, Built.new.editAll pushed, code, analyzed,
    Program.bind_of_error analyzed⟩

/-- These pushes are well-formed code of 32769 units.  The depth behind them is
2147516415, which is more than a word can hold, so that they are refused. -/
theorem assemble_overflows_on_pushes :
    ∃ body left, Built body ∧
      body.code? = some (List.replicate 32769 (.push 65535)) ∧
      Instr.codeSize (List.replicate 32769 (.push 65535)) = 32769 ∧
      WellFormed (List.replicate 32769 (.push 65535)) ∧
      Program.analyze {} body = some (.error (.fault .overflow), left) ∧
      Program.assemble {} body = some (.error (.fault .overflow), left) := by
  obtain ⟨body, left, built, code, analyzed, assembled⟩ :=
    @exists_refused_pushes 32769 65535 (by decide) (by decide)
  exact ⟨body, left, built, code, Instr.codeSize_replicate 32769 (.push 65535),
    wellFormed_pushes 32769 65535, analyzed, assembled⟩

end StackAssembler
