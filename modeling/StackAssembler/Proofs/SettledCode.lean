import StackAssembler.Proofs.ArtifactLayout

/-!
# What an assembly leaves behind

The instructions that an assembly leaves are settled: lines are gone or have
become suspend points, and jumps carry distances.  The two changes commute.  So
what is left is the resolved form of the reduced code without its lines, and
the positions and labels of that code are those that the distances were
computed from.
-/

namespace StackAssembler

open Flow Relation StackDepth Window

namespace Layout

section Collecting

variable {code : List Instr} {instr : Instr} {name : Label}

theorem collected_cons (instr : Instr) (code : List Instr) :
    collected (instr :: code) =
      if vanishes instr then collected code
      else settleLine instr :: collected code := by
  cases gone : vanishes instr <;> simp [collected, gone]

theorem marks?_settleLine (instr : Instr) :
    (settleLine instr).marks? = instr.marks? := by
  cases instr <;> rfl

theorem marks?_of_vanishes (gone : vanishes instr = true) :
    instr.marks? = none := by
  cases instr <;> first | rfl | cases gone

theorem size_of_vanishes (gone : vanishes instr = true) : instr.size = 0 := by
  rw [← Instr.length_emitted, Instr.emitted_of_vanishes gone]
  rfl

theorem codeSize_collected (code : List Instr) :
    Instr.codeSize (collected code) = Instr.codeSize code := by
  rw [← Instr.length_flatMap_emitted, Instr.flatMap_emitted_collected,
    Instr.length_flatMap_emitted]

def labelPosition? (code : List Instr) (name : Label) : Option Nat :=
  (labelIndex? code name).map (position code)

theorem labelPosition?_cons (instr : Instr) (code : List Instr)
    (name : Label) :
    labelPosition? (instr :: code) name =
      if instr.marks? = some name then some 0
      else (labelPosition? code name).map (instr.size + ·) := by
  unfold labelPosition? labelIndex?
  rw [List.findIdx?_cons]
  split
  · rename_i marked
    rw [if_pos (by simpa using marked)]
    simp
  · rename_i unmarked
    rw [if_neg (by simpa using unmarked)]
    simp [Function.comp_def]

theorem labelPosition?_collected (code : List Instr) (name : Label) :
    labelPosition? (collected code) name = labelPosition? code name := by
  induction code with
  | nil => rfl
  | cons instr code ih =>
      rw [collected_cons]
      cases gone : vanishes instr with
      | true => simp [labelPosition?_cons, marks?_of_vanishes gone,
          size_of_vanishes gone, ih]
      | false => simp [labelPosition?_cons, marks?_settleLine,
          Instr.size_settleLine gone, ih]

theorem exists_labelIndex?_collected {index : Nat}
    (located : labelIndex? code name = some index) :
    ∃ place, labelIndex? (collected code) name = some place ∧
      position (collected code) place = position code index := by
  have same := labelPosition?_collected code name
  unfold labelPosition? at same
  rw [located, Option.map_some, Option.map_eq_some_iff] at same
  exact same

end Collecting

section Resolving

variable {code rest others : List Instr} {start : Nat}

/-- Lines may be collected before an instruction gets its distance. -/
theorem Resolved.collected {instr new : Instr}
    (resolved : Resolved code start instr new) :
    vanishes new = vanishes instr ∧
      Resolved (collected code) start (settleLine instr)
        (settleLine new) := by
  cases resolved with
  | kept unnamed =>
      exact ⟨rfl, .kept ((jumpLabel?_settleLine instr).trans unnamed)⟩
  | turned named located turned =>
      obtain ⟨place, found, same⟩ := exists_labelIndex?_collected located
      rw [← same] at turned
      obtain ⟨_, rfl, rfl⟩ | ⟨_, _, rfl, rfl⟩ := retarget?_eq_some turned
      · exact ⟨rfl, .turned named found turned⟩
      · exact ⟨rfl, .turned named found turned⟩

theorem ResolvedFrom.collected
    (resolved : ResolvedFrom code start rest others) :
    ResolvedFrom (collected code) start (collected rest)
      (collected others) := by
  induction resolved with
  | nil => exact .nil
  | @cons start instr new rest others first _ ih =>
      obtain ⟨alike, settled⟩ := first.collected
      rw [collected_cons, collected_cons, alike]
      cases gone : vanishes instr with
      | true => simpa [size_of_vanishes gone] using ih
      | false => exact .cons settled (Instr.size_settleLine gone ▸ ih)

theorem ResolvedFrom.exists_getElem?
    (resolved : ResolvedFrom code 0 code others) {index : Nat} {new : Instr}
    (there : others[index]? = some new) :
    ∃ instr, code[index]? = some instr ∧
      Resolved code (position code index) instr new := by
  obtain ⟨instr, here⟩ : ∃ instr, code[index]? = some instr := by
    refine ⟨_, List.getElem?_eq_getElem ?_⟩
    rw [← resolved.length_eq]
    exact (List.getElem?_eq_some_iff.mp there).1
  obtain ⟨same, found, outcome⟩ := resolved.getElem? here
  obtain rfl := Option.some.inj (there.symm.trans found)
  rw [Nat.zero_add] at outcome
  exact ⟨instr, here, outcome⟩

/-- A jump over a distance either was one before, or it named a label and its
distance leads to the position of that label. -/
theorem ResolvedFrom.cases_of_offset
    (resolved : ResolvedFrom code 0 code others)
    (short : Instr.codeSize code < 2 ^ 31) {index : Nat} {new : Instr}
    {distance : Int32} (there : others[index]? = some new)
    (aimed : new.target? = some (.offset distance)) :
    code[index]? = some new ∨
      ∃ instr name place, code[index]? = some instr ∧
        instr.target? = some (.label name) ∧
        labelIndex? code name = some place ∧
        (position others place : Int) =
          position others index + new.size + distance.toInt := by
  obtain ⟨instr, here, outcome⟩ := resolved.exists_getElem? there
  have size := outcome.size_eq.1
  cases outcome with
  | kept => exact .inl here
  | @turned _ name place named located turned =>
      refine .inr ⟨instr, name, place, here,
        Instr.jumpLabel?_eq_some_iff.mp named, located, ?_⟩
      rw [resolved.position_eq, resolved.position_eq, size]
      have placeShort := position_le_codeSize code place
      have finishShort := position_le_codeSize code (index + 1)
      rw [position_succ here] at finishShort
      have far : (Int32.ofInt (position code place -
          (position code index + instr.size))).toInt =
            position code place - (position code index + instr.size) := by
        rw [← Int.natCast_add]
        exact toInt_distance (by omega) (by omega)
      obtain ⟨_, rfl, rfl⟩ | ⟨_, _, rfl, rfl⟩ := retarget?_eq_some turned
      · cases aimed
        omega
      · cases aimed
        omega

end Resolving

end Layout

open Layout

/-- Giving jumps their distances keeps the handles of the lines that vanish
apart from those of all other instructions. -/
theorem handles_withInstrs {code : List Instr} {start : Nat}
    {entries : List Entry} {others : List Instr}
    (resolved : ResolvedFrom code start (entries.map (·.instr)) others) :
    ((entries.zipWith (fun entry instr => { entry with instr })
        others).filter fun entry => !vanishes entry.instr).map (·.handle) =
      (entries.filter fun entry => !vanishes entry.instr).map
        (·.handle) := by
  induction entries generalizing start others with
  | nil => simp
  | cons entry entries ih =>
      cases resolved with
      | cons first onward =>
          have alike := first.collected.1
          cases gone : vanishes entry.instr <;>
            simp [alike, gone, ih onward]

/-- The steps of an assembly that succeeds, from the measured routine to the
one that is left. -/
structure Stages (routine : Routine) (options : Options) (artifact : Artifact)
    (left : Routine) (analysis : Analysis) (measured reduced : Routine) :
    Prop where
  accepted : (routine.setCues options.lineCues).measureDepths =
    (.ok analysis, measured)
  reduced_eq : measured.reduce options = .ok reduced
  carries : Carries measured.instrs reduced.instrs
  resolved : ResolvedFrom (collected reduced.instrs) 0
    (collected reduced.instrs) left.instrs
  handles_eq : left.handles =
    (reduced.entries.filter fun entry => !vanishes entry.instr).map
      (·.handle)
  length_code : artifact.code.length = Instr.codeSize reduced.instrs
  maxDepth_eq : artifact.maxDepth = analysis.maxDepth

/-- A routine that the depth analysis accepts is assembled in these steps. -/
theorem stages_of_accepted {routine measured : Routine} {options : Options}
    {analysis : Analysis}
    (accepted : (routine.setCues options.lineCues).measureDepths =
      (.ok analysis, measured)) :
    ∃ artifact left reduced,
      routine.assemble options = (.ok artifact, left) ∧
        Stages routine options artifact left analysis measured reduced := by
  obtain ⟨reduced, done, resolvable, carries, -⟩ :=
    exists_resolvable_reduce accepted
  obtain ⟨_, resolved, _, left, resolvedDone, resolvedFrom, collectedDone,
    leftInstrs, -, finished⟩ := exists_finish resolvable analysis
  refine ⟨_, left, reduced, (assemble_of_reduce accepted done).trans finished,
    accepted, done, carries, ?_, ?_, ?_, rfl⟩
  · rw [leftInstrs]
    exact resolvedFrom.collected
  · obtain ⟨code, resolves, filled⟩ := bind_eq_ok_iff.mp resolvedDone
    obtain ⟨-, rfl⟩ := Prod.mk.inj (Except.ok.inj filled)
    obtain ⟨lines, -, gathered⟩ := bind_eq_ok_iff.mp collectedDone
    obtain ⟨-, rfl⟩ := Prod.mk.inj (Except.ok.inj gathered)
    rw [resolve, repeatedLabel?_eq_none_iff.mpr resolvable.distinct]
      at resolves
    rw [← handles_withInstrs (resolveFrom_eq_ok_iff.mp resolves)]
    simp [Routine.handles, Routine.mapInstrs, Routine.retain,
      Routine.withInstrs]
  · rw [Instr.length_flatMap_emitted, resolvedFrom.codeSize_eq]

theorem exists_stages {routine left : Routine} {options : Options}
    {artifact : Artifact}
    (assembled : routine.assemble options = (.ok artifact, left)) :
    ∃ analysis measured reduced,
      Stages routine options artifact left analysis measured reduced := by
  rcases outcome : (routine.setCues options.lineCues).measureDepths with
    ⟨defect | analysis, measured⟩
  · simp [assemble_of_failure outcome] at assembled
  obtain ⟨_, _, reduced, same, stages⟩ := stages_of_accepted outcome
  obtain ⟨⟨⟩, rfl⟩ := Prod.mk.inj (same.symm.trans assembled)
  exact ⟨analysis, measured, reduced, stages⟩

/-- The reduction is a run of rewrites, none if tightening is not wanted, and
then the removal of the entry points, if they are not wanted. -/
theorem Stages.exists_tightened {routine left measured reduced : Routine}
    {options : Options} {artifact : Artifact} {analysis : Analysis}
    (stages : Stages routine options artifact left analysis measured
      reduced) :
    ∃ tightened,
      ReflTransGen (Rewrite measured.temporaries options.jitEntries)
        measured.entries tightened ∧
      (options.optimize = false → tightened = measured.entries) ∧
      reduced.entries = tightened.filter fun entry =>
        options.jitEntries || !entry.instr.isJitEntry := by
  have distinct := (balanced_of_measureDepths stages.accepted).distinct
  have done := stages.reduced_eq
  have dropped (tightened : Routine) :
      (if options.jitEntries then tightened
        else tightened.dropJitEntries).entries =
        tightened.entries.filter fun entry =>
          options.jitEntries || !entry.instr.isJitEntry := by
    cases options.jitEntries <;>
      simp [Routine.dropJitEntries, Routine.retain]
  unfold Routine.reduce at done
  cases wanted : options.optimize with
  | false =>
      rw [wanted] at done
      obtain rfl := Except.ok.inj done
      exact ⟨measured.entries, .refl, fun _ => rfl, dropped measured⟩
  | true =>
      obtain ⟨count, tightened, tightens, -, rewrites⟩ :=
        exists_tighten distinct options.jitEntries
      rw [wanted, if_pos rfl, tightens] at done
      obtain rfl := Except.ok.inj done
      refine ⟨tightened.entries, rewrites, fun off => ?_, dropped tightened⟩
      cases off

end StackAssembler
