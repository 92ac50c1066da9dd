import StackAssembler.Proofs.ResolvedFlow

/-!
# The frame size covers the code that is left

An artifact carries the greatest depth of the code before it was tightened.
Tightening, dropping entry points and collecting lines keep the depths at the
labels and raise no peak, and leave no code unreachable.  Giving jumps their
distances changes none of that either.  So an analysis of the code that is left
accepts it, removes nothing, and finds no greater depth.
-/

namespace StackAssembler

open Flow Layout StackDepth Relation Window

section Reduction

/-- What a revision keeps in whatever code it is made, a run of rewrites
keeps. -/
theorem holds_of_rewrites {temporaries : SlotSet} {keepJitEntries : Bool}
    {holds : List Instr → Prop}
    (revised : ∀ {front code old new : List Instr},
      Revision temporaries keepJitEntries code old new →
        holds (front ++ old) → holds (front ++ new))
    {before after : List Entry}
    (rewrites : ReflTransGen (Rewrite temporaries keepJitEntries)
      before after)
    (start : holds (before.map (·.instr))) :
    holds (after.map (·.instr)) :=
  @instrs_related_of_rewrites _ _ _ _ rewrites
    (fun before after => holds before → holds after) (fun _ => id)
    (fun early late held => late (early held)) revised start

theorem idles_filter_jitEntries (keep : Bool) (code : List Instr) :
    Idles code (code.filter fun instr => keep || !instr.isJitEntry) := by
  induction code with
  | nil => exact .done
  | cons instr code ih =>
      rw [List.filter_cons]
      split
      · exact .keep instr ih
      · rename_i dropped
        have entry : instr.isJitEntry = true := by simp_all
        obtain ⟨number, rfl⟩ := Instr.isJitEntry_iff.mp entry
        exact .drop rfl rfl ih

theorem idles_collected (code : List Instr) : Idles code (collected code) := by
  induction code with
  | nil => exact .done
  | cons instr code ih =>
      rw [collected_cons]
      cases instr with
      | line pos cue =>
          cases cue with
          | true => exact .alter rfl rfl rfl ih
          | false => exact .drop rfl rfl ih
      | _ => exact .keep _ ih

end Reduction

section Analyses

variable {routine : Routine} {depth : Nat → Int}
  (distinct : (labels routine.instrs).Nodup) (zero : depth 0 = 0)
  (suits : ∀ {index : Nat} {instr : Instr},
    routine.instrs[index]? = some instr →
      Suits routine.instrs depth index instr)

include distinct zero suits

theorem exists_finished :
    ∃ final, explore .integers routine.instrs (start routine) =
        (final, none) ∧
      Follows routine.instrs depth final := by
  have kept (walk walk' : Walk)
      (visit : Visit .integers routine.instrs walk walk') :
      Follows routine.instrs depth walk → Follows routine.instrs depth walk' :=
    visit.follows distinct fun _ _ _ => suits
  obtain ⟨last, run, halts⟩ :=
    explore_run .integers routine.instrs (start routine)
  have follows : Follows routine.instrs depth last := by
    clear halts
    induction run with
    | refl => exact follows_start routine zero
    | tail _ visit ih => exact kept _ _ visit ih
  have ended : explore .integers routine.instrs (start routine) =
      ((explore .integers routine.instrs (start routine)).1, none) :=
    Prod.ext rfl (follows.halts distinct (fun _ _ _ => suits) halts)
  exact ⟨_, ended,
    (explore_induction kept (follows_start routine zero) ended).1⟩

/-- An analysis in integers of code that is reachable and has suitable depths removes
nothing, and reports the least bound of the depths. -/
theorem exists_analysis
    (reachable : ∀ {index : Nat}, index < routine.instrs.length →
      Reachable routine.instrs index) :
    ∃ analysis, (routine.measureDepthsBy .integers).1 = .ok analysis ∧
      analysis.removed = 0 ∧
      ∀ peak : Int, analysis.maxDepth ≤ peak ↔
        0 ≤ peak ∧ ∀ index instr, routine.instrs[index]? = some instr →
          depth index + instr.stackChange ≤ peak := by
  obtain ⟨final, ended, follows⟩ := exists_finished distinct zero suits
  obtain ⟨closed, finished⟩ := closed_of_finished ended
  have recorded {index : Nat} (inside : index < routine.instrs.length) :
      ∃ entry, final.entries[index]? = some entry ∧
        entry.depth = some (depth index) := by
    obtain ⟨entry, incoming, found, known⟩ := closed.recorded_of_reachable
      finished distinct (reachable inside) inside
    exact ⟨entry, found, follows.recorded found known ▸ known⟩
  refine ⟨analysisOf final, by
    rw [measureDepthsBy_of_finished distinct ended], ?_, fun peak => ?_⟩
  · refine List.countP_eq_zero.mpr fun entry member => ?_
    obtain ⟨index, found⟩ := List.getElem?_of_mem member
    obtain ⟨same, there, known⟩ := recorded
      (closed.tracks.length_eq ▸ (List.getElem?_eq_some_iff.mp found).1)
    obtain rfl := Option.some.inj (found.symm.trans there)
    simp [known]
  · refine (peaked_of_finished ended).le_iff.trans (and_congr_right fun _ => ?_)
    constructor
    · intro below index instr here
      obtain ⟨entry, found, known⟩ :=
        recorded (List.getElem?_eq_some_iff.mp here).1
      obtain ⟨source, there, done⟩ := closed.tracks.anchored found known
      obtain rfl := Option.some.inj (here.symm.trans there)
      rw [← stackChange_of_anchor done]
      exact below _ ⟨index, entry, _, found, known, rfl⟩
    · rintro below _ ⟨index, entry, incoming, found, known, rfl⟩
      obtain ⟨source, here, done⟩ := closed.tracks.anchored found known
      rw [follows.recorded found known, stackChange_of_anchor done]
      exact below index source here

end Analyses

/-- The analysis of connected code whose jumps have got their distances reports
the least peak that the code stays within. -/
theorem exists_analysis_of_resolved {routine : Routine} {code : List Instr}
    (resolved : ResolvedFrom code 0 code routine.instrs)
    (connected : Connected code)
    (noLines : ∀ instr ∈ code, isLine instr = false)
    (short : Instr.codeSize code < 2 ^ 31) {level : Label → Int} {bound : Int}
    (paced : Paced level bound (some 0) code) :
    ∃ analysis, (routine.measureDepthsBy .integers).1 = .ok analysis ∧
      analysis.removed = 0 ∧
      ∀ peak : Int, analysis.maxDepth ≤ peak ↔
        Paced level peak (some 0) code := by
  obtain ⟨depth, leveled, start, -⟩ := paced.exists_leveled
  have zero : depth 0 = 0 := start 0 rfl
  obtain ⟨analysis, accepted, removed, least⟩ := exists_analysis
    (resolved.labels_eq ▸ connected.distinct) zero
    (suits_resolved resolved connected noLines short leveled)
    (reachable_resolved resolved connected noLines short)
  refine ⟨analysis, accepted, removed, fun peak => (least peak).trans ?_⟩
  rw [leveled.paced_zero_iff zero]
  refine and_congr_right fun _ => ?_
  constructor
  · intro below index instr here
    obtain ⟨new, there, outcome⟩ := resolved.getElem? here
    rw [← outcome.effect_eq.1]
    exact below index new there
  · intro below index new there
    obtain ⟨instr, here, outcome⟩ := resolved.exists_getElem? there
    rw [outcome.effect_eq.1]
    exact below index instr here

section Assemblies

variable {routine left measured reduced : Routine} {options : Options}
  {artifact : Artifact} {analysis : Analysis}
  (stages : Stages routine options artifact left analysis measured reduced)
  (symbolic : ∀ instr ∈ (routine.setCues options.lineCues).instrs,
    instr.isSymbolic = true)

include stages symbolic

/-- What the reduction leaves is connected and stays within the peak that was
measured.  If nothing was tightened, it stays within no lower one. -/
theorem Stages.connected_and_paced :
    Connected (collected reduced.instrs) ∧
      ∃ level, Paced level analysis.maxDepth (some 0)
          (collected reduced.instrs) ∧
        (options.optimize = false → ∀ peak : Int,
          Paced level peak (some 0) (collected reduced.instrs) →
            analysis.maxDepth ≤ peak) := by
  have connected := connected_of_measureDepths stages.accepted symbolic
  obtain ⟨level, bounds⟩ :=
    paced_iff_of_measureDepths stages.accepted symbolic
  obtain ⟨tightened, rewrites, unchanged, left⟩ := stages.exists_tightened
  have idles : Idles (tightened.map (·.instr)) reduced.instrs := by
    have same : reduced.instrs = (tightened.map (·.instr)).filter
        fun instr => options.jitEntries || !instr.isJitEntry := by
      rw [Routine.instrs, left, List.filter_map]
      rfl
    exact same ▸ idles_filter_jitEntries _ _
  have collects := idles_collected reduced.instrs
  have tightenedConnected : Connected (tightened.map (·.instr)) :=
    holds_of_rewrites (fun revision before =>
      before.thinned (thins_of_revision revision) _) rewrites connected
  have paced : Paced level analysis.maxDepth (some 0)
      (tightened.map (·.instr)) :=
    holds_of_rewrites (fun revision before =>
      before.revised_behind revision) rewrites ((bounds _).mpr le_rfl)
  have reducedPaced := (idles.paced_iff paced).mp paced
  refine ⟨?_, level, (collects.paced_iff reducedPaced).mp reducedPaced, ?_⟩
  · exact Connected.thinned (thins_of_idles collects) []
      (Connected.thinned (thins_of_idles idles) [] tightenedConnected)
  · intro off peak below
    obtain rfl := unchanged off
    refine (bounds peak).mp ?_
    exact (idles.paced_iff paced).mpr
      ((collects.paced_iff reducedPaced).mpr below)

end Assemblies

theorem isSymbolic_of_named {instr : Instr}
    (named : ∀ target, instr.target? = some target →
      ∃ name, target = .label name)
    (noTable : ∀ slot fanOut, instr ≠ .jumpPtr slot fanOut) :
    instr.isSymbolic = true := by
  cases instr with
  | jump target | branch _ target =>
      obtain ⟨name, rfl⟩ := named target rfl
      rfl
  | jumpPtr slot fanOut => exact absurd rfl (noTable slot fanOut)
  | _ => rfl

theorem isSymbolic_withCue (instr : Instr) (cue : Bool) :
    (instr.withCue cue).isSymbolic = instr.isSymbolic := by
  cases instr <;> rfl

/-- The greatest depth in an artifact covers the code that the assembly leaves:
an analysis of that code accepts it, removes nothing, and finds no greater
depth, and the same depth if nothing was tightened. -/
theorem assemble_frame_covers_code {routine left : Routine}
    {options : Options} {artifact : Artifact}
    (named : ∀ instr ∈ routine.instrs, ∀ target,
      instr.target? = some target → ∃ name, target = .label name)
    (noTable : ∀ slot fanOut, .jumpPtr slot fanOut ∉ routine.instrs)
    (assembled : routine.assemble options = (.ok artifact, left))
    (short : artifact.code.length < 2 ^ 31) :
    ∃ analysis, left.measureDepths.1 = .ok analysis ∧
      analysis.removed = 0 ∧ analysis.maxDepth ≤ artifact.maxDepth ∧
      (options.optimize = false →
        analysis.maxDepth = artifact.maxDepth) := by
  obtain ⟨early, measured, reduced, stages⟩ := exists_stages assembled
  have symbolic : ∀ instr ∈ (routine.setCues options.lineCues).instrs,
      instr.isSymbolic = true := by
    intro instr member
    obtain ⟨source, inside, rfl⟩ := mem_instrs_setCues member
    rw [isSymbolic_withCue]
    exact isSymbolic_of_named (named source inside) fun slot fanOut same =>
      noTable slot fanOut (same ▸ inside)
  have noLines : ∀ instr ∈ collected reduced.instrs,
      isLine instr = false := by
    intro instr member
    obtain ⟨source, -, rfl⟩ := mem_collected member
    exact isLine_settleLine source
  rw [stages.length_code, ← codeSize_collected] at short
  obtain ⟨connected, level, paced, tight⟩ :=
    stages.connected_and_paced symbolic
  obtain ⟨analysis, accepted, removed, least⟩ :=
    exists_analysis_of_resolved stages.resolved connected noLines short paced
  have covered : analysis.maxDepth ≤ early.maxDepth :=
    Int.ofNat_le.mp ((least _).mpr paced)
  -- The first analysis was one in words, so its greatest depth fits a word.
  have fits : early.maxDepth ≤ 2147483647 :=
    (measureDepths_eq_ok_iff.mp stages.accepted).2
  have inWords := measureDepths_eq_ok_iff.mpr
    ⟨Prod.ext accepted rfl, Nat.le_trans covered fits⟩
  rw [stages.maxDepth_eq]
  refine ⟨analysis, congrArg Prod.fst inWords, removed, covered, fun off => ?_⟩
  exact Nat.le_antisymm covered
    (Int.ofNat_le.mp (tight off _ ((least _).mp le_rfl)))

/-- A loop around a call with exchanged arguments, and behind it a jump over
dead code to pushes that are discarded again. -/
def calling : Routine :=
  Routine.ofList [.label ⟨0⟩, .pushVar 0, .pushVar 1, .swap4,
    .call .script 7 2, .line ⟨3, 1⟩ false, .jitEntry 0, .decVi 0,
    .branch .notZero (.label ⟨0⟩), .jump (.label ⟨1⟩), .pushConst 3,
    .label ⟨1⟩, .label ⟨2⟩, .pushConst8 9, .pushVar 0, .pop 3, .ret 0]

theorem assemble_frame_covers_calling :
    (∃ artifact left, calling.assemble {} = (.ok artifact, left) ∧
      artifact.maxDepth = 3 ∧
      ∃ analysis, left.measureDepths.1 = .ok analysis ∧
        analysis.removed = 0 ∧ analysis.maxDepth ≤ 3) ∧
    ∃ artifact left,
      calling.assemble ⟨false, true, false⟩ = (.ok artifact, left) ∧
      ∃ analysis, left.measureDepths.1 = .ok analysis ∧
        analysis.removed = 0 ∧ analysis.maxDepth = 3 := by
  have symbolic : ∀ instr ∈ calling.instrs, instr.isSymbolic = true := by
    decide
  have named : ∀ instr ∈ calling.instrs, ∀ target,
      instr.target? = some target → ∃ name, target = .label name :=
    fun instr member _ aimed =>
      Instr.exists_label_of_isSymbolic (symbolic instr member) aimed
  have noTable : ∀ slot fanOut, .jumpPtr slot fanOut ∉ calling.instrs := by
    intro slot fanOut member
    cases symbolic _ member
  have tightened : (calling.assemble {}).1 =
      .ok ⟨[65541, 5, 120, 7, 126, 46, 114, 4294967288, 125], 3,
        ⟨[⟨4, ⟨3, 1⟩⟩]⟩, [],
        [.note "removed 1 unreachable instruction(s)"]⟩ := by cbv
  have untightened : (calling.assemble ⟨false, true, false⟩).1 =
      .ok ⟨[5, 65541, 13, 120, 7, 126, 46, 114, 4294967287, 112, 0, 4, 9, 0,
        5, 196609, 125], 3, ⟨[⟨5, ⟨3, 1⟩⟩]⟩, [],
        [.note "removed 1 unreachable instruction(s)"]⟩ := by cbv
  constructor
  · obtain ⟨analysis, accepted, removed, covered, -⟩ :=
      assemble_frame_covers_code named noTable (Prod.ext tightened rfl)
        (by decide)
    exact ⟨_, _, Prod.ext tightened rfl, rfl, analysis, accepted, removed,
      covered⟩
  · obtain ⟨analysis, accepted, removed, -, exact_depth⟩ :=
      assemble_frame_covers_code named noTable (Prod.ext untightened rfl)
        (by decide)
    exact ⟨_, _, Prod.ext untightened rfl, analysis, accepted, removed,
      exact_depth rfl⟩

end StackAssembler
