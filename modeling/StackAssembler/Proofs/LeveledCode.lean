import StackAssembler.Proofs.ConnectedCode
import StackAssembler.Proofs.DepthSurvey

/-!
# Depths of connected code

In code of which all is reachable an instruction that does not pass control on
stands before a label.  The depths at the labels then determine the depth before
every instruction, and the peaks that such code stays within are the bounds of
the depths behind its instructions.

The code that the depth analysis leaves is of this kind, and the greatest depth
that it reports is its least peak.
-/

namespace StackAssembler

namespace StackDepth

open Flow Relation

/-- Depths before the instructions of symbolic code, with the depths at its
labels. -/
structure Leveled (level : Label → Int) (code : List Instr)
    (depth : Nat → Int) : Prop where
  symbolic : ∀ instr ∈ code, instr.isSymbolic = true
  absolute : ∀ distance, .pushStackAddr distance ∉ code
  joined : ∀ {index : Nat} {instr follower : Instr},
    code[index]? = some instr → instr.fallsThrough = false →
      code[index + 1]? = some follower → ∃ name, follower = .label name
  notBelow : ∀ {index : Nat} {instr : Instr}, code[index]? = some instr →
    0 ≤ depth index ∧ 0 ≤ depth index + instr.stackChange
  next : ∀ {index : Nat} {instr : Instr}, code[index]? = some instr →
    instr.fallsThrough = true → index + 1 < code.length →
      depth (index + 1) = depth index + instr.stackChange
  target : ∀ {index : Nat} {instr : Instr} {name : Label},
    code[index]? = some instr → instr.target? = some (.label name) →
      depth index = level name
  marker : ∀ {index : Nat} {name : Label},
    code[index]? = some (.label name) → depth index = level name

section Paces

variable {level : Label → Int} {peak : Int} {incoming : Option Int}
  {instr : Instr} {code : List Instr} {depth : Nat → Int}

theorem Leveled.tail (leveled : Leveled level (instr :: code) depth) :
    Leveled level code fun index => depth (index + 1) where
  symbolic other member :=
    leveled.symbolic other (List.mem_cons_of_mem _ member)
  absolute distance member :=
    leveled.absolute distance (List.mem_cons_of_mem _ member)
  joined here stops after :=
    leveled.joined (List.getElem?_cons_succ.trans here) stops
      (List.getElem?_cons_succ.trans after)
  notBelow here := leveled.notBelow (List.getElem?_cons_succ.trans here)
  next here falls inside :=
    leveled.next (List.getElem?_cons_succ.trans here) falls
      (Nat.succ_lt_succ inside)
  target here := leveled.target (List.getElem?_cons_succ.trans here)
  marker here := leveled.marker (List.getElem?_cons_succ.trans here)

/-- Depths put together from the first one and those behind it. -/
def depthsFrom (first : Int) (later : Nat → Int) : Nat → Int
  | 0 => first
  | index + 1 => later index

/-- Control arrives at the first instruction by jumps only. -/
def StartsAtLabel (code : List Instr) : Prop :=
  ∀ {first : Instr}, code[0]? = some first → ∃ name, first = .label name

theorem Leveled.cons {first : Int} (leveled : Leveled level code depth)
    (symbolic : instr.isSymbolic = true)
    (absolute : ∀ distance, instr ≠ .pushStackAddr distance)
    (joined : instr.fallsThrough = false → StartsAtLabel code)
    (notBelow : 0 ≤ first ∧ 0 ≤ first + instr.stackChange)
    (next : instr.fallsThrough = true →
      depth 0 = first + instr.stackChange)
    (target : ∀ {name : Label}, instr.target? = some (.label name) →
      first = level name)
    (marker : ∀ {name : Label}, instr = .label name → first = level name) :
    Leveled level (instr :: code) (depthsFrom first depth) where
  symbolic other member := by
    rcases List.mem_cons.mp member with rfl | later
    · exact symbolic
    · exact leveled.symbolic other later
  absolute distance member := by
    rcases List.mem_cons.mp member with same | later
    · exact absolute distance same.symm
    · exact leveled.absolute distance later
  joined := by
    rintro (_ | index) other follower here stops after
    · obtain rfl := Option.some.inj here
      exact joined stops after
    · exact leveled.joined here stops after
  notBelow := by
    rintro (_ | index) other here
    · obtain rfl := Option.some.inj here
      exact notBelow
    · exact leveled.notBelow here
  next := by
    rintro (_ | index) other here falls inside
    · obtain rfl := Option.some.inj here
      exact next falls
    · exact leveled.next here falls (Nat.lt_of_succ_lt_succ inside)
  target := by
    rintro (_ | index) other name here aimed
    · obtain rfl := Option.some.inj here
      exact target aimed
    · exact leveled.target here aimed
  marker := by
    rintro (_ | index) name here
    · exact marker (Option.some.inj here)
    · exact leveled.marker here

theorem not_pushStackAddr_of_isPlain (plain : instr.isPlain = true)
    (distance : Slot) : instr ≠ .pushStackAddr distance := by
  rintro rfl
  cases plain

/-- Code that keeps the depths at its labels has depths before all of its
instructions. -/
theorem Paced.exists_leveled (paced : Paced level peak incoming code) :
    ∃ depth, Leveled level code depth ∧
      (∀ first ∈ incoming, depth 0 = first) ∧
      (incoming = none → StartsAtLabel code) := by
  induction paced with
  | @done incoming within =>
      refine ⟨fun _ => incoming.getD 0, ?_, ?_, ?_⟩
      · exact ⟨by simp, by simp, by simp, by simp, by simp, by simp, by simp⟩
      · rintro first ⟨⟩
        rfl
      · rintro - first ⟨⟩
  | @label incoming name rest agrees within onward ih =>
      obtain ⟨depth, leveled, start, -⟩ := ih
      have marked : ∀ {other : Label}, Instr.label name = .label other →
          level name = level other := by
        rintro _ ⟨⟩
        rfl
      have nothing : level name + (Instr.label name).stackChange =
          level name := Int.add_zero _
      refine ⟨_, leveled.cons rfl nofun nofun
        ⟨within.1, nothing.symm ▸ within.1⟩
        (fun _ => (start _ rfl).trans nothing.symm) nofun marked, ?_, ?_⟩
      · intro first arrives
        exact (agrees first arrives).symm
      · rintro - first ⟨⟩
        exact ⟨name, rfl⟩
  | @plain instr first rest plain within onward ih =>
      obtain ⟨depth, leveled, start, -⟩ := ih
      obtain ⟨unmarked, unaimed, falls, symbolic⟩ :=
        Instr.flow_of_isStraight (Instr.isStraight_of_isPlain plain)
      refine ⟨_, leveled.cons symbolic (not_pushStackAddr_of_isPlain plain)
        (by simp [falls]) ⟨within.1, onward.within.1⟩
        (fun _ => start _ rfl) (by simp [unaimed]) ?_, ?_, nofun⟩
      · rintro name rfl
        cases plain
      · rintro _ ⟨⟩
        rfl
  | @jump name first rest within agrees onward ih =>
      obtain ⟨depth, leveled, -, joined⟩ := ih
      have aimed : ∀ {other : Label},
          (Instr.jump (.label name)).target? = some (.label other) →
            first = level other := by
        rintro _ ⟨⟩
        exact agrees
      refine ⟨_, leveled.cons rfl nofun (fun _ => joined rfl)
        ⟨within.1, (Int.add_zero first).symm ▸ within.1⟩ nofun aimed nofun,
        ?_, nofun⟩
      rintro _ ⟨⟩
      rfl
  | @branch cond name first rest within agrees onward ih =>
      obtain ⟨depth, leveled, start, -⟩ := ih
      have aimed : ∀ {other : Label},
          (Instr.branch cond (.label name)).target? = some (.label other) →
            first = level other := by
        rintro _ ⟨⟩
        exact agrees
      have nothing : first +
          (Instr.branch cond (.label name)).stackChange = first :=
        Int.add_zero _
      refine ⟨_, leveled.cons rfl nofun nofun
        ⟨within.1, nothing.symm ▸ within.1⟩
        (fun _ => (start _ rfl).trans nothing.symm) aimed nofun, ?_, nofun⟩
      rintro _ ⟨⟩
      rfl
  | @ret count first rest within onward ih =>
      obtain ⟨depth, leveled, -, joined⟩ := ih
      refine ⟨_, leveled.cons rfl nofun (fun _ => joined rfl)
        ⟨within.1, (Int.add_zero first).symm ▸ within.1⟩ nofun nofun nofun,
        ?_, nofun⟩
      rintro _ ⟨⟩
      rfl

theorem cases_of_symbolic (symbolic : instr.isSymbolic = true)
    (absolute : ∀ distance, instr ≠ .pushStackAddr distance) :
    instr.isPlain = true ∨ (∃ name, instr = .label name) ∨
      (∃ name, instr = .jump (.label name)) ∨
      (∃ cond name, instr = .branch cond (.label name)) ∨
      ∃ count, instr = .ret count := by
  cases instr with
  | label name => exact .inr (.inl ⟨name, rfl⟩)
  | jump target =>
      obtain ⟨name, rfl⟩ := Instr.exists_label_of_isSymbolic symbolic rfl
      exact .inr (.inr (.inl ⟨name, rfl⟩))
  | branch cond target =>
      obtain ⟨name, rfl⟩ := Instr.exists_label_of_isSymbolic symbolic rfl
      exact .inr (.inr (.inr (.inl ⟨cond, name, rfl⟩)))
  | ret count => exact .inr (.inr (.inr (.inr ⟨count, rfl⟩)))
  | jumpPtr => cases symbolic
  | pushStackAddr distance => exact absurd rfl (absolute distance)
  | _ => exact .inl rfl

theorem forall_getElem?_cons {property : Nat → Instr → Prop} :
    (∀ index other, (instr :: code)[index]? = some other →
        property index other) ↔
      property 0 instr ∧ ∀ index other, code[index]? = some other →
        property (index + 1) other := by
  constructor
  · intro all
    exact ⟨all 0 instr rfl, fun index other here =>
      all (index + 1) other here⟩
  · rintro ⟨first, later⟩ (_ | index) other here
    · obtain rfl := Option.some.inj here
      exact first
    · exact later index other here

/-- Code stays within a peak exactly if the depth on arrival and the depths
behind all instructions do. -/
theorem Leveled.paced_iff (leveled : Leveled level code depth)
    (arrives : ∀ first ∈ incoming, 0 ≤ first ∧
      (code ≠ [] → first = depth 0))
    (entered : incoming = none → StartsAtLabel code) :
    Paced level peak incoming code ↔
      (∀ first ∈ incoming, first ≤ peak) ∧
        ∀ index instr, code[index]? = some instr →
          depth index + instr.stackChange ≤ peak := by
  induction code generalizing depth incoming with
  | nil =>
      constructor
      · rintro ⟨within⟩
        exact ⟨fun first member => (within first member).2, by simp⟩
      · rintro ⟨below, -⟩
        exact .done fun first member =>
          ⟨(arrives first member).1, below first member⟩
  | cons instr code ih =>
      have tail := leveled.tail
      have here : (instr :: code)[0]? = some instr := rfl
      obtain ⟨notBelow, behindNotBelow⟩ := leveled.notBelow here
      have next : instr.fallsThrough = true → code ≠ [] →
          depth 1 = depth 0 + instr.stackChange := by
        intro falls more
        exact leveled.next here falls
          (Nat.succ_lt_succ (List.length_pos_of_ne_nil more))
      have joined : instr.fallsThrough = false → StartsAtLabel code :=
        fun stops _ after => leveled.joined here stops after
      have agrees : ∀ first ∈ incoming, first = depth 0 :=
        fun first member => (arrives first member).2 (by simp)
      rw [forall_getElem?_cons]
      have onward (falls : instr.fallsThrough = true) :=
        @ih (some (depth 0 + instr.stackChange)) _ tail
          (by
            rintro _ ⟨⟩
            exact ⟨behindNotBelow, fun more => (next falls more).symm⟩)
          nofun
      have elsewhere (stops : instr.fallsThrough = false) :=
        @ih none _ tail nofun fun _ => joined stops
      have arrival (unmarked : instr.marks? = none) :
          incoming = some (depth 0) := by
        cases incoming with
        | none =>
            obtain ⟨name, rfl⟩ := entered rfl rfl
            cases unmarked
        | some first => rw [agrees first rfl]
      rcases cases_of_symbolic (leveled.symbolic instr List.mem_cons_self)
        (fun distance same =>
          leveled.absolute distance (same ▸ List.mem_cons_self)) with
        plain | ⟨name, rfl⟩ | ⟨name, rfl⟩ | ⟨cond, name, rfl⟩ | ⟨count, rfl⟩
      · obtain ⟨unmarked, -, falls, -⟩ :=
          Instr.flow_of_isStraight (Instr.isStraight_of_isPlain plain)
        rw [arrival unmarked, paced_plain_iff plain, onward falls]
        simp [Within, notBelow]
      · have level_eq : depth 0 = level name := leveled.marker here
        have later := onward rfl
        simp only [Instr.stackChange, Int.add_zero] at later ⊢
        rw [paced_label_iff, ← level_eq, later]
        simp only [Within, Option.mem_def, Option.some.injEq,
          forall_eq'] at agrees ⊢
        constructor
        · rintro ⟨-, ⟨-, below⟩, -, rest⟩
          exact ⟨fun first member => agrees first member ▸ below, below, rest⟩
        · rintro ⟨-, below, rest⟩
          exact ⟨agrees, ⟨notBelow, below⟩, below, rest⟩
      · have level_eq : depth 0 = level name := leveled.target here rfl
        rw [arrival rfl, paced_jump_iff, elsewhere rfl, ← level_eq]
        simp [Within, notBelow, Instr.stackChange]
      · have level_eq : depth 0 = level name := leveled.target here rfl
        rw [arrival rfl, paced_branch_iff, ← level_eq]
        have later := onward rfl
        simp only [Instr.stackChange, Int.add_zero] at later ⊢
        rw [later]
        simp [Within, notBelow]
      · rw [arrival rfl, paced_ret_iff, elsewhere rfl]
        simp [Within, notBelow, Instr.stackChange]

theorem Leveled.paced_zero_iff (leveled : Leveled level code depth)
    (zero : depth 0 = 0) :
    Paced level peak (some 0) code ↔
      0 ≤ peak ∧ ∀ index instr, code[index]? = some instr →
        depth index + instr.stackChange ≤ peak := by
  have arrives : ∀ first ∈ some (0 : Int), 0 ≤ first ∧
      (code ≠ [] → first = depth 0) := by
    rintro _ ⟨⟩
    exact ⟨le_rfl, fun _ => zero.symm⟩
  rw [leveled.paced_iff arrives nofun]
  simp only [Option.mem_def, Option.some.injEq, forall_eq']

end Paces

section Ranks

variable {entries : List Entry} {place : Nat} {entry : Entry}

/-- The number of entries with a depth in front of an index. -/
def rank (entries : List Entry) (place : Nat) : Nat :=
  (entries.take place).countP (·.depth.isSome)

theorem rank_succ (found : entries[place]? = some entry)
    (known : entry.depth.isSome = true) :
    rank entries (place + 1) = rank entries place + 1 := by
  simp [rank, List.take_add_one, found, known]

theorem getElem?_rank (found : entries[place]? = some entry)
    (known : entry.depth.isSome = true) :
    (entries.filter (·.depth.isSome))[rank entries place]? = some entry := by
  induction entries generalizing place with
  | nil => simp at found
  | cons head entries ih =>
      cases place with
      | zero =>
          obtain rfl := Option.some.inj found
          simp [rank, known]
      | succ place =>
          have later := ih (List.getElem?_cons_succ.symm.trans found)
          cases headKnown : head.depth.isSome <;>
            simpa [rank, headKnown] using later

theorem exists_rank {index : Nat}
    (kept : (entries.filter (·.depth.isSome))[index]? = some entry) :
    ∃ place, entries[place]? = some entry ∧ rank entries place = index := by
  induction entries generalizing index with
  | nil => simp at kept
  | cons head entries ih =>
      cases headKnown : head.depth.isSome with
      | true =>
          rw [List.filter_cons_of_pos (by simp [headKnown])] at kept
          cases index with
          | zero => exact ⟨0, kept, rfl⟩
          | succ index =>
              obtain ⟨place, found, rfl⟩ := ih kept
              exact ⟨place + 1, found, by simp [rank, headKnown]⟩
      | false =>
          rw [List.filter_cons_of_neg (by simp [headKnown])] at kept
          obtain ⟨place, found, rfl⟩ := ih kept
          exact ⟨place + 1, found, by simp [rank, headKnown]⟩

end Ranks

section Finished

theorem isSymbolic_of_anchor {add : Adder} {depth : Int} {instr anchored : Instr}
    (done : anchor add depth instr = .ok anchored) :
    anchored.isSymbolic = instr.isSymbolic :=
  apply_of_anchor Instr.isSymbolic (fun _ _ => rfl) done

theorem absolute_of_anchor {depth : Int} {instr anchored : Instr}
    (done : anchor .integers depth instr = .ok anchored) (distance : Slot) :
    anchored ≠ .pushStackAddr distance := by
  cases anchored_of_anchor done with
  | address => nofun
  | same absolute => exact absolute distance

/-- All that is left of a finished walk over symbolic code is reachable. -/
theorem Closed.connected {code : List Instr} {walk : Walk}
    (closed : Closed code walk) (finished : walk.pending = [])
    (distinct : (labels code).Nodup) (reached : Reached code walk)
    (symbolic : ∀ instr ∈ code, instr.isSymbolic = true) :
    Connected ((walk.entries.filter (·.depth.isSome)).map (·.instr)) where
  distinct := (closed.balanced finished distinct).distinct
  symbolic instr member := by
    obtain ⟨entry, kept, rfl⟩ := List.mem_map.mp member
    obtain ⟨place, depth, found, known⟩ := exists_recorded kept
    obtain ⟨source, here, done⟩ := closed.tracks.anchored found known
    rw [isSymbolic_of_anchor done]
    exact symbolic source (List.mem_of_getElem? here)
  reachable index inside := by
    have placed {place : Nat} {entry : Entry} {depth : Int}
        (found : walk.entries[place]? = some entry)
        (known : entry.depth = some depth) :
        ((walk.entries.filter (·.depth.isSome)).map
          (·.instr))[rank walk.entries place]? = some entry.instr := by
      rw [List.getElem?_map, getElem?_rank found (by simp [known])]
      rfl
    obtain ⟨last, kept⟩ : ∃ last,
        (walk.entries.filter (·.depth.isSome))[index]? = some last :=
      ⟨_, List.getElem?_eq_getElem (by simpa using inside)⟩
    obtain ⟨place, found, rfl⟩ := exists_rank kept
    obtain ⟨depth, known⟩ := Option.isSome_iff_exists.mp
      (List.mem_filter.mp (List.mem_of_getElem? kept)).2
    refine (reached.recorded found known).lift (rank walk.entries) rfl ?_
      inside
    intro source next early edge nextInside
    obtain ⟨entry, depth, found, known⟩ := closed.recorded_of_reachable
      finished distinct early edge.source_lt_length
    obtain ⟨follower, nextFound, nextKnown⟩ :=
      closed.recorded_of_edge finished distinct found known edge
    have here := placed found known
    have there := placed nextFound nextKnown
    refine ⟨(List.getElem?_eq_some_iff.mp here).1, .single ?_⟩
    obtain ⟨instr, instrFound, ways⟩ := edge.cases_of_symbolic symbolic
    obtain ⟨same, sourceFound, done⟩ := closed.tracks.anchored found known
    obtain rfl := Option.some.inj (instrFound.symm.trans sourceFound)
    rcases ways with ⟨name, aimed, marked⟩ | ⟨falls, rfl⟩
    · obtain ⟨_, targetFound, markerDone⟩ :=
        closed.tracks.anchored nextFound nextKnown
      obtain rfl := Option.some.inj (marked.symm.trans targetFound)
      rw [Instr.marks?_eq_some_iff.mp (marks?_of_anchor markerDone)] at there
      exact .target here ((target?_of_anchor done).trans aimed) (.label there)
    · rw [rank_succ found (by simp [known])] at nextInside ⊢
      exact .next here ((fallsThrough_of_anchor done).trans falls) nextInside

/-- The greatest depth of a walk lies below a bound exactly if all depths
behind its instructions do. -/
theorem Peaked.le_iff {walk : Walk} (peaked : Peaked walk) {peak : Int} :
    (walk.deepest.toNat : Int) ≤ peak ↔
      0 ≤ peak ∧ ∀ value ∈ depthsBehind walk.entries, value ≤ peak := by
  have notBelow : 0 ≤ walk.deepest := peaked.2 (Set.mem_insert 0 _)
  rw [Int.toNat_of_nonneg notBelow]
  constructor
  · intro below
    exact ⟨notBelow.trans below, fun value member =>
      (peaked.2 (Set.mem_insert_of_mem 0 member)).trans below⟩
  · rintro ⟨zero, below⟩
    rcases peaked.1 with same | member
    · rwa [same]
    · exact below _ member

/-- The depths behind the recorded instructions are those behind the ones that
are kept. -/
theorem forall_depthsBehind_iff {entries : List Entry} {peak : Int} :
    (∀ value ∈ depthsBehind entries, value ≤ peak) ↔
      ∀ index instr,
        ((entries.filter (·.depth.isSome)).map (·.instr))[index]? =
            some instr →
          recordedDepth (entries.filter (·.depth.isSome)) index +
            instr.stackChange ≤ peak := by
  constructor
  · intro below index instr here
    obtain ⟨entry, kept, rfl⟩ : ∃ entry,
        (entries.filter (·.depth.isSome))[index]? = some entry ∧
          entry.instr = instr := by simpa using here
    obtain ⟨place, depth, found, known⟩ :=
      exists_recorded (List.mem_of_getElem? kept)
    rw [recordedDepth_eq kept known]
    exact below _ ⟨place, entry, depth, found, known, rfl⟩
  · rintro below value ⟨place, entry, depth, found, known, rfl⟩
    have kept := getElem?_rank found (by simp [known])
    have bound := below _ entry.instr (by rw [List.getElem?_map, kept]; rfl)
    rwa [recordedDepth_eq kept known] at bound

end Finished

section Balance

variable {entries : List Entry} (balanced : Balanced entries)
  (connected : Connected (entries.map (·.instr)))

theorem stackChange_of_target? {instr : Instr} {target : Target}
    (aimed : instr.target? = some target) : instr.stackChange = 0 := by
  cases instr <;> first | rfl | cases aimed

include balanced in
theorem Balanced.exists_recorded {index : Nat} {instr : Instr}
    (here : (entries.map (·.instr))[index]? = some instr) :
    ∃ entry ∈ entries, entries[index]? = some entry ∧ entry.instr = instr ∧
      entry.depth = some (recordedDepth entries index) ∧
      0 ≤ recordedDepth entries index + instr.stackChange := by
  obtain ⟨entry, found, rfl⟩ : ∃ entry, entries[index]? = some entry ∧
      entry.instr = instr := by simpa using here
  have member := List.mem_of_getElem? found
  obtain ⟨depth, known, notBelow⟩ := balanced.known member
  rw [recordedDepth_eq found known]
  exact ⟨entry, member, found, rfl, known, notBelow⟩

include balanced in
theorem Balanced.recordedDepth_zero : recordedDepth entries 0 = 0 := by
  cases entries with
  | nil => rfl
  | cons first rest => exact recordedDepth_eq rfl (balanced.start rfl)

include balanced connected

theorem Balanced.recordedDepth_of_edge {index place : Nat} {instr : Instr}
    (here : (entries.map (·.instr))[index]? = some instr)
    (edge : Edge (entries.map (·.instr)) index place) :
    recordedDepth entries place =
      recordedDepth entries index + instr.stackChange := by
  obtain ⟨entry, member, found, rfl, known, -⟩ := balanced.exists_recorded here
  obtain ⟨follower, after⟩ : ∃ follower, entries[place]? = some follower :=
    ⟨_, List.getElem?_eq_getElem (by simpa using edge.lt_length)⟩
  obtain ⟨same, there, ways⟩ := edge.cases_of_symbolic connected.symbolic
  obtain rfl := Option.some.inj (here.symm.trans there)
  rcases ways with ⟨name, aimed, marked⟩ | ⟨falls, rfl⟩
  · have marks : follower.instr = .label name := by
      simpa [after] using marked
    exact recordedDepth_eq after (balanced.target member known aimed
      (List.mem_of_getElem? after) marks)
  · obtain ⟨inside, atIndex⟩ := List.getElem?_eq_some_iff.mp found
    obtain ⟨nextInside, atNext⟩ := List.getElem?_eq_some_iff.mp after
    have split : entries = entries.take index ++
        entry :: follower :: entries.drop (index + 1 + 1) := by
      rw [← atIndex, ← atNext, List.getElem_cons_drop, List.getElem_cons_drop,
        List.take_append_drop]
    exact recordedDepth_eq after (balanced.next split known falls)

theorem Balanced.recordedDepth_nonneg {index : Nat}
    (inside : index < (entries.map (·.instr)).length) :
    0 ≤ recordedDepth entries index := by
  rcases (connected.reachable index inside).cases_tail with
    rfl | ⟨source, -, edge⟩
  · rw [balanced.recordedDepth_zero]
  · have here : (entries.map (·.instr))[source]? = some _ :=
      List.getElem?_eq_getElem edge.source_lt_length
    obtain ⟨-, -, -, -, -, notBelow⟩ := balanced.exists_recorded here
    rwa [← balanced.recordedDepth_of_edge connected here edge] at notBelow

/-- The depths of balanced entries all of which are reachable follow from those
at the labels. -/
theorem Balanced.exists_leveled
    (absolute : ∀ distance, .pushStackAddr distance ∉
      entries.map (·.instr)) :
    ∃ level, Leveled level (entries.map (·.instr))
      (recordedDepth entries) := by
  let level (name : Label) : Int := recordedDepth entries
    ((labelIndex? (entries.map (·.instr)) name).getD 0)
  have marker {index : Nat} {name : Label}
      (here : (entries.map (·.instr))[index]? = some (.label name)) :
      recordedDepth entries index = level name := by
    simp only [level, labelIndex?_of_getElem? connected.distinct here,
      Option.getD_some]
  refine ⟨level, connected.symbolic, absolute, ?_, ?_, ?_, ?_, marker⟩
  · intro index instr follower here stops after
    have inside := (List.getElem?_eq_some_iff.mp after).1
    rcases (connected.reachable (index + 1) inside).cases_tail with
      never | ⟨source, -, edge⟩
    · cases never
    obtain ⟨same, there, ⟨name, -, marked⟩ | ⟨falls, next⟩⟩ :=
      edge.cases_of_symbolic connected.symbolic
    · exact ⟨name, Option.some.inj (after.symm.trans marked)⟩
    · obtain rfl := Nat.succ.inj next
      obtain rfl := Option.some.inj (here.symm.trans there)
      simp [falls] at stops
  · intro index instr here
    obtain ⟨-, -, -, -, -, notBelow⟩ := balanced.exists_recorded here
    exact ⟨balanced.recordedDepth_nonneg connected
      (List.getElem?_eq_some_iff.mp here).1, notBelow⟩
  · intro index instr here falls inside
    exact balanced.recordedDepth_of_edge connected here
      (.next here falls inside)
  · intro index instr name here aimed
    obtain ⟨entry, member, -, rfl, -⟩ := balanced.exists_recorded here
    obtain ⟨place, marked⟩ := List.getElem?_of_mem
      (mem_labels_iff.mp (balanced.marked member aimed))
    rw [← marker marked, balanced.recordedDepth_of_edge connected here
      (.target here aimed (.label marked)), stackChange_of_target? aimed,
      Int.add_zero]

end Balance

section Measured

variable {routine measured : Routine} {analysis : Analysis}
  (accepted : routine.measureDepths = (.ok analysis, measured))
  (symbolic : ∀ instr ∈ routine.instrs, instr.isSymbolic = true)

include accepted symbolic

theorem connected_of_measureDepths : Connected measured.instrs := by
  obtain ⟨distinct, final, ended, -, rfl⟩ := finished_of_measureDepthsBy accepted
  obtain ⟨closed, finished⟩ := closed_of_finished ended
  exact closed.connected finished distinct (reached_of_finished ended distinct)
    symbolic

/-- The greatest depth that the analysis reports is the least peak of the code
that it leaves. -/
theorem paced_iff_of_measureDepths :
    ∃ level, ∀ peak : Int, Paced level peak (some 0) measured.instrs ↔
      analysis.maxDepth ≤ peak := by
  have balanced := balanced_of_measureDepths accepted
  have connected := connected_of_measureDepths accepted symbolic
  have absolute : ∀ distance, .pushStackAddr distance ∉ measured.instrs := by
    intro distance member
    obtain ⟨source, -, depth, done⟩ :=
      exists_anchor_of_measureDepths accepted member
    exact absolute_of_anchor done distance rfl
  obtain ⟨level, leveled⟩ := balanced.exists_leveled connected absolute
  refine ⟨level, fun peak => ?_⟩
  refine (leveled.paced_zero_iff balanced.recordedDepth_zero).trans ?_
  obtain ⟨-, final, ended, rfl, rfl⟩ := finished_of_measureDepthsBy accepted
  refine Iff.trans ?_ (peaked_of_finished ended).le_iff.symm
  rw [forall_depthsBehind_iff]
  rfl

end Measured

end StackDepth

end StackAssembler
