import StackAssembler.Proofs.MeasuredCode
import Mathlib

/-!
# The result of the depth analysis

Three more invariants of the visits say what a finished walk has found.  It has
been to reachable places only, so with the closure of its records under the
edges it has recorded exactly these.  Its greatest depth is the greatest one
behind a recorded instruction.  And it has exchanged no entry for another.

Together they describe all that the analysis returns and leaves behind in terms
of the control graph of the routine that it was given.
-/

namespace StackAssembler

namespace StackDepth

open Flow Relation

/-- What the analysis makes of an instruction at a depth: an address relative
to the stack's top becomes the frame address that it means there, and any other
instruction stays as it is. -/
inductive Anchored (depth : Int) : Instr → Instr → Prop
  | address {distance slot : Slot}
      (sum : slot.toInt = distance.toInt + depth) :
      Anchored depth (.pushStackAddr distance) (.pushFrameAddr slot)
  | same {instr : Instr}
      (absolute : ∀ distance, instr ≠ .pushStackAddr distance) :
      Anchored depth instr instr

theorem toInt_of_ofInt? {value : Int} {slot : Slot}
    (found : Slot.ofInt? value = some slot) : slot.toInt = value := by
  unfold Slot.ofInt? at found
  split at found
  · obtain rfl := Option.some.inj found
    exact Int16.toInt_ofInt_of_le (by omega) (by omega)
  · simp at found

theorem anchored_of_anchor {depth : Int} {instr new : Instr}
    (done : anchor .integers depth instr = .ok new) :
    Anchored depth instr new := by
  rcases anchor_eq_ok_iff.mp done with ⟨absolute, rfl⟩ |
    ⟨distance, sum, slot, rfl, added, found, rfl⟩
  · exact .same absolute
  · obtain rfl := Adder.Exact.eq_add added
    exact .address (toInt_of_ofInt? found)

/-- The values that the depth takes behind the recorded instructions. -/
def depthsBehind (entries : List Entry) : Set Int :=
  {value | ∃ (index : Nat) (entry : Entry) (depth : Int),
    entries[index]? = some entry ∧ entry.depth = some depth ∧
      value = depth + entry.instr.stackChange}

theorem depthsBehind_set {entries : List Entry} {index : Nat}
    {entry new : Entry} {depth : Int}
    (found : entries[index]? = some entry) (blank : entry.depth = none)
    (known : new.depth = some depth) :
    depthsBehind (entries.set index new) =
      insert (depth + new.instr.stackChange) (depthsBehind entries) := by
  ext value
  simp only [depthsBehind, Set.mem_ofPred_eq, Set.mem_insert_iff,
    getElem?_set_eq_some_iff found]
  constructor
  · rintro ⟨place, other, recorded, ⟨rfl, rfl⟩ | ⟨-, kept⟩, otherKnown, rfl⟩
    · obtain rfl := Option.some.inj (known.symm.trans otherKnown)
      exact .inl rfl
    · exact .inr ⟨place, other, recorded, kept, otherKnown, rfl⟩
  · rintro (rfl | ⟨place, other, recorded, kept, otherKnown, rfl⟩)
    · exact ⟨index, new, depth, .inl ⟨rfl, rfl⟩, known, rfl⟩
    · refine ⟨place, other, recorded, .inr ⟨?_, kept⟩, otherKnown, rfl⟩
      rintro rfl
      obtain rfl := Option.some.inj (found.symm.trans kept)
      simp [blank] at otherKnown

/-- The walk has met its greatest depth: zero, or the depth behind a recorded
instruction. -/
def Peaked (walk : Walk) : Prop :=
  IsGreatest (insert 0 (depthsBehind walk.entries)) walk.deepest

/-- The walk has been to reachable places only, and goes to no other. -/
structure Reached (code : List Instr) (walk : Walk) : Prop where
  tracks : Tracks code walk.entries
  waiting : ∀ item ∈ walk.pending, item.1 < code.length →
    Reachable code item.1
  recorded : ∀ {place : Nat} {entry : Entry} {incoming : Int},
    walk.entries[place]? = some entry → entry.depth = some incoming →
      Reachable code place

section Visits

variable {add : Adder} {code : List Instr} {walk walk' : Walk}

theorem Visit.peaked [add.Exact] (visit : Visit add code walk walk')
    (before : Peaked walk) : Peaked walk' := by
  cases visit with
  | pass => exact before
  | enter order found blank arrived =>
      obtain ⟨done, rfl, -⟩ := arrive_exact arrived
      unfold Peaked
      rw [depthsBehind_set found blank rfl, stackChange_of_anchor done,
        Set.insert_comm, max_comm]
      exact before.insert _

/-- An entry that is set anew and looks the same changes nothing that is
seen. -/
theorem map_set_eq {Value : Type} {view : Entry → Value}
    {entries : List Entry} {index : Nat} {entry new : Entry}
    (found : entries[index]? = some entry) (same : view new = view entry) :
    (entries.set index new).map view = entries.map view := by
  have known : (entries.map view)[index]? = some (view entry) := by
    simp [found]
  obtain ⟨inside, equal⟩ := List.getElem?_eq_some_iff.mp known
  rw [List.map_set, same]
  exact equal ▸ List.set_getElem_self inside

theorem Visit.handles_eq (visit : Visit add code walk walk') :
    walk'.entries.map (·.handle) = walk.entries.map (·.handle) := by
  cases visit with
  | pass => rfl
  | enter _ found => exact map_set_eq found rfl

theorem Reached.first (reached : Reached code walk) {index : Nat}
    {incoming : Int} {pending : List (Nat × Int)} {entry : Entry}
    (order : walk.pending = (index, incoming) :: pending)
    (found : walk.entries[index]? = some entry) : Reachable code index := by
  refine reached.waiting (index, incoming) (by simp [order]) ?_
  rw [← reached.tracks.length_eq]
  exact (List.getElem?_eq_some_iff.mp found).1

theorem Visit.reached [add.Exact] (distinct : (labels code).Nodup)
    (visit : Visit add code walk walk') (before : Reached code walk) :
    Reached code walk' := by
  refine ⟨visit.tracks before.tracks, ?_, ?_⟩
  · intro item waiting inside
    cases visit with
    | pass order known =>
        exact before.waiting item (by simp [order, waiting]) inside
    | enter order found blank arrived =>
        rcases List.mem_append.mp waiting with added | later
        · obtain ⟨-, -, -, successorsFound⟩ := arrive_exact arrived
          obtain ⟨next, member, rfl⟩ := List.mem_map.mp added
          have edge := (mem_successors_iff distinct
            (before.tracks.blank found blank) successorsFound inside).mp
            (List.mem_reverse.mp member)
          exact (before.first order found).tail edge
        · exact before.waiting item (by simp [order, later]) inside
  · intro place entry incoming located known
    cases visit with
    | pass => exact before.recorded located known
    | enter order found =>
        rcases (getElem?_set_eq_some_iff found).mp located with
          ⟨rfl, -⟩ | ⟨-, kept⟩
        · exact before.first order found
        · exact before.recorded kept known

end Visits

theorem peaked_start (routine : Routine) : Peaked (start routine) := by
  have nothing : depthsBehind (start routine).entries = ∅ := by
    refine Set.eq_empty_of_forall_notMem ?_
    rintro value ⟨index, entry, depth, found, known, -⟩
    simp [(blank_start found).1] at known
  rw [Peaked, nothing, insert_empty_eq]
  exact isGreatest_singleton

theorem reached_start (routine : Routine) :
    Reached routine.instrs (start routine) where
  tracks := tracks_start routine
  waiting item waiting _ := by
    obtain rfl := List.mem_singleton.mp waiting
    exact .refl
  recorded found known := by simp [(blank_start found).1] at known

section Ends

variable {add : Adder} [add.Exact] {routine : Routine} {final : Walk}
  (ended : explore add routine.instrs (start routine) = (final, none))

include ended

theorem peaked_of_finished : Peaked final :=
  (explore_induction (fun _ _ visit => visit.peaked) (peaked_start routine)
    ended).1

theorem reached_of_finished (distinct : (labels routine.instrs).Nodup) :
    Reached routine.instrs final :=
  (explore_induction (fun _ _ visit => visit.reached distinct)
    (reached_start routine) ended).1

omit [add.Exact] in
theorem handles_of_finished :
    final.entries.map (·.handle) = routine.handles := by
  refine (@explore_induction _ _ _ _
    (fun walk => walk.entries.map (·.handle) = routine.handles)
    (fun _ _ visit same => visit.handles_eq.trans same) ?_ ended).1
  simp [start, Routine.clearDepths, Routine.handles]

end Ends

section Records

variable {entries : List Entry}

def recordedPlaces (entries : List Entry) : List Nat :=
  (entries.zipIdx.filter (·.1.depth.isSome)).map (·.2)

def recordedDepth (entries : List Entry) (place : Nat) : Int :=
  (entries[place]?.bind (·.depth)).getD 0

theorem recordedDepth_eq {place : Nat} {entry : Entry} {depth : Int}
    (found : entries[place]? = some entry) (known : entry.depth = some depth) :
    recordedDepth entries place = depth := by
  simp [recordedDepth, found, known]

theorem mem_recordedPlaces_iff {place : Nat} :
    place ∈ recordedPlaces entries ↔
      ∃ entry depth, entries[place]? = some entry ∧
        entry.depth = some depth := by
  simp only [recordedPlaces, List.mem_map, List.mem_filter,
    Option.isSome_iff_exists]
  constructor
  · rintro ⟨⟨entry, _⟩, ⟨member, depth, known⟩, rfl⟩
    exact ⟨entry, depth, List.mk_mem_zipIdx_iff_getElem?.mp member, known⟩
  · rintro ⟨entry, depth, found, known⟩
    exact ⟨(entry, place),
      ⟨List.mk_mem_zipIdx_iff_getElem?.mpr found, depth, known⟩, rfl⟩

theorem pairwise_recordedPlaces (entries : List Entry) :
    (recordedPlaces entries).Pairwise (· < ·) := by
  have ascending : (entries.zipIdx.map (·.2)).Pairwise (· < ·) := by
    rw [List.zipIdx_map_snd]
    exact List.pairwise_lt_range'
  exact ascending.sublist (List.filter_sublist.map _)

/-- The entries with a depth stand in the order of their indices. -/
theorem forall₂_recordedPlaces (entries : List Entry) :
    List.Forall₂ (fun place entry => entries[place]? = some entry ∧
        entry.depth = some (recordedDepth entries place))
      (recordedPlaces entries) (entries.filter (·.depth.isSome)) := by
  have kept : entries.filter (·.depth.isSome) =
      (entries.zipIdx.filter (·.1.depth.isSome)).map (·.1) := by
    conv_lhs => rw [← entries.zipIdx_map_fst 0]
    rw [List.filter_map]
    rfl
  rw [kept, recordedPlaces, List.forall₂_map_left_iff,
    List.forall₂_map_right_iff, List.forall₂_same]
  rintro ⟨entry, place⟩ member
  obtain ⟨inside, isKnown⟩ := List.mem_filter.mp member
  obtain ⟨depth, known⟩ := Option.isSome_iff_exists.mp isKnown
  have found := List.mk_mem_zipIdx_iff_getElem?.mp inside
  exact ⟨found, by rw [recordedDepth_eq found known]; exact known⟩

/-- The entries without a depth are those at the indices that were not
recorded. -/
theorem unvisited_eq_ncard (entries : List Entry) :
    unvisited entries =
      {place | place < entries.length ∧
        place ∉ recordedPlaces entries}.ncard := by
  have distinct : (recordedPlaces entries).Nodup :=
    (pairwise_recordedPlaces entries).imp Nat.ne_of_lt
  have inside : (recordedPlaces entries).toFinset ⊆
      Finset.range entries.length := by
    intro place member
    obtain ⟨entry, _, found, -⟩ :=
      mem_recordedPlaces_iff.mp (List.mem_toFinset.mp member)
    exact Finset.mem_range.mpr (List.getElem?_eq_some_iff.mp found).1
  have same : {place | place < entries.length ∧
      place ∉ recordedPlaces entries} =
        ↑(Finset.range entries.length \
          (recordedPlaces entries).toFinset) := by
    ext place
    simp
  have recorded : (recordedPlaces entries).length =
      entries.countP (·.depth.isSome) := by
    rw [(forall₂_recordedPlaces entries).length_eq,
      List.countP_eq_length_filter]
  have total := entries.length_eq_countP_add_countP (·.depth.isSome)
  have blank : unvisited entries =
      entries.countP (fun entry => ¬entry.depth.isSome) :=
    List.countP_congr (by simp)
  rw [same, Set.ncard_coe_finset, Finset.card_sdiff_of_subset inside,
    Finset.card_range, List.toFinset_card_of_nodup distinct, recorded]
  omega

end Records

section Finished

variable {code : List Instr} {walk : Walk} {place : Nat}

theorem Tracks.exists_instr (tracks : Tracks code walk.entries)
    (member : place ∈ recordedPlaces walk.entries) :
    ∃ entry instr, walk.entries[place]? = some entry ∧
      entry.depth = some (recordedDepth walk.entries place) ∧
      code[place]? = some instr ∧
      anchor .integers (recordedDepth walk.entries place) instr =
        .ok entry.instr := by
  obtain ⟨entry, depth, found, known⟩ := mem_recordedPlaces_iff.mp member
  obtain ⟨instr, here, done⟩ := tracks.anchored found known
  rw [recordedDepth_eq found known]
  exact ⟨entry, instr, found, known, here, done⟩

/-- The depths behind the recorded instructions, said of the code. -/
theorem Tracks.depthsBehind_eq (tracks : Tracks code walk.entries) :
    depthsBehind walk.entries =
      {value | ∃ place ∈ recordedPlaces walk.entries, ∃ instr,
        code[place]? = some instr ∧
          value = recordedDepth walk.entries place + instr.stackChange} := by
  ext value
  constructor
  · rintro ⟨place, entry, depth, found, known, rfl⟩
    obtain ⟨instr, here, done⟩ := tracks.anchored found known
    refine ⟨place, mem_recordedPlaces_iff.mpr ⟨entry, depth, found, known⟩,
      instr, here, ?_⟩
    rw [recordedDepth_eq found known, stackChange_of_anchor done]
  · rintro ⟨place, member, instr, here, rfl⟩
    obtain ⟨entry, source, found, known, there, done⟩ :=
      tracks.exists_instr member
    obtain rfl := Option.some.inj (here.symm.trans there)
    exact ⟨place, entry, _, found, known, by
      rw [stackChange_of_anchor done]⟩

variable (closed : Closed code walk) (finished : walk.pending = [])

include closed finished in
theorem Closed.recordedDepth_zero : recordedDepth walk.entries 0 = 0 := by
  cases first : walk.entries[0]? with
  | none => simp [recordedDepth, first]
  | some entry =>
      exact recordedDepth_eq first (closed.start.depth_eq finished first)

include closed in
theorem Closed.behind_nonneg {instr : Instr}
    (member : place ∈ recordedPlaces walk.entries)
    (here : code[place]? = some instr) :
    0 ≤ recordedDepth walk.entries place + instr.stackChange := by
  obtain ⟨entry, source, found, known, there, done⟩ :=
    closed.tracks.exists_instr member
  obtain rfl := Option.some.inj (here.symm.trans there)
  rw [← stackChange_of_anchor done]
  exact (closed.onward found known).1

variable (distinct : (labels code).Nodup)

include closed finished distinct

theorem Closed.recordedDepth_of_edge {next : Nat} {instr : Instr}
    (member : place ∈ recordedPlaces walk.entries)
    (here : code[place]? = some instr) (edge : Edge code place next) :
    recordedDepth walk.entries next =
      recordedDepth walk.entries place + instr.stackChange := by
  obtain ⟨entry, source, found, known, there, done⟩ :=
    closed.tracks.exists_instr member
  obtain rfl := Option.some.inj (here.symm.trans there)
  obtain ⟨follower, nextFound, nextKnown⟩ :=
    closed.recorded_of_edge finished distinct found known edge
  rw [recordedDepth_eq nextFound nextKnown, stackChange_of_anchor done]

variable (reached : Reached code walk)

include reached

theorem Closed.mem_recordedPlaces_iff_reachable :
    place ∈ recordedPlaces walk.entries ↔
      place < code.length ∧ Reachable code place := by
  rw [mem_recordedPlaces_iff]
  constructor
  · rintro ⟨entry, depth, found, known⟩
    rw [← closed.tracks.length_eq]
    exact ⟨(List.getElem?_eq_some_iff.mp found).1,
      reached.recorded found known⟩
  · rintro ⟨inside, reachable⟩
    exact closed.recorded_of_reachable finished distinct reachable inside

theorem Closed.recordedDepth_nonneg
    (member : place ∈ recordedPlaces walk.entries) :
    0 ≤ recordedDepth walk.entries place := by
  obtain ⟨-, reachable⟩ := (closed.mem_recordedPlaces_iff_reachable finished
    distinct reached).mp member
  -- The depth before an instruction is that behind the one before it.
  rcases reachable.cases_tail with first | ⟨source, sourceReachable, edge⟩
  · rw [first, closed.recordedDepth_zero finished]
  · have sourceMember := (closed.mem_recordedPlaces_iff_reachable finished
      distinct reached).mpr ⟨edge.source_lt_length, sourceReachable⟩
    obtain ⟨_, instr, -, -, here, -⟩ :=
      closed.tracks.exists_instr sourceMember
    rw [closed.recordedDepth_of_edge finished distinct sourceMember here edge]
    exact closed.behind_nonneg sourceMember here

end Finished

/-- What the analysis leaves of the instruction at a place: its handle, the
depth before it, and the instruction anchored at that depth. -/
structure Survivor (routine : Routine) (depth : Nat → Int) (place : Nat)
    (entry : Entry) : Prop where
  handle_eq : routine.handles[place]? = some entry.handle
  depth_eq : entry.depth = some (depth place)
  anchored : ∃ instr, routine.instrs[place]? = some instr ∧
    Anchored (depth place) instr entry.instr

/-- All that an analysis of a routine returns and leaves behind, where `places`
are the instructions that it keeps and `depth` is the depth before each. -/
structure Survey (routine : Routine) (places : List Nat) (depth : Nat → Int)
    (analysis : Analysis) (measured : Routine) : Prop where
  ascending : places.Pairwise (· < ·)
  mem_places_iff : ∀ {place : Nat}, place ∈ places ↔
    place < routine.instrs.length ∧ Reachable routine.instrs place
  survivors : List.Forall₂ (Survivor routine depth) places measured.entries
  start : depth 0 = 0
  notBelow : ∀ {place : Nat} {instr : Instr}, place ∈ places →
    routine.instrs[place]? = some instr →
      0 ≤ depth place ∧ 0 ≤ depth place + instr.stackChange
  agrees : ∀ {place next : Nat} {instr : Instr}, place ∈ places →
    routine.instrs[place]? = some instr → Edge routine.instrs place next →
      depth next = depth place + instr.stackChange
  maxDepth_isGreatest : IsGreatest (insert 0 {value | ∃ place ∈ places,
    ∃ instr, routine.instrs[place]? = some instr ∧
      value = depth place + instr.stackChange}) (analysis.maxDepth : Int)
  maxDepth_stored : measured.maxDepth = analysis.maxDepth
  removed_eq : analysis.removed = {place | place < routine.instrs.length ∧
    ¬Reachable routine.instrs place}.ncard
  diagnostics_eq : analysis.diagnostics =
    if analysis.removed = 0 then []
    else [.note s!"removed {analysis.removed} unreachable instruction(s)"]

/-- An analysis that succeeds keeps exactly the reachable instructions, in
their order, with depths that agree along every edge, and reports the greatest
of these depths and the number of the other instructions. -/
theorem measureDepths_surveys_reachable_code {routine measured : Routine}
    {analysis : Analysis}
    (accepted : routine.measureDepths = (.ok analysis, measured)) :
    ∃ places depth, Survey routine places depth analysis measured := by
  obtain ⟨distinct, final, ended, rfl, rfl⟩ :=
    finished_of_measureDepthsBy accepted
  obtain ⟨closed, finished⟩ := closed_of_finished ended
  have reached := reached_of_finished ended distinct
  have peaked := peaked_of_finished ended
  have member_iff {place : Nat} :
      place ∈ recordedPlaces final.entries ↔
        place < routine.instrs.length ∧ Reachable routine.instrs place :=
    closed.mem_recordedPlaces_iff_reachable finished distinct reached
  have deepest : ((analysisOf final).maxDepth : Int) = final.deepest :=
    Int.toNat_of_nonneg (peaked.2 (Set.mem_insert 0 _))
  refine ⟨recordedPlaces final.entries, recordedDepth final.entries, ?_⟩
  exact
    { ascending := pairwise_recordedPlaces final.entries
      mem_places_iff := member_iff
      survivors := by
        refine (forall₂_recordedPlaces final.entries).imp ?_
        rintro place entry ⟨found, known⟩
        obtain ⟨instr, here, done⟩ := closed.tracks.anchored found known
        refine ⟨?_, known, instr, here, anchored_of_anchor done⟩
        rw [← handles_of_finished ended, List.getElem?_map, found]
        rfl
      start := closed.recordedDepth_zero finished
      notBelow := fun member here =>
        ⟨closed.recordedDepth_nonneg finished distinct reached member,
          closed.behind_nonneg member here⟩
      agrees := closed.recordedDepth_of_edge finished distinct
      maxDepth_isGreatest := by
        rw [deepest, ← closed.tracks.depthsBehind_eq]
        exact peaked
      maxDepth_stored := rfl
      removed_eq := by
        refine (unvisited_eq_ncard final.entries).trans ?_
        congr 1
        ext place
        simp only [Set.mem_ofPred_eq, member_iff, closed.tracks.length_eq]
        tauto
      diagnostics_eq := rfl }

/-- A loop on a reserved frame, with the address of a reserved unit and a push
that no path reaches. -/
def reserving : Routine :=
  Routine.ofList [.push 2, .label ⟨0⟩, .pushStackAddr (-1), .popRegPtr,
    .branch .zero (.label ⟨0⟩), .jump (.label ⟨1⟩), .pushConst 9, .label ⟨1⟩,
    .pop 2, .ret 0]

theorem measureDepths_surveys_reserving :
    reserving.measureDepths.1 =
      .ok ⟨3, 1, [.note "removed 1 unreachable instruction(s)"]⟩ ∧
    reserving.measureDepths.2.instrs =
      [.push 2, .label ⟨0⟩, .pushFrameAddr 1, .popRegPtr,
        .branch .zero (.label ⟨0⟩), .jump (.label ⟨1⟩), .label ⟨1⟩, .pop 2,
        .ret 0] ∧
    ∃ places depth, Survey reserving places depth
      ⟨3, 1, [.note "removed 1 unreachable instruction(s)"]⟩
      reserving.measureDepths.2 := by
  have accepted : reserving.measureDepths.1 =
      .ok ⟨3, 1, [.note "removed 1 unreachable instruction(s)"]⟩ := by cbv
  have left : reserving.measureDepths.2.instrs =
      [.push 2, .label ⟨0⟩, .pushFrameAddr 1, .popRegPtr,
        .branch .zero (.label ⟨0⟩), .jump (.label ⟨1⟩), .label ⟨1⟩, .pop 2,
        .ret 0] := by cbv
  exact ⟨accepted, left,
    measureDepths_surveys_reachable_code (Prod.ext accepted rfl)⟩

end StackDepth

end StackAssembler
