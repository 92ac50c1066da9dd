import StackAssembler.Proofs.DepthWalk

/-!
# What the depth analysis leaves behind

The analysis keeps the instructions that its walk has reached.  What follows an
instruction there is what followed it before, and the label of a jump is still
marked, so the depths that were recorded agree along the code that is left.
-/

namespace StackAssembler

namespace StackDepth

open Flow

/-- Entries with stack depths that start at zero, are never negative, and agree
from each entry to the next and from each jump to its label. -/
structure Balanced (entries : List Entry) : Prop where
  distinct : (labels (entries.map (·.instr))).Nodup
  start : ∀ {entry : Entry}, entries.head? = some entry →
    entry.depth = some 0
  known : ∀ {entry : Entry}, entry ∈ entries →
    ∃ depth, entry.depth = some depth ∧ 0 ≤ depth + entry.instr.stackChange
  next : ∀ {front rest : List Entry} {entry follower : Entry} {depth : Int},
    entries = front ++ entry :: follower :: rest →
      entry.depth = some depth → entry.instr.fallsThrough = true →
        follower.depth = some (depth + entry.instr.stackChange)
  marked : ∀ {entry : Entry} {name : Label}, entry ∈ entries →
    entry.instr.target? = some (.label name) →
      name ∈ labels (entries.map (·.instr))
  target : ∀ {entry marker : Entry} {name : Label} {depth : Int},
    entry ∈ entries → entry.depth = some depth →
      entry.instr.target? = some (.label name) → marker ∈ entries →
        marker.instr = .label name →
          marker.depth = some (depth + entry.instr.stackChange)

section Anchors

variable {add : Adder} {depth : Int} {instr anchored : Instr}

theorem marks?_of_anchor (done : anchor add depth instr = .ok anchored) :
    anchored.marks? = instr.marks? :=
  apply_of_anchor Instr.marks? (fun _ _ => rfl) done

theorem target?_of_anchor (done : anchor add depth instr = .ok anchored) :
    anchored.target? = instr.target? :=
  apply_of_anchor Instr.target? (fun _ _ => rfl) done

theorem fallsThrough_of_anchor (done : anchor add depth instr = .ok anchored) :
    anchored.fallsThrough = instr.fallsThrough :=
  apply_of_anchor Instr.fallsThrough (fun _ _ => rfl) done

end Anchors

theorem Tracks.labels_eq {code : List Instr} {entries : List Entry}
    (tracks : Tracks code entries) :
    labels (entries.map (·.instr)) = labels code := by
  have marks : (entries.map (·.instr)).map Instr.marks? =
      code.map Instr.marks? := by
    apply List.ext_getElem?
    intro index
    simp only [List.getElem?_map]
    cases found : entries[index]? with
    | none =>
        have outside : code[index]? = none := by
          rw [List.getElem?_eq_none_iff, ← tracks.length_eq]
          exact List.getElem?_eq_none_iff.mp found
        rw [outside]
        rfl
    | some entry =>
        cases known : entry.depth with
        | none => rw [tracks.blank found known]; rfl
        | some depth =>
            obtain ⟨instr, here, done⟩ := tracks.anchored found known
            simp [here, marks?_of_anchor done]
  have reduced (run : List Instr) :
      labels run = (run.map Instr.marks?).filterMap id := by
    simp [labels, List.filterMap_map]
  rw [reduced, reduced, marks]

theorem exists_recorded {entries : List Entry} {entry : Entry}
    (kept : entry ∈ entries.filter (·.depth.isSome)) :
    ∃ (index : Nat) (depth : Int), entries[index]? = some entry ∧
      entry.depth = some depth := by
  obtain ⟨member, isKnown⟩ := List.mem_filter.mp kept
  obtain ⟨index, found⟩ := List.getElem?_of_mem member
  obtain ⟨depth, known⟩ := Option.isSome_iff_exists.mp isKnown
  exact ⟨index, depth, found, known⟩

section Finished

variable {code : List Instr} {walk : Walk} (closed : Closed code walk)
  (finished : walk.pending = []) (distinct : (labels code).Nodup)

include closed finished distinct

/-- Behind an entry that falls through stands an entry with the depth after
it. -/
theorem Closed.recorded_next {front rest : List Entry}
    {entry follower : Entry} {depth : Int}
    (split : walk.entries = front ++ entry :: follower :: rest)
    (known : entry.depth = some depth)
    (falls : entry.instr.fallsThrough = true) :
    follower.depth = some (depth + entry.instr.stackChange) := by
  have found : walk.entries[front.length]? = some entry := by
    simp [split]
  have followerFound : walk.entries[front.length + 1]? = some follower := by
    simp [split]
  obtain ⟨instr, here, done⟩ := closed.tracks.anchored found known
  have inside : front.length + 1 < code.length := by
    rw [← closed.tracks.length_eq]
    exact (List.getElem?_eq_some_iff.mp followerFound).1
  have edge : Edge code front.length (front.length + 1) :=
    .next here (fallsThrough_of_anchor done ▸ falls) inside
  obtain ⟨next, nextFound, nextKnown⟩ :=
    closed.recorded_of_edge finished distinct found known edge
  obtain rfl := Option.some.inj (followerFound.symm.trans nextFound)
  exact nextKnown

/-- The label of a recorded jump is marked at a recorded place, and wherever it
is marked, the depth is the one after the jump. -/
theorem Closed.recorded_target {index : Nat} {entry : Entry} {depth : Int}
    {name : Label} (found : walk.entries[index]? = some entry)
    (known : entry.depth = some depth)
    (aimed : entry.instr.target? = some (.label name)) :
    (∃ marker ∈ walk.entries, marker.instr = .label name ∧
        marker.depth.isSome) ∧
      ∀ {place : Nat} {marker : Entry}, walk.entries[place]? = some marker →
        code[place]? = some (.label name) →
          marker.depth = some (depth + entry.instr.stackChange) := by
  obtain ⟨instr, here, done⟩ := closed.tracks.anchored found known
  have instrAimed : instr.target? = some (.label name) :=
    target?_of_anchor done ▸ aimed
  have recorded {place : Nat} {marker : Entry}
      (markerFound : walk.entries[place]? = some marker)
      (marked : code[place]? = some (.label name)) :
      marker.depth = some (depth + entry.instr.stackChange) := by
    obtain ⟨next, nextFound, nextKnown⟩ := closed.recorded_of_edge finished
      distinct found known (.target here instrAimed (.label marked))
    obtain rfl := Option.some.inj (markerFound.symm.trans nextFound)
    exact nextKnown
  refine ⟨?_, recorded⟩
  obtain ⟨-, places, successorsFound, -⟩ := closed.onward found known
  rw [successors_of_anchor done] at successorsFound
  obtain ⟨lands, -⟩ := (exists_successors_iff distinct).mp
    ⟨places, successorsFound⟩
  obtain ⟨place, leads⟩ := lands _ instrAimed
  cases leads with
  | label marked =>
      obtain ⟨marker, markerFound⟩ :=
        closed.exists_entry (List.getElem?_eq_some_iff.mp marked).1
      have markerKnown := recorded markerFound marked
      obtain ⟨original, same, anchored⟩ :=
        closed.tracks.anchored markerFound markerKnown
      obtain rfl := Option.some.inj (marked.symm.trans same)
      refine ⟨marker, List.mem_of_getElem? markerFound, ?_, by
        simp [markerKnown]⟩
      exact Instr.marks?_eq_some_iff.mp (marks?_of_anchor anchored)

/-- Behind an entry that falls through, the entry that is kept next is the one
that stood there before. -/
theorem Closed.recorded_next_kept {front rest : List Entry}
    {entry follower : Entry} {depth : Int}
    (split : walk.entries.filter (·.depth.isSome) =
      front ++ entry :: follower :: rest)
    (known : entry.depth = some depth)
    (falls : entry.instr.fallsThrough = true) :
    follower.depth = some (depth + entry.instr.stackChange) := by
  obtain ⟨before, after, whole, -, afterKept⟩ :=
    List.filter_eq_append_iff.mp split
  obtain ⟨skipped, tail, rfl, -, -, tailKept⟩ :=
    List.filter_eq_cons_iff.mp afterKept
  cases tail with
  | nil => simp at tailKept
  | cons head tail =>
      -- The next entry of the walk has a depth, so it is kept as well.
      have headKnown := closed.recorded_next finished distinct
        (by rw [whole, ← List.append_assoc]) known falls
      rw [List.filter_cons_of_pos (by simp [headKnown])] at tailKept
      obtain ⟨rfl, -⟩ := List.cons.inj tailKept
      exact headKnown

omit distinct in
theorem Closed.first_kept {entry : Entry}
    (first : (walk.entries.filter (·.depth.isSome)).head? = some entry) :
    entry.depth = some 0 := by
  cases shape : walk.entries with
  | nil => simp [shape] at first
  | cons head rest =>
      have zero : head.depth = some 0 :=
        closed.start.depth_eq finished (by simp [shape])
      rw [shape, List.filter_cons_of_pos (by simp [zero])] at first
      obtain rfl := Option.some.inj first
      exact zero

theorem Closed.balanced :
    Balanced (walk.entries.filter (·.depth.isSome)) where
  distinct := by
    rw [← closed.tracks.labels_eq] at distinct
    exact distinct.sublist (labels_sublist (List.filter_sublist.map _))
  start := closed.first_kept finished
  known kept := by
    obtain ⟨index, depth, found, known⟩ := exists_recorded kept
    exact ⟨depth, known, (closed.onward found known).1⟩
  next := closed.recorded_next_kept finished distinct
  marked kept aimed := by
    obtain ⟨index, depth, found, known⟩ := exists_recorded kept
    obtain ⟨⟨marker, member, marks, isKnown⟩, -⟩ :=
      closed.recorded_target finished distinct found known aimed
    rw [mem_labels_iff, ← marks]
    exact List.mem_map_of_mem (List.mem_filter.mpr ⟨member, isKnown⟩)
  target := by
    intro entry marker name depth kept known aimed markerKept marks
    obtain ⟨index, _, found, -⟩ := exists_recorded kept
    obtain ⟨place, markerDepth, markerFound, markerKnown⟩ :=
      exists_recorded markerKept
    obtain ⟨instr, here, done⟩ :=
      closed.tracks.anchored markerFound markerKnown
    have marked : instr.marks? = some name := by
      rw [← marks?_of_anchor done, marks]
      rfl
    obtain rfl := Instr.marks?_eq_some_iff.mp marked
    exact (closed.recorded_target finished distinct found known aimed).2
      markerFound here

end Finished

section Measured

variable {routine measured : Routine} {analysis : Analysis}
  (accepted : routine.measureDepths = (.ok analysis, measured))

include accepted

theorem balanced_of_measureDepths : Balanced measured.entries := by
  obtain ⟨distinct, final, ended, -, rfl⟩ := finished_of_measureDepthsBy accepted
  obtain ⟨closed, finished⟩ := closed_of_finished ended
  exact closed.balanced finished distinct

/-- What is left of an accepted routine was in it, up to anchoring. -/
theorem exists_anchor_of_measureDepths {instr : Instr}
    (member : instr ∈ measured.instrs) :
    ∃ source ∈ routine.instrs, ∃ depth, anchor .integers depth source = .ok instr := by
  obtain ⟨-, final, ended, -, rfl⟩ := finished_of_measureDepthsBy accepted
  obtain ⟨closed, -⟩ := closed_of_finished ended
  obtain ⟨entry, kept, rfl⟩ := List.mem_map.mp member
  obtain ⟨index, depth, found, known⟩ := exists_recorded kept
  obtain ⟨source, here, done⟩ := closed.tracks.anchored found known
  exact ⟨source, List.mem_of_getElem? here, depth, done⟩

end Measured

end StackDepth

end StackAssembler
