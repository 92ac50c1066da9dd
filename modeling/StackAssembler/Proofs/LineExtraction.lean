import StackAssembler.Proofs.LineSurvival
import StackAssembler.Proofs.SettledCode

/-!
# What the extraction of lines leaves behind

Every entry of a routine stands at a code position.  Extracting the lines takes
away the entries of plain line markers, which take up no code, and puts suspend
points in the places of the cues, which have room for them.  So all that is
left stands where it stood.

The rows of the new table have increasing positions, since a table takes a row
only behind its last one.  For a code position the table answers with the last
marker that stood no later.
-/

namespace StackAssembler

theorem LineTable.increasing_record {table longer : LineTable} {position : Nat}
    {source : SourcePos}
    (recorded : table.record position source = .ok longer)
    (increasing : table.rows.Pairwise (·.position < ·.position)) :
    longer.rows.Pairwise (·.position < ·.position) := by
  obtain ⟨rows⟩ := table
  rcases List.eq_nil_or_concat' rows with rfl | ⟨kept, last, rfl⟩
  · obtain rfl := Except.ok.inj recorded
    exact List.pairwise_singleton _ _
  · simp only [LineTable.record, List.getLast?_concat,
      List.dropLast_concat] at recorded
    obtain ⟨keptIncreasing, -, behind⟩ := List.pairwise_append.mp increasing
    split at recorded
    · rename_i same
      obtain rfl := Except.ok.inj recorded
      refine List.pairwise_append.mpr
        ⟨keptIncreasing, List.pairwise_singleton _ _, ?_⟩
      intro row inside other single
      rw [List.mem_singleton.mp single, ← same]
      exact behind row inside last (List.mem_singleton_self last)
    · split at recorded
      · rename_i later
        obtain rfl := Except.ok.inj recorded
        refine List.pairwise_append.mpr
          ⟨increasing, List.pairwise_singleton _ _, ?_⟩
        intro row inside other single
        rw [List.mem_singleton.mp single]
        rcases List.mem_append.mp inside with early | isLast
        · have before := behind row early last (List.mem_singleton_self last)
          exact before.trans later
        · rwa [List.mem_singleton.mp isLast]
      · cases recorded

namespace Layout

theorem increasing_recordLines {table lines : LineTable} {position : Nat}
    {code : List Instr}
    (recorded : recordLines table position code = .ok lines)
    (increasing : table.rows.Pairwise (·.position < ·.position)) :
    lines.rows.Pairwise (·.position < ·.position) := by
  induction code generalizing table position with
  | nil =>
      obtain rfl := Except.ok.inj recorded
      exact increasing
  | cons instr code ih =>
      unfold recordLines at recorded
      split at recorded
      · obtain ⟨longer, first, rest⟩ := bind_eq_ok_iff.mp recorded
        exact ih rest (LineTable.increasing_record first increasing)
      · exact ih recorded increasing

/-- The entries of a routine, each with its code position. -/
def placed (entries : List Entry) : List (Nat × Entry) :=
  entries.mapIdx fun index entry =>
    (Flow.position (entries.map (·.instr)) index, entry)

/-- Entries with their code positions, counted on from a first one. -/
def placedFrom : Nat → List Entry → List (Nat × Entry)
  | _, [] => []
  | place, entry :: rest =>
      (place, entry) :: placedFrom (place + entry.instr.size) rest

theorem placedFrom_eq_mapIdx (start : Nat) (entries : List Entry) :
    placedFrom start entries =
      entries.mapIdx fun index entry =>
        (start + Flow.position (entries.map (·.instr)) index, entry) := by
  induction entries generalizing start with
  | nil => rfl
  | cons entry entries ih =>
      simp [placedFrom, ih, List.mapIdx_cons, Nat.add_assoc]

theorem placed_eq_placedFrom (entries : List Entry) :
    placed entries = placedFrom 0 entries := by
  simp [placed, placedFrom_eq_mapIdx]

/-- The source position of a line marker, with the marker's code position. -/
def marker? (item : Nat × Entry) : Option (Nat × SourcePos) :=
  item.2.instr.source?.map (item.1, ·)

/-- The line markers of a routine in order, with their code positions. -/
def markers (entries : List Entry) : List (Nat × SourcePos) :=
  (placed entries).filterMap marker?

theorem lineBy?_eq_getLast? (limit start : Nat) (entries : List Entry) :
    lineBy? limit start (entries.map (·.instr)) =
      ((((placedFrom start entries).filterMap marker?).filter
        (·.1 ≤ limit)).getLast?).map (·.2) := by
  induction entries generalizing start with
  | nil => rfl
  | cons entry entries ih =>
      rw [List.map_cons, lineBy?, ih, placedFrom]
      cases source : entry.instr.source? with
      | none => simp [marker?, source]
      | some pos =>
          have first : marker? (start, entry) = some (start, pos) := by
            simp [marker?, source]
          rw [List.filterMap_cons_some first]
          by_cases reached : start ≤ limit
          · rw [List.filter_cons_of_pos (by simpa using reached),
              List.getLast?_cons, if_pos reached]
            cases (List.filter (·.1 ≤ limit) (List.filterMap marker?
              (placedFrom (start + entry.instr.size) entries))).getLast? <;>
              rfl
          · rw [List.filter_cons_of_neg (by simpa using reached),
              if_neg reached, Option.or_none]

theorem length_markers (entries : List Entry) :
    (markers entries).length =
      (entries.map (·.instr)).countP isLine := by
  rw [markers, placed_eq_placedFrom]
  generalize 0 = start
  induction entries generalizing start with
  | nil => rfl
  | cons entry entries ih =>
      rw [placedFrom, List.filterMap_cons, List.map_cons, List.countP_cons,
        ← ih (start + entry.instr.size)]
      cases same : entry.instr <;>
        simp [marker?, same, Instr.source?, isLine]

/-- What the extraction leaves of an entry at its code position: nothing of a
plain line marker, a suspend point with the same handle in place of a cue, and
any other entry as it is. -/
def settled? (item : Nat × Entry) : Option (Nat × Entry) :=
  match item.2.instr with
  | .line _ true => some (item.1, { item.2 with instr := .suspend })
  | .line _ false => none
  | _ => some item

theorem placedFrom_collectedEntries (start : Nat) (entries : List Entry) :
    placedFrom start (collectedEntries entries) =
      (placedFrom start entries).filterMap settled? := by
  induction entries generalizing start with
  | nil => rfl
  | cons entry entries ih =>
      obtain ⟨handle, instr, depth⟩ := entry
      cases instr with
      | line pos cue =>
          cases cue with
          | false => exact ih start
          | true => exact congrArg (_ :: ·) (ih (start + 1))
      | _ => exact congrArg (_ :: ·) (ih _)

/-- All that the extraction of lines from a routine returns and leaves
behind. -/
structure Extracted (routine : Routine) (count : Nat) (left : Routine) :
    Prop where
  count_eq : count = (markers routine.entries).length
  noLine : ∀ entry ∈ left.entries, ∀ pos cue, entry.instr ≠ .line pos cue
  placed_eq : placed left.entries =
    (placed routine.entries).filterMap settled?
  codeSize_eq : left.codeSize = routine.codeSize
  increasing : left.lines.rows.Pairwise (·.position < ·.position)
  lookup?_eq : ∀ limit, left.lines.lookup? limit =
    (((markers routine.entries).filter (·.1 ≤ limit)).getLast?).map (·.2)

end Layout

end StackAssembler
