import StackAssembler.Proofs.HandleIndependence
import StackAssembler.Proofs.LineExtraction

/-!
# Line tables of joined routines

Two routines can be joined before or after their line markers are extracted.
Both ways lead to the same table.  Where the last marker of the one and the
first marker of the other stand at the same code position, the later one counts
either way: extraction overwrites the row of the earlier marker, and so does the
joining.

The joining records the rows of the second table one by one and moves nothing
else before that is done.  If those rows have increasing positions, only the
first of them can fall behind the table of the first routine, so a joining that
is refused for this has not changed anything.  What can end it later is a row
that moves past the last position that a word can hold.
-/

namespace StackAssembler

namespace LineTable

variable {table longer : LineTable} {position shift : Nat}

/-! ## Rows that are moved up -/

theorem recordAll_cons_eq_ok_iff {row : LineRow} {rows : List LineRow} :
    table.recordAll shift (row :: rows) = (.ok (), longer) ↔
      ∃ further, table.recordMoved shift row = .ok further ∧
        further.recordAll shift rows = (.ok (), longer) := by
  cases first : table.recordMoved shift row <;> simp [recordAll, first]

/-- Rows that are recorded do not matter for those behind them but by the table
that they leave. -/
theorem recordAll_append {front : List LineRow}
    (recorded : table.recordAll shift front = (.ok (), longer))
    (back : List LineRow) :
    table.recordAll shift (front ++ back) = longer.recordAll shift back := by
  induction front generalizing table with
  | nil =>
      obtain rfl := (Prod.mk.inj recorded).2
      rfl
  | cons row front ih =>
      obtain ⟨further, first, rest⟩ := recordAll_cons_eq_ok_iff.mp recorded
      rw [List.cons_append, recordAll, first]
      exact ih rest

theorem exists_recordAll_of_append {front back : List LineRow}
    (recorded : table.recordAll shift (front ++ back) = (.ok (), longer)) :
    ∃ further, table.recordAll shift front = (.ok (), further) := by
  induction front generalizing table with
  | nil => exact ⟨table, rfl⟩
  | cons row front ih =>
      obtain ⟨further, first, rest⟩ := recordAll_cons_eq_ok_iff.mp recorded
      obtain ⟨last, done⟩ := ih rest
      exact ⟨last, recordAll_cons_eq_ok_iff.mpr ⟨further, first, done⟩⟩

theorem recordAll_concat {rows : List LineRow} {row : LineRow}
    {further : LineTable}
    (recorded : table.recordAll shift rows = (.ok (), further)) :
    table.recordAll shift (rows ++ [row]) = (.ok (), longer) ↔
      further.recordMoved shift row = .ok longer := by
  rw [recordAll_append recorded, recordAll_cons_eq_ok_iff]
  simp [recordAll]

/-- Of two records at the same position the later one counts. -/
theorem record_record (table : LineTable) (position : Nat)
    (earlier later : SourcePos) :
    (table.record position earlier >>= fun longer =>
      longer.record position later) = table.record position later := by
  obtain ⟨rows⟩ := table
  rcases List.eq_nil_or_concat' rows with rfl | ⟨kept, last, rfl⟩
  · simp [record, bind, Except.bind]
  · by_cases same : last.position = position
    · simp [record, same, bind, Except.bind]
    · by_cases before : last.position < position
      · simp [record, same, before, bind, Except.bind]
      · simp [record, same, before, bind, Except.bind]

theorem recordMoved_of_fits {row : LineRow}
    (fits : shift + row.position < positionLimit) (table : LineTable) :
    table.recordMoved shift row =
      table.record (shift + row.position) row.source := by
  simp [recordMoved, wordPosition, fits, bind, Except.bind]

theorem recordMoved_of_tooFar {row : LineRow}
    (tooFar : positionLimit ≤ shift + row.position) (table : LineTable) :
    table.recordMoved shift row = .error .overflow := by
  simp [recordMoved, wordPosition, Nat.not_lt.mpr tooFar, bind, Except.bind]

/-- A row may be recorded before or after the table is moved up behind
another one. -/
theorem recordAll_of_record {source : SourcePos} {base moved further : LineTable}
    (recorded : table.record position source = .ok longer)
    (start : base.recordAll shift table.rows = (.ok (), moved))
    (fits : shift + position < positionLimit)
    (done : moved.record (shift + position) source = .ok further) :
    base.recordAll shift longer.rows = (.ok (), further) := by
  have fitsRow (other : SourcePos) (any : LineTable) :
      any.recordMoved shift ⟨position, other⟩ =
        any.record (shift + position) other :=
    recordMoved_of_fits (by exact fits) any
  obtain ⟨rows⟩ := table
  rcases List.eq_nil_or_concat' rows with rfl | ⟨kept, last, rfl⟩
  · obtain rfl := Except.ok.inj recorded
    rw [← fitsRow] at done
    exact (recordAll_concat start).mpr done
  · simp only [record, List.getLast?_concat, List.dropLast_concat] at recorded
    split at recorded
    -- The last row is replaced, before the table moves up or behind it.
    · rename_i same
      obtain rfl := Except.ok.inj recorded
      obtain ⟨here, earlier⟩ := last
      obtain rfl : here = position := same
      obtain ⟨middle, kept⟩ := exists_recordAll_of_append start
      rw [recordAll_concat kept, fitsRow] at start ⊢
      rw [← record_record _ _ earlier, start]
      exact done
    · split at recorded
      · obtain rfl := Except.ok.inj recorded
        rw [← fitsRow] at done
        exact (recordAll_concat start).mpr done
      · cases recorded

end LineTable

namespace Layout

open LineTable

variable {table lines : LineTable} {position : Nat} {code : List Instr}

theorem endsBy_recordLines
    (recorded : recordLines table position code = .ok lines)
    (endsBy : table.EndsBy position) :
    lines.EndsBy (position + Instr.codeSize code) := by
  induction code generalizing table position with
  | nil =>
      obtain rfl := Except.ok.inj recorded
      exact endsBy
  | cons instr code ih =>
      rw [Instr.codeSize_cons, ← Nat.add_assoc]
      unfold recordLines at recorded
      split at recorded
      · rename_i pos cue
        obtain ⟨longer, first, rest⟩ := bind_eq_ok_iff.mp recorded
        obtain ⟨other, same, longerEnds, -⟩ := endsBy.record pos
        obtain rfl := Except.ok.inj (first.symm.trans same)
        exact ih rest (longerEnds.mono (Nat.le_add_right _ _))
      · exact ih recorded (endsBy.mono (Nat.le_add_right _ _))

/-- Lines may be recorded on their own and then moved up behind a table, or
behind that table in the first place. -/
theorem recordAll_of_recordLines {base moved : LineTable} {shift : Nat}
    (recorded : recordLines table position code = .ok lines)
    (start : base.recordAll shift table.rows = (.ok (), moved))
    (endsBy : moved.EndsBy (shift + position))
    (small : shift + position + Instr.codeSize code < positionLimit) :
    ∃ further, recordLines moved (shift + position) code = .ok further ∧
      base.recordAll shift lines.rows = (.ok (), further) := by
  induction code generalizing table position moved with
  | nil =>
      obtain rfl := Except.ok.inj recorded
      exact ⟨moved, rfl, start⟩
  | cons instr code ih =>
      rw [Instr.codeSize_cons] at small
      unfold recordLines at recorded ⊢
      split at recorded
      · rename_i pos cue
        obtain ⟨longer, first, rest⟩ := bind_eq_ok_iff.mp recorded
        obtain ⟨further, done, furtherEnds, -⟩ := endsBy.record pos
        have onward : base.recordAll shift longer.rows = (.ok (), further) :=
          recordAll_of_record first start (by omega) done
        have later := ih rest onward (furtherEnds.mono (by omega)) (by omega)
        rw [← Nat.add_assoc] at later
        obtain ⟨last, recordedAll, moved⟩ := later
        exact ⟨last, bind_eq_ok_iff.mpr ⟨further, done, recordedAll⟩, moved⟩
      · have later := ih recorded start (endsBy.mono (by omega)) (by omega)
        simpa only [Nat.add_assoc] using later

theorem collected_append (front back : List Instr) :
    collected (front ++ back) = collected front ++ collected back := by
  simp [collected]

end Layout

/-! ## Refused rows -/

namespace LineTable

variable {table : LineTable} {shift : Nat} {rows : List LineRow}

/-- All rows of a table stand at positions that a word can hold. -/
def InWords (table : LineTable) : Prop :=
  ∀ row ∈ table.rows, row.position < positionLimit

/-- Rows that are moved up stay at positions that a word can hold. -/
def Movable (shift : Nat) (rows : List LineRow) : Prop :=
  ∀ row ∈ rows, shift + row.position < positionLimit

/-- A table ends behind the position to which the first of some rows is to be
moved up. -/
def Overlaps (table : LineTable) (shift : Nat) (rows : List LineRow) : Prop :=
  ∃ row last, rows.head? = some row ∧ table.rows.getLast? = some last ∧
    shift + row.position < last.position

/-- A table takes rows with increasing positions if it ends no later than the
first of them and all of them can be moved. -/
theorem exists_recordAll
    (increasing : rows.Pairwise (·.position < ·.position))
    (apart : ¬table.Overlaps shift rows) (movable : Movable shift rows) :
    ∃ longer, table.recordAll shift rows = (.ok (), longer) := by
  induction rows generalizing table with
  | nil => exact ⟨table, rfl⟩
  | cons row rows ih =>
      obtain ⟨kept, first, -⟩ := exists_record
        (fun last found => Nat.le_of_not_lt fun behind =>
          apart ⟨row, last, rfl, found, behind⟩) row.source
      rw [← recordMoved_of_fits (movable row (by simp))] at first
      obtain ⟨before, rest⟩ := List.pairwise_cons.mp increasing
      -- The row just recorded is the last one, and the next comes after it.
      have onward : ¬Overlaps ⟨kept ++ [⟨shift + row.position, row.source⟩]⟩
          shift rows := by
        rintro ⟨next, last, head, found, behind⟩
        obtain rfl := Option.some.inj (List.getLast?_concat.symm.trans found)
        have less := before next (List.mem_of_head? head)
        exact absurd behind (by simp only; omega)
      obtain ⟨longer, done⟩ := ih rest onward
        fun next member => movable next (List.mem_cons_of_mem row member)
      exact ⟨longer, recordAll_cons_eq_ok_iff.mpr ⟨_, first, done⟩⟩

/-- A table that ends behind a position refuses a record there. -/
theorem record_of_last_behind {last : LineRow} {position : Nat}
    (found : table.rows.getLast? = some last)
    (behind : position < last.position) (source : SourcePos) :
    table.record position source = .error .positionDecreases := by
  have apart : last.position ≠ position := by omega
  have notBefore : ¬last.position < position := by omega
  simp [record, found, apart, notBefore]

/-- Rows that overlap a table are refused before one of them is recorded. -/
theorem Overlaps.refuses (overlaps : table.Overlaps shift rows)
    (inWords : table.InWords) :
    table.recordAll shift rows = (.error .positionDecreases, table) := by
  obtain ⟨row, last, head, found, behind⟩ := overlaps
  obtain ⟨rest, rfl⟩ := List.head?_eq_some_iff.mp head
  have small := inWords last (List.mem_of_getLast? found)
  have refused := record_of_last_behind found behind row.source
  rw [← recordMoved_of_fits (by omega)] at refused
  rw [recordAll, refused]

/-- Of rows that cannot all be moved, those before the first one that cannot
are recorded. -/
theorem recordAll_of_not_movable
    (increasing : rows.Pairwise (·.position < ·.position))
    (apart : ¬table.Overlaps shift rows) (stuck : ¬Movable shift rows) :
    ∃ front row back longer, rows = front ++ row :: back ∧
      positionLimit ≤ shift + row.position ∧
      table.recordAll shift front = (.ok (), longer) ∧
      table.recordAll shift rows = (.error .overflow, longer) := by
  obtain ⟨row, front, back, tooFar, rfl, movable⟩ :
      ∃ row front back, positionLimit ≤ shift + row.position ∧
        rows = front ++ row :: back ∧ Movable shift front := by
    have found : (rows.find? fun row =>
        positionLimit ≤ shift + row.position).isSome := by
      simpa [Movable] using stuck
    obtain ⟨row, found⟩ := Option.isSome_iff_exists.mp found
    obtain ⟨tooFar, front, back, rows, before⟩ :=
      List.find?_eq_some_iff_append.mp found
    exact ⟨row, front, back, of_decide_eq_true tooFar, rows,
      fun row member => by simpa using before row member⟩
  have frontApart : ¬table.Overlaps shift front := by
    rintro ⟨row, last, head, rest⟩
    exact apart ⟨row, last, by simp [List.head?_append, head], rest⟩
  obtain ⟨longer, recorded⟩ := exists_recordAll
    (List.pairwise_append.mp increasing).1 frontApart movable
  refine ⟨front, row, back, longer, rfl, tooFar, recorded, ?_⟩
  rw [recordAll_append recorded, recordAll, recordMoved_of_tooFar tooFar]

end LineTable

namespace Routine

open Layout LineTable

/-! ## The joining -/

section Absorbing

variable {routine other : Routine} {lines : LineTable}

/-- The routine that a joining leaves, given its line table. -/
def joinedWith (routine other : Routine) (lines : LineTable) : Routine :=
  let joined := routine.pushAll other.instrs
  { joined with
    lines
    temporaries := joined.temporaries.insertAll other.temporaries.toList }

theorem absorb_of_recordAll (small : routine.codeSize < positionLimit)
    (recorded : routine.lines.recordAll routine.codeSize other.lines.rows =
      (.ok (), lines)) :
    routine.absorb other = (.ok (), joinedWith routine other lines, {}) := by
  simp only [absorb, wordPosition, small, ↓reduceIte, recorded]
  rfl

theorem absorb_of_refused {fault : Fault}
    (small : routine.codeSize < positionLimit)
    (refused : routine.lines.recordAll routine.codeSize other.lines.rows =
      (.error fault, lines)) :
    routine.absorb other = (.error fault, { routine with lines }, other) := by
  simp only [absorb, wordPosition, small, ↓reduceIte, refused]

theorem instrs_joinedWith (routine other : Routine) (lines : LineTable) :
    (joinedWith routine other lines).instrs =
      routine.instrs ++ other.instrs :=
  instrs_pushAll routine other.instrs

theorem temporaries_joinedWith (routine other : Routine) (lines : LineTable) :
    (joinedWith routine other lines).temporaries =
      routine.temporaries.insertAll other.temporaries.toList := rfl

/-- The routine that an extraction leaves, given its line table. -/
def collectedWith (routine : Routine) (lines : LineTable) : Routine :=
  { (routine.retain fun entry => !vanishes entry.instr).mapInstrs settleLine
    with lines }

theorem collectLines_of_recordLines
    (recorded : recordLines {} 0 routine.instrs = .ok lines) :
    routine.collectLines =
      .ok (routine.instrs.countP isLine, collectedWith routine lines) := by
  rw [collectLines, recorded]
  rfl

theorem instrs_collectedWith (routine : Routine) (lines : LineTable) :
    (collectedWith routine lines).instrs = collected routine.instrs :=
  map_instr_collectedEntries routine.entries

theorem codeSize_collectedWith (routine : Routine) (lines : LineTable) :
    (collectedWith routine lines).codeSize = routine.codeSize := by
  rw [codeSize, instrs_collectedWith, codeSize_collected, codeSize]

end Absorbing

/-! ## Extraction commutes with joining -/

def collectThenAbsorb (first second : Routine) : Except Fault Routine := do
  let (_, first) ← first.collectLines
  let (_, second) ← second.collectLines
  let (outcome, joined, _) := first.absorb second
  outcome
  return joined

def absorbThenCollect (first second : Routine) : Except Fault Routine := do
  let (outcome, joined, _) := first.absorb second
  outcome
  let (_, left) ← joined.collectLines
  return left

/-- The lines of joined code are those of the first part with those of the
second one moved up behind it. -/
theorem exists_recordAll_of_recordLines {front back : List Instr}
    (small : Instr.codeSize front + Instr.codeSize back < positionLimit) :
    ∃ early late lines, recordLines {} 0 front = .ok early ∧
      recordLines {} 0 back = .ok late ∧
      recordLines {} 0 (front ++ back) = .ok lines ∧
      early.recordAll (Instr.codeSize front) late.rows = (.ok (), lines) ∧
      lines.EndsBy (Instr.codeSize front + Instr.codeSize back) := by
  have empty : EndsBy {} 0 := by simp [EndsBy]
  obtain ⟨early, earlyRecorded, -⟩ := exists_lookup?_recordLines empty front
  obtain ⟨late, lateRecorded, -⟩ := exists_lookup?_recordLines empty back
  have earlyEnds := endsBy_recordLines earlyRecorded empty
  rw [Nat.zero_add] at earlyEnds
  obtain ⟨lines, recorded, moved⟩ :=
    @recordAll_of_recordLines _ _ 0 _ early _ (Instr.codeSize front)
      lateRecorded rfl earlyEnds small
  refine ⟨early, late, lines, earlyRecorded, lateRecorded, ?_, moved, ?_⟩
  · rw [recordLines_append, earlyRecorded, Nat.zero_add]
    exact recorded
  · exact endsBy_recordLines recorded earlyEnds

section BothOrders

variable {first second : Routine} {early late lines : LineTable}

theorem collectThenAbsorb_of_recordLines
    (small : first.codeSize < positionLimit)
    (earlyRecorded : recordLines {} 0 first.instrs = .ok early)
    (lateRecorded : recordLines {} 0 second.instrs = .ok late)
    (moved : early.recordAll first.codeSize late.rows = (.ok (), lines)) :
    collectThenAbsorb first second =
      .ok (joinedWith (collectedWith first early) (collectedWith second late)
        lines) := by
  rw [← codeSize_collectedWith first early] at moved small
  have joined := @absorb_of_recordAll _ (collectedWith second late) _ small
    moved
  refine bind_eq_ok_iff.mpr ⟨_, collectLines_of_recordLines earlyRecorded, ?_⟩
  refine bind_eq_ok_iff.mpr ⟨_, collectLines_of_recordLines lateRecorded, ?_⟩
  simp only [joined]
  rfl

theorem absorbThenCollect_of_recordLines
    (small : first.codeSize < positionLimit)
    (empty : second.lines.rows = [])
    (recorded : recordLines {} 0 (first.instrs ++ second.instrs) =
      .ok lines) :
    absorbThenCollect first second =
      .ok (collectedWith (joinedWith first second first.lines) lines) := by
  have joined : first.absorb second =
      (.ok (), joinedWith first second first.lines, {}) := by
    apply absorb_of_recordAll small
    rw [empty]
    rfl
  rw [← instrs_joinedWith first second first.lines] at recorded
  simp only [absorbThenCollect, joined]
  refine bind_eq_ok_iff.mpr ⟨(), rfl, ?_⟩
  exact bind_eq_ok_iff.mpr ⟨_, collectLines_of_recordLines recorded, rfl⟩

end BothOrders

/-- A line behind a push. -/
def trailing : Routine := ofList [.push 1, .line ⟨3, 0⟩ false]

/-- A line in front of a return. -/
def leading : Routine := ofList [.line ⟨4, 0⟩ false, .ret 0]

/-- A routine of one push whose line table has outlived its code. -/
def outlived (positions : List Nat) : Routine :=
  { ofList [.push 1] with
    lines := ⟨positions.map fun position => ⟨position, ⟨1, 0⟩⟩⟩ }

end Routine

end StackAssembler
