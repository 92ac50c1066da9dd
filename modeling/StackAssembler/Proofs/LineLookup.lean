import StackAssembler.Layout
import StackAssembler.Proofs.JumpResolution
import Mathlib.Data.List.Basic
import Mathlib.Data.List.TakeWhile

/-!
# What a line table answers

A row that is recorded behind all rows of a table answers from its position on,
and the table answers as before in front of it.  So the table that is collected
from code answers at a code position with the last line marker that stands no
later.  At an instruction that takes up code, this is the last marker in front
of it.
-/

namespace StackAssembler

def Instr.source? : Instr → Option SourcePos
  | line pos _ => some pos
  | _ => none

theorem Instr.source?_eq_none {instr : Instr}
    (unlike : ∀ pos cue, instr = .line pos cue → False) :
    instr.source? = none := by
  cases instr with
  | line pos cue => exact (unlike pos cue rfl).elim
  | _ => rfl

namespace LineTable

variable {table : LineTable} {position : Nat}

/-- No row of a table starts behind a position. -/
def EndsBy (table : LineTable) (position : Nat) : Prop :=
  ∀ row ∈ table.rows, row.position ≤ position

theorem EndsBy.mono (endsBy : table.EndsBy position) {later : Nat}
    (after : position ≤ later) : table.EndsBy later := by
  intro row member
  exact Nat.le_trans (endsBy row member) after

theorem lookup?_concat {rows : List LineRow} {row : LineRow}
    (endsBy : EndsBy ⟨rows⟩ row.position) (limit : Nat) :
    lookup? ⟨rows ++ [row]⟩ limit =
      if row.position ≤ limit then some row.source
      else lookup? ⟨rows⟩ limit := by
  by_cases reached : row.position ≤ limit
  · have all : (rows ++ [row]).takeWhile (·.position ≤ limit) =
        rows ++ [row] := by
      rw [List.takeWhile_eq_self_iff]
      intro other member
      rcases List.mem_append.mp member with inside | last
      · simpa using Nat.le_trans (endsBy other inside) reached
      · rw [List.mem_singleton.mp last]
        simpa using reached
    rw [lookup?, all, if_pos reached]
    simp
  · have same : (rows ++ [row]).takeWhile (·.position ≤ limit) =
        rows.takeWhile (·.position ≤ limit) := by
      rw [List.takeWhile_append]
      split
      · rename_i whole
        have kept := (List.takeWhile_prefix _).eq_of_length whole
        simp [reached, kept]
      · rfl
    rw [lookup?, same, if_neg reached, lookup?]

/-- A table that ends no later than a position takes a row there, behind all its
rows or in the place of the last one. -/
theorem exists_record (behind : ∀ last, table.rows.getLast? = some last →
      last.position ≤ position) (source : SourcePos) :
    ∃ kept, table.record position source =
        .ok ⟨kept ++ [⟨position, source⟩]⟩ ∧
      (kept = table.rows ∨
        ∃ last, table.rows = kept ++ [last] ∧ last.position = position) := by
  obtain ⟨rows⟩ := table
  rcases List.eq_nil_or_concat' rows with rfl | ⟨kept, last, rfl⟩
  · exact ⟨[], rfl, .inl rfl⟩
  · have before := behind last (by simp)
    by_cases same : last.position = position
    · exact ⟨kept, by simp [record, same], .inr ⟨last, rfl, same⟩⟩
    · have less : last.position < position := by omega
      exact ⟨kept ++ [last], by simp [record, same, less], .inl rfl⟩

theorem EndsBy.record (endsBy : table.EndsBy position) (source : SourcePos) :
    ∃ longer, table.record position source = .ok longer ∧
      longer.EndsBy position ∧
      ∀ limit, longer.lookup? limit =
        if position ≤ limit then some source else table.lookup? limit := by
  obtain ⟨kept, recorded, rows⟩ := exists_record
    (fun last found => endsBy last (List.mem_of_getLast? found)) source
  have within : EndsBy ⟨kept⟩ position := by
    intro row member
    apply endsBy
    rcases rows with rfl | ⟨last, rows, -⟩
    · exact member
    · simp [rows, member]
  refine ⟨_, recorded, ?_, fun limit => ?_⟩
  · intro row member
    rcases List.mem_append.mp member with inside | last
    · exact within row inside
    · rw [List.mem_singleton.mp last]
  · rw [lookup?_concat within]
    obtain ⟨all⟩ := table
    rcases rows with rfl | ⟨last, rfl, same⟩
    · rfl
    -- The last row was replaced, and answered from the same position on.
    · rw [lookup?_concat (same ▸ within), same]
      split <;> rfl

end LineTable

namespace Layout

open LineTable

def lastLine? (code : List Instr) : Option SourcePos :=
  (code.filterMap Instr.source?).getLast?

@[simp]
theorem lastLine?_nil : lastLine? [] = none := rfl

theorem lastLine?_append (first second : List Instr) :
    lastLine? (first ++ second) = (lastLine? second).or (lastLine? first) := by
  simp [lastLine?]

@[simp]
theorem lastLine?_cons (instr : Instr) (code : List Instr) :
    lastLine? (instr :: code) = (lastLine? code).or instr.source? := by
  have single : lastLine? [instr] = instr.source? := by
    cases source : instr.source? <;> simp [lastLine?, source]
  rw [← List.singleton_append, lastLine?_append, single]

/-- The source position of the last line marker that stands no later than a
limit, in code from a position on. -/
def lineBy? (limit : Nat) : Nat → List Instr → Option SourcePos
  | _, [] => none
  | position, instr :: code =>
      (lineBy? limit (position + instr.size) code).or
        (if position ≤ limit then instr.source? else none)

theorem lineBy?_of_lt {limit position : Nat} (behind : limit < position)
    (code : List Instr) : lineBy? limit position code = none := by
  induction code generalizing position with
  | nil => rfl
  | cons instr code ih =>
      have later : limit < position + instr.size := by omega
      rw [lineBy?, ih later, if_neg (by omega)]
      rfl

theorem lineBy?_append {limit position : Nat} {front : List Instr}
    (reached : position + Instr.codeSize front ≤ limit) (back : List Instr) :
    lineBy? limit position (front ++ back) =
      (lineBy? limit (position + Instr.codeSize front) back).or
        (lastLine? front) := by
  induction front generalizing position with
  | nil => simp
  | cons instr front ih =>
      rw [Instr.codeSize_cons, ← Nat.add_assoc] at reached ⊢
      have here : position ≤ limit := by omega
      rw [List.cons_append, lineBy?, ih reached, if_pos here, lastLine?_cons,
        Option.or_assoc]

/-- At an instruction that takes up code and is no line, the last marker in
front of it counts. -/
theorem lineBy?_middle {front back : List Instr} {instr : Instr}
    (noLine : instr.source? = none) (sized : instr.size ≠ 0) :
    lineBy? (Instr.codeSize front) 0 (front ++ instr :: back) =
      lastLine? front := by
  have behind : Instr.codeSize front <
      0 + Instr.codeSize front + instr.size := by omega
  rw [lineBy?_append (by omega), lineBy?, lineBy?_of_lt behind, noLine]
  simp

theorem isLine_iff {instr : Instr} :
    isLine instr = true ↔ ∃ pos cue, instr = .line pos cue := by
  cases instr <;> simp [isLine]

theorem recordLines_cons_of_noLine {instr : Instr}
    (noLine : isLine instr = false) (table : LineTable) (position : Nat)
    (code : List Instr) :
    recordLines table position (instr :: code) =
      recordLines table (position + instr.size) code := by
  cases instr with
  | line => cases noLine
  | _ => rfl

theorem recordLines_append (table : LineTable) (position : Nat)
    (front back : List Instr) :
    recordLines table position (front ++ back) =
      (recordLines table position front >>= fun longer =>
        recordLines longer (position + Instr.codeSize front) back) := by
  induction front generalizing table position with
  | nil => rfl
  | cons instr front ih =>
      rw [List.cons_append, Instr.codeSize_cons, ← Nat.add_assoc]
      cases line : isLine instr with
      | false =>
          rw [recordLines_cons_of_noLine line, recordLines_cons_of_noLine line,
            ih]
      | true =>
          obtain ⟨pos, cue, rfl⟩ := isLine_iff.mp line
          simp only [recordLines, ih, bind_assoc]

/-- Recorded code answers with its own lines, and as before in front of
them. -/
theorem exists_lookup?_recordLines {table : LineTable} {position : Nat}
    (endsBy : table.EndsBy position) (code : List Instr) :
    ∃ lines, recordLines table position code = .ok lines ∧
      ∀ limit, lines.lookup? limit =
        (lineBy? limit position code).or (table.lookup? limit) := by
  induction code generalizing table position with
  | nil => exact ⟨table, rfl, fun _ => rfl⟩
  | cons instr code ih =>
      unfold recordLines
      split
      · rename_i pos cue
        obtain ⟨longer, recorded, longerEnds, answers⟩ := endsBy.record pos
        obtain ⟨lines, done, lookups⟩ := ih
          (longerEnds.mono (Nat.le_add_right position
            (Instr.line pos cue).size))
        refine ⟨lines, bind_eq_ok_iff.mpr ⟨longer, recorded, done⟩, ?_⟩
        intro limit
        rw [lookups, answers, lineBy?, Instr.source?, Option.or_assoc]
        split <;> rfl
      · rename_i unlike
        obtain ⟨lines, done, lookups⟩ := ih
          (endsBy.mono (Nat.le_add_right position instr.size))
        refine ⟨lines, done, ?_⟩
        intro limit
        rw [lookups, lineBy?, Instr.source?_eq_none unlike]
        simp

end Layout

end StackAssembler
