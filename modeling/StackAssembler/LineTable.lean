import StackAssembler.Location
import StackAssembler.Fault

/-!
# Line tables

A line table maps code positions to source positions.  Its rows are recorded
front to back: a row holds from its code position up to the next row.

Code positions are 32-bit words.  A table takes rows at any position; callers
keep below `positionLimit`, which is checked where rows are moved up.
-/

namespace StackAssembler

/-- A code position, if a word can hold it. -/
def wordPosition (position : Nat) : Except Fault Nat :=
  if position < positionLimit then .ok position else .error .overflow

/-- One row of a line table: from this code position on, the code belongs to
this source position. -/
structure LineRow where
  position : Nat
  source : SourcePos
  deriving DecidableEq

/-- The rows in the order in which they were recorded. -/
structure LineTable where
  rows : List LineRow := []
  deriving DecidableEq

namespace LineTable

/-- Record a source position.  At the position of the last row it replaces
that row; before it, the record is refused. -/
def record (table : LineTable) (position : Nat) (source : SourcePos) :
    Except Fault LineTable :=
  match table.rows.getLast? with
  | none => .ok ⟨[⟨position, source⟩]⟩
  | some last =>
      if last.position = position then
        .ok ⟨table.rows.dropLast ++ [⟨position, source⟩]⟩
      else if last.position < position then
        .ok ⟨table.rows ++ [⟨position, source⟩]⟩
      else .error .positionDecreases

def recordMoved (table : LineTable) (shift : Nat) (row : LineRow) :
    Except Fault LineTable := do
  table.record (← wordPosition (shift + row.position)) row.source

/-- Record rows in turn, moved up by a distance.  A row that is refused ends
this, and the rows before it stay recorded. -/
def recordAll (table : LineTable) (shift : Nat) :
    List LineRow → Except Fault Unit × LineTable
  | [] => (.ok (), table)
  | row :: rows =>
      match table.recordMoved shift row with
      | .ok longer => longer.recordAll shift rows
      | .error fault => (.error fault, table)

/-- The source position that holds at a code position: that of the last row
which starts no later. -/
def lookup? (table : LineTable) (position : Nat) : Option SourcePos :=
  (table.rows.takeWhile (·.position ≤ position)).getLast?.map (·.source)

end LineTable

end StackAssembler
