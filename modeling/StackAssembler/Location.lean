import StackAssembler.Text

/-!
# Places in a routine

The names that instructions use for places: slots of the frame, globals,
labels, the targets of jumps, and positions in the source text.
-/

namespace StackAssembler

/-- A slot of the frame.  Parameters have negative slots, locals positive
ones. -/
abbrev Slot := Int16

/-- The slot of a number, if there is such a slot. -/
def Slot.ofInt? (value : Int) : Option Slot :=
  if -32768 ≤ value ∧ value < 32768 then some (Int16.ofInt value) else none

/-- The index of a global variable. -/
abbrev Global := UInt16

/-- The name of a jump destination inside one routine. -/
structure Label where
  id : UInt32
  deriving DecidableEq

def Label.text (label : Label) : String :=
  "L" ++ toString label.id

def Label.describe (label : Label) : String :=
  "LabelId(" ++ toString label.id ++ ")"

/-- Where a jump goes: to a label, or over a signed number of code units
counted from the end of the jump. -/
inductive Target where
  | label (name : Label)
  | offset (distance : Int32)
  deriving DecidableEq

namespace Target

def text : Target → String
  | label name => name.text
  | offset distance => Text.signed distance.toInt

def describe : Target → String
  | label name => "Label(" ++ name.describe ++ ")"
  | offset distance => "Offset(" ++ toString distance.toInt ++ ")"

/-- The label of a target that still names one. -/
def label? : Target → Option Label
  | label name => some name
  | offset _ => none

end Target

/-- One past the greatest code position: code positions are 32-bit words. -/
def positionLimit : Nat := 4294967296

/-- A position in the source text. -/
structure SourcePos where
  line : UInt32
  column : UInt32
  deriving DecidableEq

namespace SourcePos

/-- The position before the first line, used where none is known. -/
def unknown : SourcePos := ⟨0, 0⟩

def text (pos : SourcePos) : String :=
  toString pos.line ++ ":" ++ toString pos.column

def describe (pos : SourcePos) : String :=
  "SourcePos \x7b line: " ++ toString pos.line ++ ", column: " ++
    toString pos.column ++ " \x7d"

end SourcePos

end StackAssembler
