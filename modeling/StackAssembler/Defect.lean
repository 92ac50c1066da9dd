import StackAssembler.Diagnostic
import StackAssembler.Location

/-!
# Defects

What can be wrong with a routine.  Each defect has a fixed code and a message
that quotes the instruction, label or numbers at fault.
-/

namespace StackAssembler

/-- A reason why a routine cannot be assembled. -/
inductive Defect where
  /-- Two paths reach an instruction with different stack depths. -/
  | depthMismatch (quoted : String) (recorded incoming : Int)
  /-- An instruction takes more from the stack than there is. -/
  | underflow (quoted : String) (depth : Int)
  /-- A jump names a label that marks nothing. -/
  | danglingLabel (label : Label)
  /-- A jump by a distance ends where no instruction starts. -/
  | jumpOutOfRange (distance : Int)
  /-- A label marks two places. -/
  | duplicateLabel (label : Label)
  /-- A jump table is longer than the code after it. -/
  | fanOutExceeded (declared available : Nat)
  /-- A jump still names its label when it is encoded. -/
  | unresolvedJump (label : Label)
  /-- A line marker is left when the code is encoded. -/
  | unexpectedMarker (quoted : String)
  /-- The encoded code has another size than its instructions declare. -/
  | sizeMismatch (encoded declared : Nat)
  /-- A stack-relative address means a slot that no frame has. -/
  | frameSlotOutOfRange (distance depth : Int)
  deriving DecidableEq

namespace Defect

def name : Defect → String
  | depthMismatch .. => "StackDepthMismatch"
  | underflow .. => "StackUnderflow"
  | danglingLabel _ => "DanglingLabel"
  | jumpOutOfRange _ => "JumpOutOfRange"
  | duplicateLabel _ => "DuplicateLabel"
  | fanOutExceeded .. => "FanOutExceeded"
  | unresolvedJump _ => "UnresolvedJump"
  | unexpectedMarker _ => "UnexpectedMarker"
  | sizeMismatch .. => "SizeMismatch"
  | frameSlotOutOfRange .. => "FrameSlotOutOfRange"

def code : Defect → String
  | depthMismatch .. => "F001"
  | underflow .. => "F002"
  | danglingLabel _ => "F003"
  | jumpOutOfRange _ => "F004"
  | duplicateLabel _ => "F005"
  | fanOutExceeded .. => "F006"
  | unresolvedJump _ => "F007"
  | unexpectedMarker _ => "F008"
  | sizeMismatch .. => "F009"
  | frameSlotOutOfRange .. => "F010"

def message : Defect → String
  | depthMismatch quoted recorded incoming =>
      s!"stack depth mismatch at `{quoted}`: recorded {recorded}, " ++
        s!"incoming {incoming}"
  | underflow quoted depth =>
      s!"stack underflow after `{quoted}` (depth {depth})"
  | danglingLabel label =>
      s!"jump to label {label.text}, which is not in the instruction list"
  | jumpOutOfRange distance =>
      s!"relative jump by {distance} does not land on an instruction"
  | duplicateLabel label =>
      s!"label {label.text} is defined more than once"
  | fanOutExceeded declared available =>
      s!"computed jump declares {declared} targets but only {available} " ++
        "instructions follow"
  | unresolvedJump label =>
      s!"jump to label {label.text} reached the encoder unresolved"
  | unexpectedMarker quoted => s!"marker `{quoted}` reached the encoder"
  | sizeMismatch encoded declared =>
      s!"encoded {encoded} code units, instructions declare {declared}"
  | frameSlotOutOfRange distance depth =>
      s!"stack slot sp{Text.signed distance} at depth {depth} is outside " ++
        "the frame"

def diagnostic (defect : Defect) : Diagnostic where
  severity := .error
  message := defect.message
  code := some defect.code

end Defect

end StackAssembler
