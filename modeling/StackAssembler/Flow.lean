import StackAssembler.Defect
import StackAssembler.Instr.Shape

/-!
# Control flow

Places in a run of instructions are indices, and code positions count the code
units before an index.  This file finds the place that a label marks and the
place that starts at a code position, and from them the places at which an
instruction may continue.
-/

namespace StackAssembler

namespace Flow

/-- The first element that already occurred. -/
def firstRepeat? {α : Type} [DecidableEq α] (seen : List α) :
    List α → Option α
  | [] => none
  | item :: rest =>
      if item ∈ seen then some item else firstRepeat? (item :: seen) rest

def labels (code : List Instr) : List Label :=
  code.filterMap Instr.marks?

def repeatedLabel? (code : List Instr) : Option Label :=
  firstRepeat? [] (labels code)

def labelIndex? (code : List Instr) (label : Label) : Option Nat :=
  code.findIdx? (·.marks? = some label)

/-- The code position of an index.  It fits a word if the size of the code
does. -/
def position (code : List Instr) (index : Nat) : Nat :=
  Instr.codeSize (code.take index)

/-- The first index that stands at a code position. -/
def indexAt? : List Instr → Nat → Option Nat
  | [], _ => none
  | instr :: rest, target =>
      if target = 0 then some 0
      else if target < instr.size then none
      else (indexAt? rest (target - instr.size)).map (· + 1)

/-- The index at which a jump or branch at an index continues. -/
def destination (code : List Instr) (index : Nat) (instr : Instr) :
    Target → Except Defect Nat
  | .label label =>
      match labelIndex? code label with
      | some found => .ok found
      | none => .error (.danglingLabel label)
  | .offset distance =>
      let target := position code index + instr.size + distance.toInt
      if 0 ≤ target ∧ target < positionLimit then
        match indexAt? code target.toNat with
        | some found => .ok found
        | none => .error (.jumpOutOfRange distance.toInt)
      else .error (.jumpOutOfRange distance.toInt)

/-- The indices at which the instruction at an index may continue.  A branch
has its destination first, then its successor; a jump table has the
instructions after it, in order.  The index past the end stands for the end of
the code. -/
def successors (code : List Instr) (index : Nat) (instr : Instr) :
    Except Defect (List Nat) :=
  match instr with
  | .jump target => do
      let found ← destination code index instr target
      return [found]
  | .branch _ target => do
      let found ← destination code index instr target
      return [found, index + 1]
  | .jumpPtr _ fanOut =>
      let available := code.length - (index + 1)
      if fanOut.toNat ≤ available then
        .ok (List.range' (index + 1) fanOut.toNat)
      else .error (.fanOutExceeded fanOut.toNat available)
  | .ret _ => .ok []
  | _ => .ok [index + 1]

end Flow

end StackAssembler
