import StackAssembler.Instr.Text
import StackAssembler.Routine.Basic

/-!
# Listings

The text of a routine for a reader: its temporaries, its stack depth, and one
line for each instruction with its code position and, where it is known, the
stack depth before it.
-/

namespace StackAssembler

/-- One line of a listing.  A label stands alone, without a position. -/
def Entry.listingLine (position : Nat) (entry : Entry) : String :=
  match entry.instr with
  | .label name => "          " ++ name.text ++ ":\n"
  | instr =>
      let depth :=
        match entry.depth with
        | some depth => " " ++ Text.alignRight 3 (toString depth) ++ " "
        | none => "   - "
      Text.alignRight 5 (toString position) ++ depth ++ "  " ++ instr.text ++
        "\n"

namespace Routine

/-- The lines of a listing from a code position on. -/
def listingFrom : Nat → List Entry → String
  | _, [] => ""
  | position, entry :: rest =>
      entry.listingLine position ++
        listingFrom (position + entry.instr.size) rest

def listing (routine : Routine) : String :=
  "temporaries: " ++ routine.temporaries.text ++ "\n" ++
    "max_stack_depth: " ++ toString routine.maxDepth ++ "\n" ++
    listingFrom 0 routine.entries

def describe (routine : Routine) : String :=
  Text.bracketed (routine.instrs.map Instr.describe)

end Routine

end StackAssembler
