import StackAssembler.Diagnostic
import StackAssembler.LineTable

/-!
# Artifacts

The result of an assembly: the encoded code with what is needed to run it and
to find its way back to the source text, and the notes made on the way.
-/

namespace StackAssembler

/-- The result of an assembly. -/
structure Artifact where
  code : List UInt32
  maxDepth : Nat
  lines : LineTable
  jitEntries : List Nat
  diagnostics : List Diagnostic := []
  deriving DecidableEq

namespace Artifact

def dumpLines (table : LineTable) : String :=
  match table.rows with
  | [] => "  line_table: []\n"
  | rows =>
      "  line_table: [\n" ++
        String.join (rows.map fun row =>
          "    " ++ Text.alignRight 4 (toString row.position) ++ " => " ++
            row.source.text ++ "\n") ++
        "  ]\n"

/-- The lines of the code in a dump, from a position on.  Entry points carry a
star. -/
def dumpCode (jitEntries : List Nat) : Nat → List UInt32 → String
  | _, [] => ""
  | position, unit :: rest =>
      "    " ++ Text.alignRight 4 (toString position) ++
        (if position ∈ jitEntries then "*" else " ") ++ " " ++
        Text.hexUnit unit.toNat ++ "\n" ++
        dumpCode jitEntries (position + 1) rest

def dump (artifact : Artifact) : String :=
  "FinalizedCode \x7b\n" ++
    "  max_stack_depth: " ++ toString artifact.maxDepth ++ "\n" ++
    "  jit_entries: " ++
    Text.bracketed (artifact.jitEntries.map toString) ++ "\n" ++
    dumpLines artifact.lines ++ "  code:\n" ++
    dumpCode artifact.jitEntries 0 artifact.code ++ "\x7d"

end Artifact

end StackAssembler
