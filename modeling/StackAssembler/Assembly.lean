import StackAssembler.Artifact.Basic
import StackAssembler.Encoding
import StackAssembler.Layout
import StackAssembler.StackDepth
import StackAssembler.Window.Scan

/-!
# Assembly

A routine is assembled in steps: its line markers are set to be cues or not,
its stack depths are measured, its code is tightened, entry points are dropped
if they are not wanted, jumps get their distances, line markers go to the line
table, and the rest is encoded.  The first failure ends the assembly and leaves
the routine as the step before left it.
-/

namespace StackAssembler

/-- What an assembly does on the way. -/
structure Options where
  /-- Tighten the code. -/
  optimize : Bool := true
  /-- Line markers are cues, which become suspend points. -/
  lineCues : Bool := true
  /-- Keep the entry points of compiled code. -/
  jitEntries : Bool := false
  deriving DecidableEq

def Options.describe (options : Options) : String :=
  "FinalizeOptions \x7b optimize: " ++ toString options.optimize ++
    ", line_cues: " ++ toString options.lineCues ++
    ", include_jit_entries: " ++ toString options.jitEntries ++ " \x7d"

namespace Routine

/-- Set every line marker to be a cue or not. -/
def setCues (routine : Routine) (cue : Bool) : Routine :=
  routine.mapInstrs (·.withCue cue)

/-- Tighten the code if that is wanted, and drop the entry points if they are
not. -/
def reduce (routine : Routine) (options : Options) :
    Except Defect Routine := do
  let tightened ←
    if options.optimize then
      (routine.tighten options.jitEntries).map (·.2)
    else .ok routine
  return if options.jitEntries then tightened else tightened.dropJitEntries

/-- Lay out and encode a routine whose depths are known. -/
def finish (routine : Routine) (analysis : StackDepth.Analysis) :
    Except Failure Artifact × Routine :=
  match routine.resolveJumps with
  | .error defect => (.error (.defect defect), routine)
  | .ok (_, resolved) =>
      match resolved.collectLines with
      | .error fault => (.error (.fault fault), resolved)
      | .ok (_, collected) =>
          match Instr.encode collected.instrs with
          | .error defect => (.error (.defect defect), collected)
          | .ok encoded =>
              (.ok
                { code := encoded.code
                  maxDepth := analysis.maxDepth
                  lines := collected.lines
                  jitEntries := encoded.jitEntries
                  diagnostics := analysis.diagnostics },
                collected)

/-- Assemble a routine.  The routine is left as the last step left it. -/
def assemble (routine : Routine) (options : Options) :
    Except Failure Artifact × Routine :=
  match (routine.setCues options.lineCues).measureDepths with
  | (.error failure, measured) => (.error failure, measured)
  | (.ok analysis, measured) =>
      match measured.reduce options with
      | .error defect => (.error (.defect defect), measured)
      | .ok reduced => reduced.finish analysis

end Routine

end StackAssembler
