import StackAssembler.Artifact.Basic
import StackAssembler.Varint

/-!
# Artifacts as bytes

An artifact is written as its code, its stack depth, its line table and its
entry points.  Everything is a variable-length number, and a list starts with
its length.  Diagnostics are not written.
-/

namespace StackAssembler

namespace Artifact

def writeNumbers (numbers : List Nat) : List UInt8 :=
  Varint.write numbers.length ++ numbers.flatMap Varint.write

def writeRow (row : LineRow) : List UInt8 :=
  Varint.write row.position ++ Varint.write row.source.line.toNat ++
    Varint.write row.source.column.toNat

def toBytes (artifact : Artifact) : List UInt8 :=
  writeNumbers (artifact.code.map (·.toNat)) ++
    Varint.write artifact.maxDepth ++
    (Varint.write artifact.lines.rows.length ++
      artifact.lines.rows.flatMap writeRow) ++
    writeNumbers artifact.jitEntries

def readWord : Reader Nat := Varint.read Varint.word

def readRow : Reader LineRow := do
  let position ← readWord
  let line ← readWord
  let column ← readWord
  return ⟨position, line.toUInt32, column.toUInt32⟩

/-- Read an artifact, which comes without diagnostics. -/
def reader : Reader Artifact := do
  let code ← Reader.counted readWord
  let maxDepth ← readWord
  let rows ← Reader.counted readRow
  let jitEntries ← Reader.counted readWord
  return { code := code.map (·.toUInt32), maxDepth, lines := ⟨rows⟩, jitEntries }

/-- Read an artifact from the front of some bytes.  What follows it is
ignored. -/
def ofBytes (bytes : List UInt8) : Except ReadError Artifact :=
  (reader.run bytes).map (·.1)

end Artifact

end StackAssembler
