import StackAssembler.Artifact.Bytes
import Mathlib.Algebra.Group.Nat.Defs
import Mathlib.Logic.Basic

/-!
# Written artifacts delimit themselves

A reader recognizes bytes if it takes their value off the front of any longer
input and leaves the rest, and runs out of input in every proper part of them.
Variable-length numbers are recognized up to the width of their reader.
Recognition passes to readers that are run one after the other, hence to lists
and rows, and so to whole artifacts.
-/

namespace StackAssembler

namespace Reader

variable {α β : Type}

/-- A reader takes bytes for a value.  It leaves what follows them, and runs out
of input in every proper part of them. -/
structure Recognizes (reader : Reader α) (bytes : List UInt8) (value : α) :
    Prop where
  run_append : ∀ rest, reader.run (bytes ++ rest) = .ok (value, rest)
  run_short : ∀ short, short <+: bytes → short ≠ bytes →
    reader.run short = .error .unexpectedEnd

theorem recognizes_pure (value : α) :
    Recognizes (pure value : Reader α) [] value where
  run_append _ := rfl
  run_short _ front unequal := absurd (List.prefix_nil.mp front) unequal

/-- A reader that goes on behind a byte as another one does. -/
theorem Recognizes.cons {reader next : Reader α} {byte : UInt8}
    {bytes : List UInt8} {value : α} (others : next.Recognizes bytes value)
    (empty : reader.run [] = .error .unexpectedEnd)
    (onward : ∀ rest, reader.run (byte :: rest) = next.run rest) :
    reader.Recognizes (byte :: bytes) value where
  run_append rest := by
    rw [List.cons_append, onward]
    exact others.run_append rest
  run_short short front unequal := by
    rcases List.prefix_cons_iff.mp front with rfl | ⟨part, rfl, inside⟩
    · exact empty
    · rw [onward]
      refine others.run_short part inside ?_
      rintro rfl
      exact unequal rfl

theorem Recognizes.bind {reader : Reader α} {next : α → Reader β}
    {bytes others : List UInt8} {value : α} {result : β}
    (first : reader.Recognizes bytes value)
    (second : (next value).Recognizes others result) :
    Recognizes (reader >>= next) (bytes ++ others) result where
  run_append rest := by
    rw [List.append_assoc, StateT.run_bind, first.run_append]
    exact second.run_append rest
  run_short short front unequal := by
    rw [StateT.run_bind]
    have whole : bytes <+: bytes ++ others := List.prefix_append _ _
    -- The input ends within the first bytes or within the other ones.
    by_cases early : short <+: bytes ∧ short ≠ bytes
    · rw [first.run_short short early.1 early.2]
      rfl
    · obtain ⟨part, rfl⟩ : bytes <+: short := by
        rcases List.prefix_or_prefix_of_prefix front whole with before | after
        · exact not_and_not_right.mp early before ▸ List.prefix_rfl
        · exact after
      rw [first.run_append]
      have inside := (List.prefix_append_right_inj _).mp front
      refine second.run_short part inside ?_
      rintro rfl
      exact unequal rfl

theorem Recognizes.map {reader : Reader α} {bytes : List UInt8} {value : α}
    (recognized : reader.Recognizes bytes value) (change : α → β) :
    Recognizes (reader >>= fun found => pure (change found)) bytes
      (change value) := by
  rw [← List.append_nil bytes]
  exact recognized.bind (recognizes_pure _)

theorem Recognizes.times {reader : Reader α} {write : α → List UInt8}
    {values : List α}
    (each : ∀ value ∈ values, reader.Recognizes (write value) value) :
    (reader.times values.length).Recognizes (values.flatMap write) values := by
  induction values with
  | nil => exact recognizes_pure []
  | cons value values ih =>
      have rest := ih fun other member =>
        each other (List.mem_cons_of_mem _ member)
      rw [List.flatMap_cons]
      exact (each value List.mem_cons_self).bind (rest.map (value :: ·))

end Reader

namespace Varint

open Reader

variable {last more value : Nat}

theorem toNat_byte {byte : Nat} (small : byte < 256) :
    byte.toUInt8.toNat = byte := by
  simpa using Nat.mod_eq_of_lt small

/-- A number is recognized up to the width of the reader: every byte but the
last announces another one. -/
theorem recognizes_take (narrow : last < 128)
    (fits : value < 128 ^ more * (last + 1)) :
    Recognizes (take last more) (write value) value := by
  induction more generalizing value with
  | zero =>
      have byte := toNat_byte (show value < 256 by omega)
      rw [write, if_pos (by omega)]
      refine (recognizes_pure value).cons rfl fun rest => ?_
      rw [StateT.run, take, byte, if_pos (by omega)]
      rfl
  | succ more ih =>
      rw [write]
      split
      · rename_i digit
        have byte := toNat_byte (show value < 256 by omega)
        refine (recognizes_pure value).cons rfl fun rest => ?_
        rw [StateT.run, take, byte, if_pos digit]
        rfl
      · have byte := toNat_byte (show value % 128 + 128 < 256 by omega)
        have high : value / 128 < 128 ^ more * (last + 1) := by
          apply Nat.div_lt_of_lt_mul
          rwa [pow_succ', Nat.mul_assoc] at fits
        have joined :
            value % 128 + 128 - 128 + 128 * (value / 128) = value := by omega
        have others := (ih high).map (value % 128 + 128 - 128 + 128 * ·)
        rw [joined] at others
        refine others.cons rfl fun rest => ?_
        rw [StateT.run, take, byte, if_neg (by omega)]
        rfl

theorem recognizes_word (fits : value < 2 ^ 32) :
    (read word).Recognizes (write value) value :=
  recognizes_take (by decide) (Nat.lt_of_lt_of_eq fits (by decide))

theorem recognizes_length (fits : value < 2 ^ 64) :
    (read length).Recognizes (write value) value :=
  recognizes_take (by decide) (Nat.lt_of_lt_of_eq fits (by decide))

end Varint

theorem Reader.Recognizes.counted {α : Type} {reader : Reader α}
    {write : α → List UInt8} {values : List α}
    (each : ∀ value ∈ values, reader.Recognizes (write value) value)
    (short : values.length < 2 ^ 64) :
    reader.counted.Recognizes
      (Varint.write values.length ++ values.flatMap write) values :=
  (Varint.recognizes_length short).bind (.times each)

namespace Artifact

open Reader

/-- The numbers of an artifact have at most 32 bits, and the lengths of its
lists at most 64. -/
structure Fits (artifact : Artifact) : Prop where
  maxDepth_lt : artifact.maxDepth < 2 ^ 32
  position_lt : ∀ row ∈ artifact.lines.rows, row.position < 2 ^ 32
  jitEntry_lt : ∀ position ∈ artifact.jitEntries, position < 2 ^ 32
  length_code_lt : artifact.code.length < 2 ^ 64
  length_rows_lt : artifact.lines.rows.length < 2 ^ 64
  length_jitEntries_lt : artifact.jitEntries.length < 2 ^ 64

theorem recognizes_row {row : LineRow} (fits : row.position < 2 ^ 32) :
    readRow.Recognizes (writeRow row) row := by
  obtain ⟨position, ⟨line, column⟩⟩ := row
  dsimp only at fits
  have word (value : UInt32) :
      readWord.Recognizes (Varint.write value.toNat) value.toNat :=
    Varint.recognizes_word value.toNat_lt
  have written : writeRow ⟨position, line, column⟩ =
      Varint.write position ++
        (Varint.write line.toNat ++ Varint.write column.toNat) := by
    simp [writeRow]
  have built : (⟨position, line, column⟩ : LineRow) =
      ⟨position, line.toNat.toUInt32, column.toNat.toUInt32⟩ := by
    simp
  rw [written, built]
  exact (Varint.recognizes_word fits).bind
    ((word line).bind ((word column).map _))

theorem recognizes_numbers {numbers : List Nat}
    (fits : ∀ number ∈ numbers, number < 2 ^ 32)
    (short : numbers.length < 2 ^ 64) :
    readWord.counted.Recognizes (writeNumbers numbers) numbers :=
  .counted (fun number member => Varint.recognizes_word (fits number member))
    short

/-- The reader recognizes the bytes of an artifact, without its notes. -/
theorem Fits.recognizes {artifact : Artifact} (fits : artifact.Fits) :
    reader.Recognizes artifact.toBytes { artifact with diagnostics := [] } := by
  obtain ⟨code, maxDepth, ⟨rows⟩, jitEntries, diagnostics⟩ := artifact
  have units : readWord.counted.Recognizes
      (writeNumbers (code.map (·.toNat))) (code.map (·.toNat)) := by
    refine recognizes_numbers ?_ (by simpa using fits.length_code_lt)
    intro number member
    obtain ⟨unit, -, rfl⟩ := List.mem_map.mp member
    exact unit.toNat_lt
  have table : readRow.counted.Recognizes
      (Varint.write rows.length ++ rows.flatMap writeRow) rows :=
    .counted (fun row member => recognizes_row (fits.position_lt row member))
      fits.length_rows_lt
  have entryPoints : readWord.counted.Recognizes (writeNumbers jitEntries)
      jitEntries :=
    recognizes_numbers fits.jitEntry_lt fits.length_jitEntries_lt
  have written : toBytes ⟨code, maxDepth, ⟨rows⟩, jitEntries, diagnostics⟩ =
      writeNumbers (code.map (·.toNat)) ++ (Varint.write maxDepth ++
        ((Varint.write rows.length ++ rows.flatMap writeRow) ++
          writeNumbers jitEntries)) := by
    simp [toBytes]
  have built : (⟨code, maxDepth, ⟨rows⟩, jitEntries, []⟩ : Artifact) =
      ⟨(code.map (·.toNat)).map (·.toUInt32), maxDepth, ⟨rows⟩, jitEntries,
        []⟩ := by
    simp [Function.comp_def]
  rw [written, built]
  exact units.bind ((Varint.recognizes_word fits.maxDepth_lt).bind
    (table.bind (entryPoints.map _)))

/-- Artifacts are written so that they delimit themselves.  Whatever follows
the bytes of an artifact, the artifact is read back from them, without its
notes.  Every proper part of the bytes from the front ends too early. -/
theorem ofBytes_delimits_toBytes {artifact : Artifact} (fits : artifact.Fits) :
    (∀ rest, ofBytes (artifact.toBytes ++ rest) =
      .ok { artifact with diagnostics := [] }) ∧
    ∀ short, short <+: artifact.toBytes → short ≠ artifact.toBytes →
      ofBytes short = .error .unexpectedEnd := by
  have recognized := fits.recognizes
  refine ⟨fun rest => ?_, fun short front unequal => ?_⟩
  · rw [ofBytes, recognized.run_append]
    rfl
  · rw [ofBytes, recognized.run_short short front unequal]
    rfl

/-- An artifact with numbers on both sides of a further digit, and a note. -/
def digits : Artifact where
  code := [127, 128, 16384, 4294967295]
  maxDepth := 2097151
  lines := ⟨[⟨0, ⟨1, 1⟩⟩, ⟨268435456, ⟨2, 128⟩⟩]⟩
  jitEntries := [3, 4294967295]
  diagnostics := [.note "removed 1 unreachable instruction(s)"]

theorem ofBytes_delimits_toBytes_digits :
    digits.Fits ∧ digits.toBytes.length = 34 ∧
      ofBytes (digits.toBytes ++ [0, 255]) =
        .ok { digits with diagnostics := [] } ∧
      ofBytes (digits.toBytes.take 33) = .error .unexpectedEnd := by
  have fits : digits.Fits := by
    constructor <;> simp [digits]
  have size : digits.toBytes.length = 34 := by cbv
  obtain ⟨whole, cut⟩ := ofBytes_delimits_toBytes fits
  refine ⟨fits, size, whole _, cut _ (List.take_prefix _ _) fun same => ?_⟩
  have lengths := congrArg List.length same
  rw [List.length_take, size] at lengths
  cases lengths

end Artifact

end StackAssembler
