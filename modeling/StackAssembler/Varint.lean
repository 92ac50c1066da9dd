/-!
# Variable-length numbers

A number is written in base 128, the low digit first; every byte but the last
has its high bit set.  A reader accepts a bounded number of bytes and bounds
the last of them, so that what it reads fits a fixed width.  Numbers that are
written longer than needed are accepted.
-/

namespace StackAssembler

/-- What can be wrong with bytes that are read back. -/
inductive ReadError where
  /-- The bytes end too early. -/
  | unexpectedEnd
  /-- A number is too long or too large. -/
  | badVarint
  deriving DecidableEq

namespace ReadError

def name : ReadError → String
  | unexpectedEnd => "DeserializeUnexpectedEnd"
  | badVarint => "DeserializeBadVarint"

def message : ReadError → String
  | unexpectedEnd => "Hit the end of buffer, expected more data"
  | badVarint =>
      "Found a varint that didn't terminate. Is the usize too big for this " ++
        "platform?"

end ReadError

/-- A reader takes bytes off the front. -/
abbrev Reader (α : Type) := StateT (List UInt8) (Except ReadError) α

namespace Varint

def write (value : Nat) : List UInt8 :=
  if value < 128 then [value.toUInt8]
  else (value % 128 + 128).toUInt8 :: write (value / 128)
termination_by value

/-- How many bytes a number may have, less one, and how large the last of that
many may be. -/
structure Width where
  more : Nat
  last : Nat

/-- Numbers of 32 bits. -/
def word : Width := ⟨4, 15⟩

/-- Lengths, which have 64 bits. -/
def length : Width := ⟨9, 1⟩

def take (last : Nat) :
    Nat → List UInt8 → Except ReadError (Nat × List UInt8)
  | _, [] => .error .unexpectedEnd
  | 0, byte :: rest =>
      if byte.toNat ≤ last then .ok (byte.toNat, rest) else .error .badVarint
  | more + 1, byte :: rest =>
      if byte.toNat < 128 then .ok (byte.toNat, rest)
      else do
        let (high, rest) ← take last more rest
        return (byte.toNat - 128 + 128 * high, rest)

def read (width : Width) : Reader Nat :=
  fun bytes => take width.last width.more bytes

end Varint

namespace Reader

def times {α : Type} (reader : Reader α) : Nat → Reader (List α)
  | 0 => pure []
  | count + 1 => do
      let item ← reader
      let items ← times reader count
      return item :: items

def counted {α : Type} (reader : Reader α) : Reader (List α) := do
  let count ← Varint.read Varint.length
  times reader count

end Reader

end StackAssembler
