/-!
# Text layout

Fields of fixed width, signed decimals and hexadecimal numerals, as they occur
in assembly lines, listings and dumps.  A text that is wider than its field is
never cut.
-/

namespace StackAssembler

namespace Text

def alignRight (width : Nat) (text : String) : String :=
  "".pushn ' ' (width - text.length) ++ text

def alignLeft (width : Nat) (text : String) : String :=
  text.pushn ' ' (width - text.length)

/-- A decimal that always carries its sign; zero counts as positive. -/
def signed (value : Int) : String :=
  if value < 0 then toString value else "+" ++ toString value

/-- The digits of a number in base sixteen, letters in lower case. -/
def hexDigits (value : Nat) : String :=
  String.ofList (Nat.toDigits 16 value)

/-- A hexadecimal numeral with its base mark. -/
def hex (value : Nat) : String :=
  "0x" ++ hexDigits value

/-- Eight hexadecimal digits, the width of a 32-bit unit. -/
def hexUnit (value : Nat) : String :=
  let digits := hexDigits value
  "".pushn '0' (8 - digits.length) ++ digits

/-- Items between square brackets, separated by a comma and a blank. -/
def bracketed (items : List String) : String :=
  "[" ++ String.intercalate ", " items ++ "]"

end Text

end StackAssembler
