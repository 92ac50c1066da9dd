/-!
# Operations and conditions

The closed families of operations that an instruction chooses from, and the
forms of them that take a constant operand.
-/

namespace StackAssembler

/-- A test of the value register against zero. -/
inductive Condition where
  | zero
  | notZero
  | negative
  | notNegative
  | positive
  | notPositive
  deriving DecidableEq

namespace Condition

def all : List Condition :=
  [zero, notZero, negative, notNegative, positive, notPositive]

def name : Condition → String
  | zero => "Zero"
  | notZero => "NotZero"
  | negative => "Negative"
  | notNegative => "NotNegative"
  | positive => "Positive"
  | notPositive => "NotPositive"

/-- The condition that holds exactly when this one fails. -/
def negate : Condition → Condition
  | zero => notZero
  | notZero => zero
  | negative => notNegative
  | notNegative => negative
  | positive => notPositive
  | notPositive => positive

def holds (condition : Condition) (value : Int32) : Bool :=
  match condition with
  | zero => value = 0
  | notZero => value ≠ 0
  | negative => value < 0
  | notNegative => 0 ≤ value
  | positive => 0 < value
  | notPositive => value ≤ 0

end Condition

/-- Arithmetic and bitwise operations on two slots with a constant right
operand. -/
inductive ImmOp where
  | addI
  | subI
  | mulI
  | addF
  | subF
  | mulF
  deriving DecidableEq

namespace ImmOp

def all : List ImmOp := [addI, subI, mulI, addF, subF, mulF]

def name : ImmOp → String
  | addI => "AddI"
  | subI => "SubI"
  | mulI => "MulI"
  | addF => "AddF"
  | subF => "SubF"
  | mulF => "MulF"

end ImmOp

/-- Arithmetic and bitwise operations on slots. -/
inductive ArithOp where
  | addI
  | subI
  | mulI
  | divI
  | modI
  | addF
  | subF
  | mulF
  | divF
  | modF
  | and
  | or
  | xor
  | shl
  | shr
  | sar
  deriving DecidableEq

namespace ArithOp

def all : List ArithOp :=
  [addI, subI, mulI, divI, modI, addF, subF, mulF, divF, modF, and, or, xor,
    shl, shr, sar]

def name : ArithOp → String
  | addI => "AddI"
  | subI => "SubI"
  | mulI => "MulI"
  | divI => "DivI"
  | modI => "ModI"
  | addF => "AddF"
  | subF => "SubF"
  | mulF => "MulF"
  | divF => "DivF"
  | modF => "ModF"
  | and => "And"
  | or => "Or"
  | xor => "Xor"
  | shl => "Shl"
  | shr => "Shr"
  | sar => "Sar"

/-- The form with a constant right operand, where the machine has one. -/
def immediate? : ArithOp → Option ImmOp
  | addI => some .addI
  | subI => some .subI
  | mulI => some .mulI
  | addF => some .addF
  | subF => some .subF
  | mulF => some .mulF
  | _ => none

def commutes : ArithOp → Bool
  | addI | mulI | addF | mulF | and | or | xor => true
  | _ => false

end ArithOp

/-- Operations that update one slot in place. -/
inductive UnaryOp where
  | not
  | negI
  | negF
  | bitNot
  deriving DecidableEq

namespace UnaryOp

def all : List UnaryOp := [not, negI, negF, bitNot]

def name : UnaryOp → String
  | not => "Not"
  | negI => "NegI"
  | negF => "NegF"
  | bitNot => "BitNot"

end UnaryOp

/-- The operand type of a comparison with a constant. -/
inductive ImmCmpKind where
  | int
  | uint
  | float
  deriving DecidableEq

namespace ImmCmpKind

def all : List ImmCmpKind := [int, uint, float]

/-- The symbolic name of a type that can be compared with a constant. -/
def name : ImmCmpKind → String
  | int => "Int"
  | uint => "Uint"
  | float => "Float"

end ImmCmpKind

/-- The operand type of a comparison of two slots. -/
inductive CmpKind where
  | int
  | uint
  | float
  | double
  deriving DecidableEq

namespace CmpKind

def all : List CmpKind := [int, uint, float, double]

def name : CmpKind → String
  | int => "Int"
  | uint => "Uint"
  | float => "Float"
  | double => "Double"

/-- The comparison with a constant, where the machine has one. -/
def immediate? : CmpKind → Option ImmCmpKind
  | int => some .int
  | uint => some .uint
  | float => some .float
  | double => none

end CmpKind

/-- What a call instruction calls. -/
inductive CallKind where
  | script
  | system
  | bound
  | interface
  deriving DecidableEq

namespace CallKind

def all : List CallKind := [script, system, bound, interface]

def name : CallKind → String
  | script => "Script"
  | system => "System"
  | bound => "Bound"
  | interface => "Interface"

end CallKind

end StackAssembler
