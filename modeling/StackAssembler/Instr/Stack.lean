import StackAssembler.Instr.Basic

/-!
# Stack effects

How executing an instruction changes the depth of the stack, in 32-bit units.
A pointer is one unit.
-/

namespace StackAssembler

/-- The number of stack units that a pointer takes. -/
def pointerUnits : Int := 1

namespace Instr

def stackChange : Instr → Int
  | pop count => -count.toNat
  | push count => count.toNat
  | pushConst _ | pushVar _ | pushGlobal _ => 1
  | pushConst8 _ => 2
  | pushFrameAddr _ | pushStackAddr _ | pushVarRef _ | pushRegPtr =>
      pointerUnits
  | popRegPtr => -pointerUnits
  | pushString _ => 1 + pointerUnits
  | readStack4 => 1 - pointerUnits
  | readStack8 => 2 - pointerUnits
  | call _ _ count | alloc _ _ count => -count.toNat
  | _ => 0

end Instr

end StackAssembler
