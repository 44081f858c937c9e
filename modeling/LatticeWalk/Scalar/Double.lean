import LatticeWalk.Scalar
import LatticeWalk.Decimal.Notation
import LatticeWalk.Decimal.Literal

/-! # Doubles as scalars

Programs run on doubles: every operation is the one of the processor, rounded once, and the written
forms are those of `LatticeWalk.Decimal`. -/

namespace LatticeWalk

open LatticeWalk.Decimal

instance : Numeral Float where
  spell x := plain (.ofFloat x)
  spellTo places x := fixed places (.ofFloat x)
  read? := readDouble

instance : Scalar Float where
  zero := 0
  one := 1
  natCast := Float.ofNat
  decidableLT := inferInstance
  decidableLE := inferInstance
  sqrt := Float.sqrt
  cos := Float.cos
  sin := Float.sin
  arccos := Float.acos
  pi := Float.ofBits 0x400921FB54442D18
  round := Float.round

end LatticeWalk
