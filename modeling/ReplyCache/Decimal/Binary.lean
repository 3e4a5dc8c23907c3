namespace ReplyCache

/-- The number `±significand · 2 ^ exponent`. -/
structure Binary where
  negative : Bool
  significand : Nat
  exponent : Int
  deriving DecidableEq

namespace Binary

/-- The lowest exponent of a double; the subnormal numbers share it with the first normal ones. -/
def leastExponent : Int := -1074

def leadingBit : Nat := 0x10000000000000

def ofFloat (x : Float) : Binary :=
  let bits : Nat := x.toBits.toNat
  let biased : Nat := bits / leadingBit % 2048
  let fraction : Nat := bits % leadingBit
  let negative := bits / 0x8000000000000000 = 1
  if biased = 0 then ⟨negative, fraction, leastExponent⟩
  else ⟨negative, leadingBit + fraction, (biased : Int) - 1 + leastExponent⟩

/-- Below a power of two the doubles lie twice as close as above it, except at the foot of the
range. -/
def isNarrowBelow (m : Nat) (q : Int) : Bool := m = leadingBit && q ≠ leastExponent

end Binary

end ReplyCache
