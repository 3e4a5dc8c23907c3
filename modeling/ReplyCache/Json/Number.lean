namespace ReplyCache

/-- An integer of 64 bits, signed or unsigned, stays an integer; every other number is a finite
double. `1` and `1.0` are two numbers. -/
inductive Number where
  | integer (value : Int) (inRange : -0x8000000000000000 ≤ value ∧ value < 0x10000000000000000)
  | float (value : Float) (finite : value.isFinite = true)
  deriving DecidableEq

namespace Number

def ofInt? (i : Int) : Option Number :=
  if h : -0x8000000000000000 ≤ i ∧ i < 0x10000000000000000 then some (.integer i h) else none

def ofFloat? (x : Float) : Option Number :=
  if h : x.isFinite = true then some (.float x h) else none

/-- An integer beyond 53 bits is rounded to the nearest double, ties to even. -/
def toFloat : Number → Float
  | integer i _ => Float.ofInt i
  | float x _ => x

def natural? : Number → Option Nat
  | integer i _ => if 0 ≤ i then some i.toNat else none
  | float _ _ => none

/-- Whether two numbers have the same value and are written the same way, as integers or not. Zero
has one value, whatever its sign. -/
def alike : Number → Number → Bool
  | integer i _, integer j _ => i = j
  | float x _, float y _ => x == y
  | _, _ => false

end Number

end ReplyCache
