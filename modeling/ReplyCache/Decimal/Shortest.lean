import ReplyCache.Decimal.Binary

namespace ReplyCache

namespace Decimal

def digitCount (n : Nat) : Nat := (Nat.toDigits 10 n).length

def firstPlace (m : Nat) (q : Int) : Int :=
  let num := m * Nat.pow 2 q.toNat
  let den := Nat.pow 2 (-q).toNat
  let guess : Int := digitCount num - digitCount den
  if den * Nat.pow 10 guess.toNat ≤ num * Nat.pow 10 (-guess).toNat then guess else guess - 1

/-- A quarter of the double's unit `2 ^ q`, on the scale at which `gridStep` is a natural too. -/
def quarter (q k : Int) : Nat := Nat.pow 2 (q - 2).toNat * Nat.pow 10 (-k).toNat

def gridStep (q k : Int) : Nat := Nat.pow 10 k.toNat * Nat.pow 2 (2 - q).toNat

/-- Whether the multiple `n · 10 ^ k` rounds to the double `m · 2 ^ q`. -/
def roundsTo (m : Nat) (q k : Int) (n : Nat) : Bool :=
  let low := (4 * m - if Binary.isNarrowBelow m q then 1 else 2) * quarter q k
  let high := (4 * m + 2) * quarter q k
  let point := n * gridStep q k
  if m % 2 = 0 then low ≤ point && point ≤ high else low < point && point < high

def below (m : Nat) (q k : Int) : Nat := 4 * m * quarter q k / gridStep q k

def nearer (m : Nat) (q k : Int) : Nat :=
  let n := below m q k
  match compare (8 * m * quarter q k) ((2 * n + 1) * gridStep q k) with
  | .lt => n
  | .gt => n + 1
  | .eq => if n % 2 = 0 then n else n + 1

def onGrid (m : Nat) (q k : Int) : Option Nat :=
  let n := below m q k
  match roundsTo m q k n, roundsTo m q k (n + 1) with
  | true, true => some (nearer m q k)
  | true, false => some n
  | false, true => some (n + 1)
  | false, false => none

def mostDigits : Nat := 17

/-- The shortest decimal `c · 10 ^ k` that reads back as `m · 2 ^ q`, as `(c, k)`. The reals that
round to the double form an interval around it. If a point of the grid of multiples of `10 ^ k`
lies in the interval, one of the double's two neighbours on that grid does, so it is enough to look
at these, from the coarsest grid on. -/
def shortest (m : Nat) (q : Int) : Nat × Int :=
  let first := firstPlace m q
  let grids := (List.range mostDigits).map fun p : Nat => first - (p : Int)
  (grids.findSome? fun k => (onGrid m q k).map (·, k)).getD
    (nearer m q (first + 1 - mostDigits), first + 1 - mostDigits)

/-- The digits of a decimal without trailing zeros, and the exponent of the first of them. -/
def digits (c : Nat) (k : Int) : List Char × Int :=
  let all := Nat.toDigits 10 c
  ((all.reverse.dropWhile (· = '0')).reverse, k + all.length - 1)

end Decimal

end ReplyCache
