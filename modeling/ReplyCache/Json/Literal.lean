import ReplyCache.Json.Number
import ReplyCache.Text.Digits

namespace ReplyCache

structure Literal where
  negative : Bool
  whole : List Char
  fraction : List Char
  exponent : Option (Bool × List Char)
  deriving DecidableEq

namespace Literal

def isExponentMark (c : Char) : Bool := c = 'e' || c = 'E'

def readExponent? (cs : List Char) : Option ((Bool × List Char) × List Char) :=
  let (negative, cs) : Bool × List Char := match cs with
    | '-' :: rest => (true, rest)
    | '+' :: rest => (false, rest)
    | rest => (false, rest)
  let digits := cs.takeWhile Char.isDigit
  if digits.isEmpty then none else some ((negative, digits), cs.dropWhile Char.isDigit)

def readFraction? : List Char → Option (List Char × List Char)
  | '.' :: cs =>
    let digits := cs.takeWhile Char.isDigit
    if digits.isEmpty then none else some (digits, cs.dropWhile Char.isDigit)
  | cs => some ([], cs)

/-- The digits before the point: a leading zero stands alone. -/
def readWhole? : List Char → Option (List Char × List Char)
  | '0' :: cs => if (cs.head?.map Char.isDigit).getD false then none else some (['0'], cs)
  | cs =>
    let digits := cs.takeWhile Char.isDigit
    if digits.isEmpty then none else some (digits, cs.dropWhile Char.isDigit)

def readMinus : List Char → Bool × List Char
  | '-' :: cs => (true, cs)
  | cs => (false, cs)

def read? (cs : List Char) : Option (Literal × List Char) := do
  let (negative, cs) := readMinus cs
  let (whole, cs) ← readWhole? cs
  let (fraction, cs) ← readFraction? cs
  match cs with
  | c :: rest =>
    if isExponentMark c then
      let (exponent, rest) ← readExponent? rest
      some (⟨negative, whole, fraction, some exponent⟩, rest)
    else some (⟨negative, whole, fraction, none⟩, cs)
  | [] => some (⟨negative, whole, fraction, none⟩, cs)

/-- Appends digits to a significand while it stays below `2 ^ 64`; the digits left over follow. -/
def keep (n : Nat) : List Char → Nat × List Char
  | [] => (n, [])
  | c :: cs =>
    let more := n * 10 + Text.digitValue c
    if more < 0x10000000000000000 then keep more cs else (n, c :: cs)

def powerOfTen (n : Nat) : Float := Float.ofScientific 1 false n

def mostPlaces : Nat := 308

/-- Divides by `10 ^ (mostPlaces * steps + places)`, one step at a time, and stops at zero. -/
def divide (x : Float) : Nat → Nat → Float
  | 0, places => x / powerOfTen places
  | steps + 1, places => if x == 0 then x else divide (x / powerOfTen mostPlaces) steps places

def scale? (n : Nat) (e : Int) : Option Float :=
  let x := Float.ofNat n
  if e < 0 then
    let places := (-e).toNat
    let steps := (places - 1) / mostPlaces
    some (divide x steps (places - mostPlaces * steps))
  else if e ≤ mostPlaces then
    let y := x * powerOfTen e.toNat
    if y.isFinite then some y else none
  else if n = 0 then some x else none

def signed (negative : Bool) (x : Float) : Float := if negative then -x else x

/-- A literal without a fraction and an exponent is an integer if it fits in 64 bits; `-0` is the
double `-0.0`. In every other literal the leading digits that fit in 64 bits are kept, the digits
after them count as places only, and the kept digits, as a double, are multiplied or divided once by
the power of ten that is left. So a literal of many digits may miss the nearest double by an ulp. A
literal beyond the doubles has no value. -/
def value? (l : Literal) : Option Number :=
  let (n, excess) := keep 0 l.whole
  if excess.isEmpty && l.fraction.isEmpty && l.exponent.isNone then
    if l.negative then
      if 0 < n && n ≤ 0x8000000000000000 then Number.ofInt? (-n)
      else Number.ofFloat? (-Float.ofNat n)
    else Number.ofInt? n
  else
    let (n, left) := keep n l.fraction
    let places : Int := excess.length - (l.fraction.length - left.length : Nat)
    let shift : Int := match l.exponent with
      | none => 0
      | some (true, digits) => -Text.digitsValue digits
      | some (false, digits) => Text.digitsValue digits
    (scale? n (places + shift)).bind fun x => Number.ofFloat? (signed l.negative x)

end Literal

end ReplyCache
