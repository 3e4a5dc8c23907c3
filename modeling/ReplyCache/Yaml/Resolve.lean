import ReplyCache.Json.Basic
import ReplyCache.Text.Digits
import ReplyCache.Text.Octets

namespace ReplyCache

namespace Yaml

namespace Resolve

def isNull (s : String) : Bool := s = "null" || s = "Null" || s = "NULL" || s = "~"

def bool? (s : String) : Option Bool :=
  if s = "true" || s = "True" || s = "TRUE" then some true
  else if s = "false" || s = "False" || s = "FALSE" then some false
  else none

/-- Whether digits follow a leading zero: such a decimal is text, not a number. -/
def isPadded (cs : List Char) : Bool :=
  match cs with
  | '0' :: c :: rest => (c :: rest).all Char.isDigit
  | _ => false

def magnitude? : List Char → Option Nat
  | '0' :: 'x' :: rest => Text.natural? 16 rest
  | '0' :: 'o' :: rest => Text.natural? 8 rest
  | '0' :: 'b' :: rest => Text.natural? 2 rest
  | cs => if isPadded cs then none else Text.natural? 10 cs

def int? (s : String) : Option Int :=
  match s.toList with
  | '-' :: rest => (magnitude? rest).map fun n => -(n : Int)
  | '+' :: rest => (magnitude? rest).map fun n => (n : Int)
  | cs => (magnitude? cs).map fun n => (n : Int)

def unsign : List Char → Bool × List Char
  | '-' :: rest => (true, rest)
  | '+' :: rest => (false, rest)
  | cs => (false, cs)

def exponent? : List Char → Option Int
  | [] => some 0
  | c :: cs =>
    if c = 'e' || c = 'E' then
      let (negative, digits) := unsign cs
      if digits.all Char.isDigit then
        (Text.natural? 10 digits).map fun n => if negative then -(n : Int) else n
      else none
    else none

/-- No double has a digit before this place or after its opposite. -/
def farthestPlace : Int := 400

def nearest? (n : Nat) (e : Int) : Option Float :=
  let place := (Nat.toDigits 10 n).length + e
  if n = 0 || place < -farthestPlace then some 0
  else if farthestPlace < place then none
  else
    let x := Float.ofScientific n (e < 0) e.natAbs
    if x.isFinite then some x else none

def decimal? (cs : List Char) : Option Float := do
  let whole := cs.takeWhile Char.isDigit
  let rest := cs.dropWhile Char.isDigit
  let (fraction, rest) : List Char × List Char := match rest with
    | '.' :: rest => (rest.takeWhile Char.isDigit, rest.dropWhile Char.isDigit)
    | rest => ([], rest)
  let e ← exponent? rest
  let n ← Text.natural? 10 (whole ++ fraction)
  nearest? n (e - fraction.length)

def isInfinity (cs : List Char) : Bool :=
  cs = ".inf".toList || cs = ".Inf".toList || cs = ".INF".toList

def infinity : Float := 1 / 0

def float? (s : String) : Option Float :=
  let (negative, cs) := unsign s.toList
  let x : Option Float :=
    if isInfinity cs then some infinity
    else if s = ".nan" || s = ".NaN" || s = ".NAN" then some (infinity - infinity)
    else decimal? cs
  x.map fun x => if negative then -x else x

/-- The integers that no value holds though they have at most 128 bits are refused; what is beyond
them is rounded. -/
def isRefused (i : Int) : Bool :=
  -0x80000000000000000000000000000000 ≤ i && i < 0x100000000000000000000000000000000

def value? (s : String) : Option Json :=
  if s.isEmpty || isNull s then some .null
  else match bool? s with
    | some b => some (.bool b)
    | none =>
      match int? s with
      | some i =>
        match Number.ofInt? i with
        | some n => some (.number n)
        | none => if isRefused i then none else some (number s)
      | none => some (number s)
where
  number (s : String) : Json :=
    if isPadded (unsign s.toList).2 then .string s
    else ((float? s).map Json.ofFloat).getD (.string s)

def boolTag : Text.Octets := Text.Octets.ofString "tag:yaml.org,2002:bool"

def intTag : Text.Octets := Text.Octets.ofString "tag:yaml.org,2002:int"

def floatTag : Text.Octets := Text.Octets.ofString "tag:yaml.org,2002:float"

def nullTag : Text.Octets := Text.Octets.ofString "tag:yaml.org,2002:null"

def integer? (s : String) : Option Json := do
  let i ← int? s
  (Number.ofInt? i).map .number

/-- The value of a scalar with a tag. The tags of one document only have none; a tag that names no
type known here leaves the text. -/
def tagged? (tag : Text.Octets) (s : String) : Option Json :=
  if tag = boolTag then (bool? s).map .bool
  else if tag = intTag then integer? s
  else if tag = floatTag then (float? s).map Json.ofFloat
  else if tag = nullTag then if isNull s then some .null else none
  else some (.string s)

end Resolve

end Yaml

end ReplyCache
