import ReplyCache.Decimal.Shortest
import ReplyCache.Json.Basic

namespace ReplyCache

namespace Number

def leastPositional : Int := -5

def mostPositional : Int := 15

/-- Positional notation of the digits `ds`, the first of which has the exponent `e`. -/
def positional (ds : List Char) (e : Int) : List Char :=
  if e < 0 then '0' :: '.' :: List.replicate (-e - 1).toNat '0' ++ ds
  else
    let whole := e.toNat + 1
    let fraction := ds.drop whole
    ds.take whole ++ List.replicate (whole - ds.length) '0' ++
      '.' :: if fraction.isEmpty then ['0'] else fraction

def scientific (ds : List Char) (e : Int) : List Char :=
  let fraction := ds.drop 1
  ds.take 1 ++ (if fraction.isEmpty then [] else '.' :: fraction) ++
    'e' :: (if e < 0 then '-' else '+') :: Nat.toDigits 10 e.natAbs

def magnitude (m : Nat) (q : Int) : List Char :=
  let (c, k) := Decimal.shortest m q
  let (ds, e) := Decimal.digits c k
  if leastPositional ≤ e && e ≤ mostPositional then positional ds e else scientific ds e

def floatText (x : Float) : List Char :=
  let b := Binary.ofFloat x
  let text := if b.significand = 0 then ['0', '.', '0'] else magnitude b.significand b.exponent
  if b.negative then '-' :: text else text

def intText (i : Int) : List Char :=
  if i < 0 then '-' :: Nat.toDigits 10 i.natAbs else Nat.toDigits 10 i.natAbs

def chars : Number → List Char
  | integer i _ => intText i
  | float x _ => floatText x

end Number

namespace Json

def hexDigit (n : Nat) : Char := (Nat.toDigits 16 (n % 16)).headD '0'

/-- How a character stands in a string: the quote, the backslash and the control characters are
escaped. -/
def escape (c : Char) : List Char :=
  match c with
  | '"' => ['\\', '"']
  | '\\' => ['\\', '\\']
  | '\n' => ['\\', 'n']
  | '\r' => ['\\', 'r']
  | '\t' => ['\\', 't']
  | '\x08' => ['\\', 'b']
  | '\x0c' => ['\\', 'f']
  | c =>
    if c.toNat < 32 then ['\\', 'u', '0', '0', hexDigit (c.toNat / 16), hexDigit c.toNat] else [c]

def writeString (s : String) (rest : List Char) : List Char :=
  '"' :: s.toList.flatMap escape ++ '"' :: rest

mutual

/-- Puts the text of a value before the text that is to follow, so that it is built from its end and
nothing is copied. -/
def write : Json → List Char → List Char
  | null, rest => 'n' :: 'u' :: 'l' :: 'l' :: rest
  | bool true, rest => 't' :: 'r' :: 'u' :: 'e' :: rest
  | bool false, rest => 'f' :: 'a' :: 'l' :: 's' :: 'e' :: rest
  | number n, rest => n.chars ++ rest
  | string s, rest => writeString s rest
  | array [], rest => '[' :: ']' :: rest
  | array (x :: xs), rest => '[' :: write x (writeItems xs (']' :: rest))
  | object [], rest => '{' :: '}' :: rest
  | object (m :: ms), rest => '{' :: writeMember m (writeMembers ms ('}' :: rest))
termination_by structural j => j

def writeItems : List Json → List Char → List Char
  | [], rest => rest
  | x :: xs, rest => ',' :: write x (writeItems xs rest)
termination_by structural xs => xs

def writeMembers : List (String × Json) → List Char → List Char
  | [], rest => rest
  | m :: ms, rest => ',' :: writeMember m (writeMembers ms rest)
termination_by structural ms => ms

def writeMember : String × Json → List Char → List Char
  | (name, v), rest => writeString name (':' :: write v rest)
termination_by structural m => m

end

def chars (v : Json) : List Char := write v []

def text (v : Json) : String := String.ofList v.chars

def textSize (v : Json) : Nat := v.text.utf8ByteSize

end Json

end ReplyCache
