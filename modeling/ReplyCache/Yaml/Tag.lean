import ReplyCache.Yaml.Token

namespace ReplyCache

namespace Yaml

namespace Anchor

def isFollower (c : Char) : Bool := "?:,]\x7d%@\x60".toList.contains c

def read? (c : Cursor) : Option (String × Cursor) :=
  let name := c.takeWhile isWord
  let c := c.skip name.length
  if name.isEmpty || !(startsBlank c.rest || (c.next?.map isFollower).getD false) then none
  else some (String.ofList name, c)

end Anchor

namespace Tag

open Text (Octets)

def ownMark : UInt8 := 0x21

def isUriMark (c : Char) : Bool := ";/?:@&=+$.%!~*'()".toList.contains c

/-- Marks that only a tag in full and the expansion of a handle may hold. -/
def isOuterMark (c : Char) : Bool := c = ',' || c = '[' || c = ']'

def octetCount? (octet : UInt8) : Option Nat :=
  if octet < 0x80 then some 1
  else if octet / 0x20 = 6 then some 2
  else if octet / 0x10 = 14 then some 3
  else if octet / 0x08 = 30 then some 4
  else none

def readOctet? : List Char → Option (UInt8 × List Char)
  | '%' :: a :: b :: rest => (Text.natural? 16 [a, b]).map fun n => (n.toUInt8, rest)
  | _ => none

def readOctets? : Nat → List Char → Option (Octets × List Char)
  | 0, cs => some ([], cs)
  | n + 1, cs => do
    let (octet, cs) ← readOctet? cs
    if octet / 0x40 ≠ 2 then none
    else
      let (octets, cs) ← readOctets? n cs
      some (octet :: octets, cs)

/-- As many octets behind percent signs as the first one asks for, and how many characters that
took. -/
def readEscape? (cs : List Char) : Option (Octets × Nat) := do
  let (octet, rest) ← readOctet? cs
  let count ← octetCount? octet
  let (octets, _) ← readOctets? (count - 1) rest
  some (octet :: octets, 3 * count)

def readUri? (outer : Bool) : Nat → Octets → Cursor → Option (Octets × Cursor)
  | 0, _, _ => none
  | fuel + 1, uri, c =>
    match c.next? with
    | none => some (uri.reverse, c)
    | some x =>
      if x = '%' then do
        let (octets, n) ← readEscape? c.rest
        readUri? outer fuel (octets.reverse ++ uri) (c.skip n)
      else if isWord x || isUriMark x || (outer && isOuterMark x) then
        readUri? outer fuel (x.toUInt8 :: uri) c.skip
      else some (uri.reverse, c)

/-- A handle: `!`, `!!` or `!name!`. Without the closing mark it is the start of a short tag. -/
def readHandle? (c : Cursor) : Option (List Char × Cursor) :=
  if c.isAt '!' then
    let name := c.skip.takeWhile isWord
    let d := c.skip (1 + name.length)
    if d.isAt '!' then some ('!' :: name ++ ['!'], d.skip) else some ('!' :: name, d)
  else none

def isClosed (handle : List Char) : Bool := 1 < handle.length && handle.getLast? == some '!'

/-- Handle and suffix of the tag at the cursor. A tag in full has the empty handle, and so has the
tag `!`. -/
def readParts? (fuel : Nat) (c : Cursor) : Option (List Char × Octets × Cursor) :=
  if c.skip.isAt '<' then do
    let (uri, d) ← readUri? true fuel [] (c.skip 2)
    if uri.isEmpty || !d.isAt '>' then none else some ([], Octets.beforeZero uri, d.skip)
  else do
    let (handle, d) ← readHandle? c
    let (uri, e) ← readUri? false fuel [] d
    if isClosed handle then
      if uri.isEmpty then none else some (handle, Octets.beforeZero uri, e)
    else
      let suffix := Octets.beforeZero ((handle.drop 1).map Char.toUInt8 ++ uri)
      if suffix.isEmpty then some ([], [ownMark], e) else some (['!'], suffix, e)

def read? (inFlow : Bool) (fuel : Nat) (c : Cursor) : Option (Token × Cursor) := do
  let (handle, suffix, d) ← readParts? fuel c
  if startsBlank d.rest || (inFlow && d.isAt ',') then
    some (.tag (String.ofList handle) suffix, d)
  else none

end Tag

namespace Directive

def versionName : List Char := ['Y', 'A', 'M', 'L']

def tagName : List Char := ['T', 'A', 'G']

def mostDigits : Nat := 9

def readNatural? (c : Cursor) : Option (Nat × Cursor) :=
  let digits := c.takeWhile Char.isDigit
  if digits.isEmpty || mostDigits < digits.length then none
  else some (Text.digitsValue digits, c.skip digits.length)

def readVersion? (c : Cursor) : Option (Token × Cursor) := do
  let (major, c) ← readNatural? (c.skipWhile isBlank)
  if c.isAt '.' then
    let (minor, c) ← readNatural? c.skip
    some (.version major minor, c)
  else none

def readHandle? (fuel : Nat) (c : Cursor) : Option (Token × Cursor) := do
  let (handle, c) ← Tag.readHandle? (c.skipWhile isBlank)
  if handle.length ≠ 1 && !Tag.isClosed handle then none
  else if !(c.next?.map isBlank).getD false then none
  else
    let (uri, c) ← Tag.readUri? true fuel [] (c.skipWhile isBlank)
    if uri.isEmpty || !startsBlank c.rest then none
    else some (.handle (String.ofList handle) (Text.Octets.beforeZero uri), c)

def read? (fuel : Nat) (c : Cursor) : Option (Token × Cursor) := do
  let name := c.skip.takeWhile isWord
  let c := c.skip (1 + name.length)
  if name.isEmpty || !startsBlank c.rest then none
  else
    let (token, c) ← if name = versionName then readVersion? c
      else if name = tagName then readHandle? fuel c
      else none
    let c := c.skipWhile isBlank
    let c := if c.isAt '#' then c.skipWhile (!isBreak ·) else c
    match c.next? with
    | none => some (token, c)
    | some x => if isBreak x then some (token, c.skipLine) else none

end Directive

end Yaml

end ReplyCache
