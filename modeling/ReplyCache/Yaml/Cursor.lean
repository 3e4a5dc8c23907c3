namespace ReplyCache

namespace Yaml

def nextLine : Char := '\u0085'

def lineSeparator : Char := '\u2028'

def paragraphSeparator : Char := '\u2029'

def isBreak (c : Char) : Bool :=
  c = '\n' || c = '\r' || c = nextLine || c = lineSeparator || c = paragraphSeparator

def isBlank (c : Char) : Bool := c = ' ' || c = '\t'

def isSpace (c : Char) : Bool := isBlank c || isBreak c

def isWord (c : Char) : Bool := c.isAlphanum || c = '-' || c = '_'

def startsBlank : List Char → Bool
  | [] => true
  | c :: _ => isSpace c

def isPrintable (c : Char) : Bool :=
  let n := c.toNat
  n = 9 || n = 10 || n = 13 || (0x20 ≤ n && n ≤ 0x7E) || n = 0x85 || (0xA0 ≤ n && n ≤ 0xD7FF) ||
    (0xE000 ≤ n && n ≤ 0xFFFD) || 0x10000 ≤ n

/-- The octets of UTF-8 that were read, the line and the column are counted from zero. Lines end at
a carriage return, a line feed, both together, or one of the Unicode characters for a new line, a
line and a paragraph. -/
structure Cursor where
  rest : List Char
  index : Nat := 0
  line : Nat := 0
  column : Nat := 0

namespace Cursor

def next? (c : Cursor) : Option Char := c.rest.head?

def isAt (c : Cursor) (x : Char) : Bool := c.rest.head? == some x

def width (cs : List Char) : Nat := cs.foldl (fun n x => n + x.utf8Size) 0

def skip (c : Cursor) (n : Nat := 1) : Cursor where
  rest := c.rest.drop n
  index := c.index + width (c.rest.take n)
  line := c.line
  column := c.column + n

def endLine (c : Cursor) : Cursor :=
  if c.column = 0 then c else { c with line := c.line + 1, column := 0 }

def skipLine (c : Cursor) : Cursor :=
  match c.rest with
  | '\r' :: '\n' :: rest => ⟨rest, c.index + 2, c.line + 1, 0⟩
  | x :: rest => if isBreak x then ⟨rest, c.index + x.utf8Size, c.line + 1, 0⟩ else c
  | [] => c

/-- The line break at the cursor as it counts in a scalar: the Unicode separators stand for
themselves, all others for a line feed. -/
def lineBreak (c : Cursor) : List Char :=
  match c.rest with
  | x :: _ =>
    if x = lineSeparator || x = paragraphSeparator then [x] else if isBreak x then ['\n'] else []
  | [] => []

def takeWhile (c : Cursor) (p : Char → Bool) : List Char := c.rest.takeWhile p

def skipWhile (c : Cursor) (p : Char → Bool) : Cursor := c.skip (c.rest.takeWhile p).length

/-- Three of the same mark at the start of a line, and nothing joined to them. -/
def isAtMark (c : Cursor) (mark : Char) : Bool :=
  c.column = 0 &&
    match c.rest with
    | x :: y :: z :: rest => x = mark && y = mark && z = mark && startsBlank rest
    | _ => false

def isAtDocumentMark (c : Cursor) : Bool := c.isAtMark '-' || c.isAtMark '.'

end Cursor

end Yaml

end ReplyCache
