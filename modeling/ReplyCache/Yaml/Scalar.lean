import ReplyCache.Text.Digits
import ReplyCache.Yaml.Gap

namespace ReplyCache

namespace Yaml

inductive Style where
  | plain
  | single
  | double
  | literal
  | folded
  deriving DecidableEq, Inhabited

def join (pieces : List (List Char)) : List Char := pieces.reverse.flatten

namespace Plain

def isFlowMark (c : Char) : Bool := c = ',' || c = '[' || c = ']' || c = '{' || c = '}'

/-- The characters up to the next blank or the end of the scalar. In a flow collection a colon that
touches one of its marks is refused. -/
def readWord? (inFlow : Bool) : List Char → Option (List Char)
  | [] => some []
  | x :: rest =>
    let next := rest.head?.getD ' '
    if isSpace x then some []
    else if inFlow && x = ':' && (isFlowMark next || next = '?') then none
    else if (x = ':' && startsBlank rest) || (inFlow && isFlowMark x) then some []
    else (readWord? inFlow rest).map (x :: ·)

/-- Goes on with a scalar after the gap `g`. Also tells whether the scalar is followed by the end of
its line. -/
def read? (inFlow : Bool) (indent : Int) :
    Nat → List (List Char) → Gap → Cursor → Option (List Char × Bool × Cursor)
  | 0, _, _, _ => none
  | fuel + 1, pieces, g, c =>
    if c.isAtDocumentMark || c.isAt '#' then some (join pieces, g.broken, c)
    else do
      let word ← readWord? inFlow c.rest
      let c := c.skip word.length
      let pieces := if word.isEmpty then pieces else word :: g.text :: pieces
      let g : Gap := if word.isEmpty then g else {}
      match c.next? with
      | none => some (join pieces, g.broken, c)
      | some x =>
        if isSpace x then
          let (g, c) ← Gap.read? indent (fuel + 1) g c
          if !inFlow && c.column < indent then some (join pieces, g.broken, c)
          else read? inFlow indent fuel pieces g c
        else some (join pieces, g.broken, c)

end Plain

namespace Quoted

def escaped? : Char → Option Char
  | '0' => some '\x00'
  | 'a' => some '\x07'
  | 'b' => some '\x08'
  | 't' | '\t' => some '\t'
  | 'n' => some '\n'
  | 'v' => some '\x0b'
  | 'f' => some '\x0c'
  | 'r' => some '\r'
  | 'e' => some '\x1b'
  | ' ' => some ' '
  | '"' => some '"'
  | '/' => some '/'
  | '\\' => some '\\'
  | 'N' => some nextLine
  | '_' => some '\u00a0'
  | 'L' => some lineSeparator
  | 'P' => some paragraphSeparator
  | _ => none

def codeLength? : Char → Option Nat
  | 'x' => some 2
  | 'u' => some 4
  | 'U' => some 8
  | _ => none

def ofCode? (digits : List Char) : Option Char := do
  let n ← Text.natural? 16 digits
  if h : n.isValidChar then some (Char.ofNatAux n h) else none

def readEscape? (c : Cursor) : Option (Char × Cursor) := do
  let letter ← c.rest[1]?
  match codeLength? letter with
  | none =>
    let x ← escaped? letter
    some (x, c.skip 2)
  | some n =>
    let digits := (c.rest.drop 2).take n
    if digits.length < n then none
    else
      let x ← ofCode? digits
      some (x, c.skip (2 + n))

def readWord? (single : Bool) : Nat → List Char → Cursor → Option (List Char × Bool × Cursor)
  | 0, _, _ => none
  | fuel + 1, word, c =>
    match c.rest with
    | [] => some (word, false, c)
    | x :: rest =>
      let next := rest.head?.getD ' '
      if isSpace x then some (word, false, c)
      else if single then
        if x = '\'' then
          if rest.head? = some '\'' then readWord? single fuel ('\'' :: word) (c.skip 2)
          else some (word, false, c)
        else readWord? single fuel (x :: word) c.skip
      else if x = '"' then some (word, false, c)
      else if x = '\\' then
        if isBreak next then some (word, true, c.skip.skipLine)
        else do
          let (x, c) ← readEscape? c
          readWord? single fuel (x :: word) c
      else readWord? single fuel (x :: word) c.skip

/-- Goes on with a scalar up to its closing quote. No document may start or end within it. -/
def read? (single : Bool) : Nat → List (List Char) → Cursor → Option (List Char × Cursor)
  | 0, _, _ => none
  | fuel + 1, pieces, c =>
    if c.isAtDocumentMark || c.rest.isEmpty then none
    else do
      let (word, escapedBreak, c) ← readWord? single (fuel + 1) [] c
      let pieces := word.reverse :: pieces
      if c.isAt (if single then '\'' else '"') then some (join pieces, c.skip)
      else
        let (g, c) ← Gap.read? (-1) (fuel + 1) { broken := escapedBreak } c
        read? single fuel (g.text :: pieces) c

end Quoted

namespace Block

inductive Chomp where
  | strip
  | clip
  | keep
  deriving DecidableEq, Inhabited

def chomp? : Char → Option Chomp
  | '+' => some .keep
  | '-' => some .strip
  | _ => none

def indentDigit? (c : Char) : Option Nat :=
  if c.isDigit && c ≠ '0' then some (c.toNat - '0'.toNat) else none

/-- What the marks after the indicator say, in either order: the chomping, and the indentation
unless it is left to be found out. A zero is no indentation. -/
def readHeader? (c : Cursor) : Option (Chomp × Nat × Cursor) :=
  match c.next?.bind chomp? with
  | some chomp =>
    let c := c.skip
    match c.next? with
    | some x =>
      if x.isDigit then (indentDigit? x).map fun n => (chomp, n, c.skip) else some (chomp, 0, c)
    | none => some (chomp, 0, c)
  | none =>
    match c.next? with
    | some x =>
      if x.isDigit then
        (indentDigit? x).map fun n =>
          match c.skip.next?.bind chomp? with
          | some chomp => (chomp, n, c.skip 2)
          | none => (.clip, n, c.skip)
      else some (.clip, 0, c)
    | none => some (.clip, 0, c)

/-- Eats the indentation of a line, and empty lines before it. An `indent` of zero is not known yet.
Also tells the widest indentation it met. -/
def readBreaks? (indent : Nat) :
    Nat → Nat → List Char → Cursor → Option (Nat × List Char × Cursor)
  | 0, _, _, _ => none
  | fuel + 1, widest, breaks, c =>
    let spaces := (c.takeWhile (· = ' ')).length
    let c := c.skip (if indent = 0 then spaces else min spaces (indent - c.column))
    let widest := max widest c.column
    match c.next? with
    | none => some (widest, breaks, c)
    | some x =>
      if x = '\t' && (indent = 0 || c.column < indent) then none
      else if isBreak x then readBreaks? indent fuel widest (breaks ++ c.lineBreak) c.skipLine
      else some (widest, breaks, c)

/-- The lines of a block, each indented by `indent`. A line break folds between two lines that both
start at the indentation with a character that is not blank. -/
def readLines? (folded : Bool) (indent : Nat) :
    Nat → List (List Char) → Bool → List Char → List Char → Cursor →
      Option (List (List Char) × List Char × List Char × Cursor)
  | 0, _, _, _, _, _ => none
  | fuel + 1, pieces, wasBlank, firstBreak, otherBreaks, c =>
    match c.next? with
    | none => some (pieces, firstBreak, otherBreaks, c)
    | some x =>
      if c.column ≠ indent then some (pieces, firstBreak, otherBreaks, c)
      else do
        let isBlankLine := isBlank x
        let between :=
          if folded && firstBreak = ['\n'] && !wasBlank && !isBlankLine then
            if otherBreaks.isEmpty then [' '] else otherBreaks
          else firstBreak ++ otherBreaks
        let line := c.takeWhile (!isBreak ·)
        let c := c.skip line.length
        let (_, breaks, d) ← readBreaks? indent (fuel + 1) 0 [] c.skipLine
        readLines? folded indent fuel (line :: between :: pieces) isBlankLine c.lineBreak breaks d

def read? (folded : Bool) (parent : Int) (fuel : Nat) (c : Cursor) :
    Option (List Char × Cursor) := do
  let (chomp, increment, c) ← readHeader? c
  let c := c.skipWhile isBlank
  let c := if c.isAt '#' then c.skipWhile (!isBreak ·) else c
  if !startsBlank c.rest then none
  else
    let c := c.skipLine
    let given : Nat := if increment = 0 then 0 else (max parent 0).toNat + increment
    let (widest, breaks, c) ← readBreaks? given fuel 0 [] c
    let indent : Nat := if given = 0 then max widest (max (parent + 1) 1).toNat else given
    let (pieces, firstBreak, otherBreaks, c) ← readLines? folded indent fuel [] false [] breaks c
    let tail := match chomp with
      | .strip => []
      | .clip => firstBreak
      | .keep => firstBreak ++ otherBreaks
    some (join pieces ++ tail, c)

end Block

end Yaml

end ReplyCache
