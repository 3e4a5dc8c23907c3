import ReplyCache.Yaml.Tag

namespace ReplyCache

namespace Yaml

/-- Where a key may have started. -/
structure Candidate where
  number : Nat
  index : Nat
  line : Nat
  column : Nat
  /-- In a block mapping only a key can start at the indentation. -/
  required : Bool

/-- Whether a scalar or a collection is a key shows only when a colon follows it on the same line.
So the places where a key may have started are remembered as candidates, one for every flow
collection that is open, and a colon puts the mark in front of what has been read since. -/
structure Lexer where
  cursor : Cursor
  isCut : Bool := false
  tokens : List Token := []
  count : Nat := 0
  indent : Int := -1
  outerIndents : List Int := []
  mayStartKey : Bool := true
  candidate : Option Candidate := none
  outerCandidates : List (Option Candidate) := []

namespace Lexer

def longestKey : Nat := 1024

def inFlow (l : Lexer) : Bool := !l.outerCandidates.isEmpty

def emit (l : Lexer) (t : Token) : Lexer := { l with tokens := t :: l.tokens, count := l.count + 1 }

def insert (l : Lexer) (number : Nat) (t : Token) : Lexer :=
  let later := l.count - number
  { l with tokens := l.tokens.take later ++ t :: l.tokens.drop later, count := l.count + 1 }

def skip (l : Lexer) (n : Nat := 1) : Lexer := { l with cursor := l.cursor.skip n }

def allowKey (l : Lexer) (allowed : Bool) : Lexer := { l with mayStartKey := allowed }

def unrollFrom (column : Int) : List Int → Lexer → Lexer
  | [], l => l
  | i :: is, l =>
    if l.indent ≤ column then l
    else unrollFrom column is { l.emit .blockEnd with indent := i, outerIndents := is }

def unroll (l : Lexer) (column : Int) : Lexer :=
  if l.inFlow then l else unrollFrom column l.outerIndents l

/-- Starts a block if it is indented deeper than the one around it. The start goes to the end or
behind the first `number` tokens. -/
def roll (l : Lexer) (column : Nat) (number : Option Nat) (start : Token) : Lexer :=
  if l.inFlow || column ≤ l.indent then l
  else
    let l := { l with indent := column, outerIndents := l.indent :: l.outerIndents }
    match number with
    | some n => l.insert n start
    | none => l.emit start

/-- Gives up the candidate, unless it has to be a key. -/
def dropCandidate? (l : Lexer) : Option Lexer :=
  if (l.candidate.map (·.required)).getD false then none else some { l with candidate := none }

def saveCandidate? (l : Lexer) : Option Lexer :=
  if l.mayStartKey then do
    let c := l.cursor
    let candidate : Candidate :=
      ⟨l.count, c.index, c.line, c.column, !l.inFlow && l.indent = (c.column : Int)⟩
    let l ← l.dropCandidate?
    some { l with candidate := some candidate }
  else some l

def isStale (l : Lexer) (k : Candidate) : Bool :=
  k.line < l.cursor.line || k.index + longestKey < l.cursor.index

def candidates (l : Lexer) : List (Option Candidate) := l.candidate :: l.outerCandidates

def lacksKey (l : Lexer) : Bool :=
  l.candidates.any fun | some k => k.required && l.isStale k | none => false

def settled (l : Lexer) : Nat :=
  ((l.candidates.filterMap id).filter (!l.isStale ·)).foldl (fun n k => min n k.number) l.count

def byteOrderMark : Char := '\ufeff'

/-- Goes to the next token, over blanks, breaks and comments, and over a byte order mark at the
start of a line. In a block no tab may stand where a key may start. -/
def skipSpace : Nat → Lexer → Lexer
  | 0, l => l
  | fuel + 1, l =>
    let l := if l.cursor.column = 0 && l.cursor.isAt byteOrderMark then l.skip else l
    let tabs := l.inFlow || !l.mayStartKey
    let c := l.cursor.skipWhile fun x => x = ' ' || (tabs && x = '\t')
    let c := if c.isAt '#' then c.skipWhile (!isBreak ·) else c
    match c.next? with
    | none => { l with cursor := c }
    | some x =>
      if isBreak x then
        skipSpace fuel { l with cursor := c.skipLine, mayStartKey := l.mayStartKey || !l.inFlow }
      else { l with cursor := c }

def outermost? (l : Lexer) : Option Lexer := do
  let l ← (l.unroll (-1)).dropCandidate?
  some (l.allowKey false)

def streamEnd? (l : Lexer) : Option Lexer := do
  let l ← { l with cursor := l.cursor.endLine }.outermost?
  some (l.emit .streamEnd)

def directive? (fuel : Nat) (l : Lexer) : Option Lexer := do
  let l ← l.outermost?
  let (t, c) ← Directive.read? fuel l.cursor
  some { l.emit t with cursor := c }

def documentMark? (t : Token) (l : Lexer) : Option Lexer := do
  let l ← l.outermost?
  some ((l.skip 3).emit t)

def flowStart? (t : Token) (l : Lexer) : Option Lexer := do
  let l ← l.saveCandidate?
  let l := { l with candidate := none, outerCandidates := l.candidate :: l.outerCandidates }
  some ((l.allowKey true).skip.emit t)

def flowEnd? (t : Token) (l : Lexer) : Option Lexer := do
  let l ← l.dropCandidate?
  let l := match l.outerCandidates with
    | [] => l
    | k :: ks => { l with candidate := k, outerCandidates := ks }
  some ((l.allowKey false).skip.emit t)

def flowEntry? (l : Lexer) : Option Lexer := do
  let l ← l.dropCandidate?
  some ((l.allowKey true).skip.emit .flowEntry)

/-- Opens the block that a mark at the cursor stands in; in a block the mark must stand where a key
may start. -/
def rollHere? (start : Token) (l : Lexer) : Option Lexer :=
  if l.inFlow || l.mayStartKey then some (l.roll l.cursor.column none start) else none

def blockEntry? (l : Lexer) : Option Lexer := do
  let l ← l.rollHere? .blockSequenceStart
  let l ← l.dropCandidate?
  some ((l.allowKey true).skip.emit .blockEntry)

def key? (l : Lexer) : Option Lexer := do
  let l ← l.rollHere? .blockMappingStart
  let l ← l.dropCandidate?
  some ((l.allowKey !l.inFlow).skip.emit .key)

def value? (l : Lexer) : Option Lexer :=
  match l.candidate.filter (!l.isStale ·) with
  | some k =>
    let l := (l.insert k.number .key).roll k.column (some k.number) .blockMappingStart
    some (({ l with candidate := none }.allowKey false).skip.emit .value)
  | none => do
    let l ← l.rollHere? .blockMappingStart
    some ((l.allowKey !l.inFlow).skip.emit .value)

def nodePart? (l : Lexer) (read : Cursor → Option (Token × Cursor)) : Option Lexer := do
  let l ← l.saveCandidate?
  let (t, c) ← read l.cursor
  some { (l.allowKey false).emit t with cursor := c }

def named? (token : String → Token) (c : Cursor) : Option (Token × Cursor) :=
  (Anchor.read? c.skip).map fun (name, c) => (token name, c)

def quoted? (fuel : Nat) (single : Bool) (c : Cursor) : Option (Token × Cursor) :=
  (Quoted.read? single fuel [] c.skip).map fun (text, c) =>
    (.scalar (if single then .single else .double) (String.ofList text), c)

def block? (fuel : Nat) (folded : Bool) (l : Lexer) : Option Lexer := do
  let l ← l.dropCandidate?
  let (text, c) ← Block.read? folded l.indent fuel l.cursor.skip
  let token := Token.scalar (if folded then .folded else .literal) (String.ofList text)
  some { (l.allowKey true).emit token with cursor := c }

def plain? (fuel : Nat) (l : Lexer) : Option Lexer := do
  let l ← l.saveCandidate?
  let (text, endsLine, c) ← Plain.read? l.inFlow (l.indent + 1) fuel [] {} l.cursor
  some { (l.allowKey endsLine).emit (.scalar .plain (String.ofList text)) with cursor := c }

def isIndicator (c : Char) : Bool := "-?:,[]\x7b\x7d#&*!|>'\"%@\x60".toList.contains c

def startsPlain (inFlow : Bool) (x : Char) (rest : List Char) : Bool :=
  !(isSpace x || isIndicator x) || (x = '-' && !(rest.head?.map isBlank).getD false) ||
    (!inFlow && (x = '?' || x = ':') && !startsBlank rest)

def token? (fuel : Nat) (l : Lexer) : Option Lexer :=
  let c := l.cursor
  match c.rest with
  | [] => l.streamEnd?
  | x :: rest =>
    if c.column = 0 && x = '%' then l.directive? fuel
    else if c.isAtMark '-' then l.documentMark? .documentStart
    else if c.isAtMark '.' then l.documentMark? .documentEnd
    else if x = '[' then l.flowStart? .flowSequenceStart
    else if x = '{' then l.flowStart? .flowMappingStart
    else if x = ']' then l.flowEnd? .flowSequenceEnd
    else if x = '}' then l.flowEnd? .flowMappingEnd
    else if x = ',' then l.flowEntry?
    else if x = '-' && startsBlank rest then l.blockEntry?
    else if x = '?' && (l.inFlow || startsBlank rest) then l.key?
    else if x = ':' && (l.inFlow || startsBlank rest) then l.value?
    else if x = '*' then l.nodePart? (named? .aliasOf)
    else if x = '&' then l.nodePart? (named? .anchor)
    else if x = '!' then l.nodePart? (Tag.read? l.inFlow fuel)
    else if x = '|' && !l.inFlow then l.block? fuel false
    else if x = '>' && !l.inFlow then l.block? fuel true
    else if x = '\'' then l.nodePart? (quoted? fuel true)
    else if x = '"' then l.nodePart? (quoted? fuel false)
    else if startsPlain l.inFlow x rest then l.plain? fuel
    else none

def lookahead : Nat := 4

def sees (l : Lexer) (n : Nat) : Bool := !l.isCut || (l.cursor.rest.take n).length = n

/-- Reads on to the next token. What follows a token must be known too, and no key be missing. -/
def step? (fuel : Nat) (l : Lexer) : Option Lexer := do
  let l := skipSpace fuel l
  if l.lacksKey || !l.sees lookahead then none
  else
    let l ← (l.unroll l.cursor.column).token? fuel
    if l.lacksKey || !l.sees 1 then none else some l

def run (width : Nat) : Nat → Lexer → List Token
  | 0, l => l.tokens.reverse
  | fuel + 1, l =>
    match l.step? width with
    | none => (l.tokens.drop (l.count - l.settled)).reverse
    | some m => if m.tokens.head? = some .streamEnd then m.tokens.reverse else run width fuel m

end Lexer

namespace Token

def chunk : Nat := 0x4000

/-- How many characters stand before the chunk with the first one that no YAML text may hold, if
there is one. The chunk at hand starts at `start`, the next character stands at `place`, and `used`
octets lie between them. -/
def cut? (start place used : Nat) : List Char → Option Nat
  | [] => none
  | c :: cs =>
    let isNew := chunk < used + c.utf8Size
    let start := if isNew then place else start
    let used := if isNew then 0 else used
    if isPrintable c then cut? start (place + 1) (used + c.utf8Size) cs else some start

def ofText (s : String) : List Token :=
  let cs := s.toList
  let fuel := cs.length + 2
  match cut? 0 0 0 cs with
  | none => Lexer.run fuel fuel { cursor := { rest := cs } }
  | some n => Lexer.run fuel fuel { cursor := { rest := cs.take n }, isCut := true }

end Token

end Yaml

end ReplyCache
