import ReplyCache.Json.Basic
import ReplyCache.Json.Literal

namespace ReplyCache

namespace Json

/-- JSON text, with what matters only to a reader that looks at it: members in the order written,
repeated ones too, numbers outside the range of numbers and strings with a lone surrogate. A text
that stops being JSON gives the tree up to that point, with `broken` where it goes on to something
else. -/
inductive Tree where
  | null
  | bool (value : Bool)
  | number (value : Option Number)
  | string (value : Option String)
  | array (items : List Tree)
  | object (members : List (Tree × Tree))
  | broken
  deriving Inhabited

namespace Tree

def isBlank (c : Char) : Bool := c = ' ' || c = '\t' || c = '\n' || c = '\r'

def skipBlanks (cs : List Char) : List Char := cs.dropWhile isBlank

def readHex4? : List Char → Option (Nat × List Char)
  | a :: b :: c :: d :: rest => (Text.natural? 16 [a, b, c, d]).map (·, rest)
  | _ => none

def escaped? : Char → Option Char
  | '"' => some '"'
  | '\\' => some '\\'
  | '/' => some '/'
  | 'b' => some '\x08'
  | 'f' => some '\x0c'
  | 'n' => some '\n'
  | 'r' => some '\r'
  | 't' => some '\t'
  | _ => none

/-- The code points of a string up to its closing quote, surrogates apart, and what follows it. -/
def readCodes? : Nat → List Char → Option (List Nat × List Char)
  | 0, _ => none
  | fuel + 1, cs =>
    match cs with
    | '"' :: rest => some ([], rest)
    | '\\' :: 'u' :: rest => do
      let (n, rest) ← readHex4? rest
      let (ns, rest) ← readCodes? fuel rest
      some (n :: ns, rest)
    | '\\' :: e :: rest => do
      let c ← escaped? e
      let (ns, rest) ← readCodes? fuel rest
      some (c.toNat :: ns, rest)
    | c :: rest =>
      if c.toNat < 32 then none
      else do
        let (ns, rest) ← readCodes? fuel rest
        some (c.toNat :: ns, rest)
    | [] => none

def isLeading (n : Nat) : Bool := 0xD800 ≤ n && n < 0xDC00

def isTrailing (n : Nat) : Bool := 0xDC00 ≤ n && n < 0xE000

/-- Joins pairs of surrogates; a lone one is no character. -/
def joinCodes? : List Nat → Option (List Char)
  | [] => some []
  | n :: ns =>
    if isTrailing n then none
    else if isLeading n then
      match ns with
      | m :: ms =>
        if isTrailing m then
          (joinCodes? ms).map (Char.ofNat (0x10000 + (n - 0xD800) * 0x400 + (m - 0xDC00)) :: ·)
        else none
      | [] => none
    else (joinCodes? ns).map (Char.ofNat n :: ·)

def readString (cs : List Char) : Tree × Option (List Char) :=
  match readCodes? (cs.length + 1) cs with
  | some (ns, rest) => (string ((joinCodes? ns).map String.ofList), some rest)
  | none => (broken, none)

def readNumber (cs : List Char) : Tree × Option (List Char) :=
  match Literal.read? cs with
  | some (l, rest) => (number l.value?, some rest)
  | none => (broken, none)

mutual

def readValue : Nat → List Char → Tree × Option (List Char)
  | 0, _ => (broken, none)
  | fuel + 1, cs =>
    match skipBlanks cs with
    | 'n' :: 'u' :: 'l' :: 'l' :: rest => (null, some rest)
    | 't' :: 'r' :: 'u' :: 'e' :: rest => (bool true, some rest)
    | 'f' :: 'a' :: 'l' :: 's' :: 'e' :: rest => (bool false, some rest)
    | '"' :: rest => readString rest
    | '[' :: rest =>
      match skipBlanks rest with
      | ']' :: rest => (array [], some rest)
      | rest =>
        let (items, rest) := readItems fuel rest
        (array items, rest)
    | '{' :: rest =>
      match skipBlanks rest with
      | '}' :: rest => (object [], some rest)
      | rest =>
        let (members, rest) := readMembers fuel rest
        (object members, rest)
    | rest => readNumber rest
termination_by structural fuel => fuel

def readItems : Nat → List Char → List Tree × Option (List Char)
  | 0, _ => ([broken], none)
  | fuel + 1, cs =>
    match readValue fuel cs with
    | (x, none) => ([x], none)
    | (x, some rest) =>
      match skipBlanks rest with
      | ',' :: rest =>
        let (xs, rest) := readItems fuel rest
        (x :: xs, rest)
      | ']' :: rest => ([x], some rest)
      | _ => ([x, broken], none)
termination_by structural fuel => fuel

def readMembers : Nat → List Char → List (Tree × Tree) × Option (List Char)
  | 0, _ => ([(broken, broken)], none)
  | fuel + 1, cs =>
    match readMember fuel cs with
    | (m, none) => ([m], none)
    | (m, some rest) =>
      match skipBlanks rest with
      | ',' :: rest =>
        let (ms, rest) := readMembers fuel rest
        (m :: ms, rest)
      | '}' :: rest => ([m], some rest)
      | _ => ([m, (broken, broken)], none)
termination_by structural fuel => fuel

def readMember : Nat → List Char → (Tree × Tree) × Option (List Char)
  | 0, _ => ((broken, broken), none)
  | fuel + 1, cs =>
    match skipBlanks cs with
    | '"' :: rest =>
      match readString rest with
      | (name, none) => ((name, broken), none)
      | (name, some rest) =>
        match skipBlanks rest with
        | ':' :: rest =>
          let (v, rest) := readValue fuel rest
          ((name, v), rest)
        | _ => ((name, broken), none)
    | _ => ((broken, broken), none)
termination_by structural fuel => fuel

end

/-- Steps enough for a text: a level of nesting takes three of them and at least one character. -/
def fuel (cs : List Char) : Nat := 3 * cs.length + 3

def ofChars (cs : List Char) : Tree × Bool :=
  match readValue (fuel cs) cs with
  | (t, some rest) => (t, (skipBlanks rest).isEmpty)
  | (t, none) => (t, false)

mutual

/-- The value that a tree stands for, if it nests at most `depth` levels and has one. Of two members
with one name the later counts. -/
def toJson? : Nat → Tree → Option Json
  | _, null => some .null
  | _, bool b => some (.bool b)
  | _, number n => n.map .number
  | _, string s => s.map .string
  | 0, array _ | 0, object _ => none
  | depth + 1, array items => (itemsToJson? depth items).map .array
  | depth + 1, object members => (membersToJson? depth members).map Json.ofMembers
  | _, broken => none
termination_by structural _ t => t

def itemsToJson? : Nat → List Tree → Option (List Json)
  | _, [] => some []
  | depth, x :: xs => do
    let v ← toJson? depth x
    let vs ← itemsToJson? depth xs
    some (v :: vs)
termination_by structural _ xs => xs

def membersToJson? : Nat → List (Tree × Tree) → Option (List (String × Json))
  | _, [] => some []
  | depth, m :: ms => do
    let e ← memberToJson? depth m
    let es ← membersToJson? depth ms
    some (e :: es)
termination_by structural _ ms => ms

def memberToJson? : Nat → Tree × Tree → Option (String × Json)
  | depth, (string (some name), t) => (toJson? depth t).map (name, ·)
  | _, _ => none
termination_by structural _ m => m

end

end Tree

def deepest : Nat := 127

def ofText? (s : String) : Option Json :=
  match Tree.ofChars s.toList with
  | (t, true) => t.toJson? deepest
  | (_, false) => none

end Json

end ReplyCache
