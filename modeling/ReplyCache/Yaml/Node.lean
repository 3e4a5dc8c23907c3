import ReplyCache.Data.SortedMap
import ReplyCache.Yaml.Lexer

namespace ReplyCache

namespace Yaml

structure Marks where
  anchor : Option Nat := none
  tag : Option Text.Octets := none
  deriving DecidableEq, Inhabited

/-- Where the tokens stop making sense the tree goes on to `broken`, with everything read until then
in place. -/
inductive Node where
  | scalar (marks : Marks) (style : Style) (text : String)
  | sequence (marks : Marks) (items : List Node)
  | mapping (marks : Marks) (entries : List (Node × Node))
  | aliasOf (anchor : Nat)
  | broken
  deriving Inhabited

namespace Node

def empty (marks : Marks := {}) : Node := scalar marks .plain ""

def marks : Node → Marks
  | scalar m _ _ | sequence m _ | mapping m _ => m
  | aliasOf _ | broken => {}

/-- What is still to be read, and the numbers of the anchors met so far. -/
structure Source where
  tokens : List Token
  anchors : SortedMap Nat

abbrev Reading := StateM Source

def peek : Reading (Option Token) := do return (← get).tokens.head?

def skip : Reading Unit := modify fun s => { s with tokens := s.tokens.drop 1 }

def stop : Reading Node := do
  modify fun s => { s with tokens := [] }
  return broken

structure Written where
  anchor : Option String
  tag : Option (String × Text.Octets)

def readAnchor? : Reading (Option String) := do
  match ← peek with
  | some (.anchor name) =>
    skip
    return some name
  | _ => return none

def readTag? : Reading (Option (String × Text.Octets)) := do
  match ← peek with
  | some (.tag handle suffix) =>
    skip
    return some (handle, suffix)
  | _ => return none

def readWritten : Reading Written := do
  let first ← readAnchor?
  let tag ← readTag?
  match first, tag with
  | none, some _ => return ⟨← readAnchor?, tag⟩
  | _, _ => return ⟨first, tag⟩

def expand? (handles : SortedMap Text.Octets) : String × Text.Octets → Option Text.Octets
  | (handle, suffix) =>
    if handle.isEmpty then some suffix else (handles.get? handle).map (· ++ suffix)

def register (anchor : Option String) (tag : Option Text.Octets) : Reading Marks := do
  match anchor with
  | none => return ⟨none, tag⟩
  | some name =>
    let s ← get
    let number := s.anchors.entries.length
    set { s with anchors := s.anchors.insert name number }
    return ⟨some number, tag⟩

def leftOut (anchor : Option String) (tag : Option Text.Octets) : Reading Node := do
  if anchor.isSome || tag.isSome then return empty (← register anchor tag) else stop

/-- Whether a token ends what stands behind a dash of a sequence that is not indented by itself. -/
def endsIndentless : Token → Bool
  | .blockEntry | .key | .value | .blockEnd => true
  | _ => false

def endsBlockPart : Token → Bool
  | .key | .value | .blockEnd => true
  | _ => false

mutual

/-- A node. `block` admits blocks, and `indentless` a sequence whose dashes stand where they are. -/
def readNode (handles : SortedMap Text.Octets) : Nat → Bool → Bool → Reading Node
  | 0, _, _ => stop
  | fuel + 1, block, indentless => do
    match ← peek with
    | some (.aliasOf name) =>
      skip
      match (← get).anchors.get? name with
      | some number => return aliasOf number
      | none => stop
    | _ =>
      let written ← readWritten
      match written.tag.map (expand? handles) with
      | some none => stop
      | tag =>
        let tag := tag.bind id
        match ← peek with
        | none => stop
        | some .blockEntry =>
          if indentless then
            let marks ← register written.anchor tag
            return sequence marks (← readIndentless handles fuel)
          else leftOut written.anchor tag
        | some (.scalar style text) =>
          skip
          let marks ← register written.anchor tag
          return scalar marks style text
        | some .flowSequenceStart =>
          skip
          let marks ← register written.anchor tag
          return sequence marks (← readFlowItems handles fuel true)
        | some .flowMappingStart =>
          skip
          let marks ← register written.anchor tag
          return mapping marks (← readFlowEntries handles fuel true)
        | some .blockSequenceStart =>
          if block then
            skip
            let marks ← register written.anchor tag
            return sequence marks (← readBlockItems handles fuel)
          else leftOut written.anchor tag
        | some .blockMappingStart =>
          if block then
            skip
            let marks ← register written.anchor tag
            return mapping marks (← readBlockEntries handles fuel)
          else leftOut written.anchor tag
        | some _ => leftOut written.anchor tag
termination_by structural fuel => fuel

def readBlockItems (handles : SortedMap Text.Octets) : Nat → Reading (List Node)
  | 0 => return [← stop]
  | fuel + 1 => do
    match ← peek with
    | some .blockEntry =>
      skip
      let item ← match ← peek with
        | none => stop
        | some .blockEntry | some .blockEnd => pure empty
        | some _ => readNode handles fuel true false
      return item :: (← readBlockItems handles fuel)
    | some .blockEnd =>
      skip
      return []
    | _ => return [← stop]
termination_by structural fuel => fuel

def readIndentless (handles : SortedMap Text.Octets) : Nat → Reading (List Node)
  | 0 => return [← stop]
  | fuel + 1 => do
    match ← peek with
    | none => return [← stop]
    | some .blockEntry =>
      skip
      let item ← match ← peek with
        | none => stop
        | some t => if endsIndentless t then pure empty else readNode handles fuel true false
      return item :: (← readIndentless handles fuel)
    | some _ => return []
termination_by structural fuel => fuel

def readBlockEntries (handles : SortedMap Text.Octets) : Nat → Reading (List (Node × Node))
  | 0 => return [(← stop, broken)]
  | fuel + 1 => do
    match ← peek with
    | some .key =>
      skip
      let key ← readBlockPart handles fuel
      let value ← readBlockValue handles fuel
      return (key, value) :: (← readBlockEntries handles fuel)
    | some .blockEnd =>
      skip
      return []
    | _ => return [(← stop, broken)]
termination_by structural fuel => fuel

def readBlockValue (handles : SortedMap Text.Octets) : Nat → Reading Node
  | 0 => stop
  | fuel + 1 => do
    match ← peek with
    | none => stop
    | some .value =>
      skip
      readBlockPart handles fuel
    | some _ => return empty
termination_by structural fuel => fuel

def readBlockPart (handles : SortedMap Text.Octets) : Nat → Reading Node
  | 0 => stop
  | fuel + 1 => do
    match ← peek with
    | none => stop
    | some t => if endsBlockPart t then return empty else readNode handles fuel true true
termination_by structural fuel => fuel

def readFlowItems (handles : SortedMap Text.Octets) : Nat → Bool → Reading (List Node)
  | 0, _ => return [← stop]
  | fuel + 1, first => do
    match ← peek with
    | none => return [← stop]
    | some .flowSequenceEnd =>
      skip
      return []
    | some t =>
      if !first && t ≠ .flowEntry then return [← stop]
      else
        if !first then skip
        match ← peek with
        | none => return [← stop]
        | some .flowSequenceEnd =>
          skip
          return []
        | some .key =>
          skip
          let key ← readPairKey handles fuel
          let value ← readPairValue handles fuel
          return mapping {} [(key, value)] :: (← readFlowItems handles fuel false)
        | some _ =>
          let item ← readNode handles fuel false false
          return item :: (← readFlowItems handles fuel false)
termination_by structural fuel => fuel

/-- The key of a pair that stands as an item of a sequence. Where it is left out the token in its
place is passed over. -/
def readPairKey (handles : SortedMap Text.Octets) : Nat → Reading Node
  | 0 => stop
  | fuel + 1 => do
    match ← peek with
    | none => stop
    | some .value | some .flowEntry | some .flowSequenceEnd =>
      skip
      return empty
    | some _ => readNode handles fuel false false
termination_by structural fuel => fuel

def readPairValue (handles : SortedMap Text.Octets) : Nat → Reading Node
  | 0 => stop
  | fuel + 1 => do
    match ← peek with
    | none => stop
    | some .value =>
      skip
      match ← peek with
      | none => stop
      | some .flowEntry | some .flowSequenceEnd => return empty
      | some _ => readNode handles fuel false false
    | some _ => return empty
termination_by structural fuel => fuel

def readFlowEntries (handles : SortedMap Text.Octets) : Nat → Bool → Reading (List (Node × Node))
  | 0, _ => return [(← stop, broken)]
  | fuel + 1, first => do
    match ← peek with
    | none => return [(← stop, broken)]
    | some .flowMappingEnd =>
      skip
      return []
    | some t =>
      if !first && t ≠ .flowEntry then return [(← stop, broken)]
      else
        if !first then skip
        match ← peek with
        | none => return [(← stop, broken)]
        | some .flowMappingEnd =>
          skip
          return []
        | some .key =>
          skip
          let key ← match ← peek with
            | none => stop
            | some .value | some .flowEntry | some .flowMappingEnd => pure empty
            | some _ => readNode handles fuel false false
          let value ← readFlowValue handles fuel
          return (key, value) :: (← readFlowEntries handles fuel false)
        | some _ =>
          let key ← readNode handles fuel false false
          let value ← match ← peek with
            | none => stop
            | some _ => pure empty
          return (key, value) :: (← readFlowEntries handles fuel false)
termination_by structural fuel => fuel

def readFlowValue (handles : SortedMap Text.Octets) : Nat → Reading Node
  | 0 => stop
  | fuel + 1 => do
    match ← peek with
    | none => stop
    | some .value =>
      skip
      match ← peek with
      | none => stop
      | some .flowEntry | some .flowMappingEnd => return empty
      | some _ => readNode handles fuel false false
    | some _ => return empty
termination_by structural fuel => fuel

end

end Node

end Yaml

end ReplyCache
