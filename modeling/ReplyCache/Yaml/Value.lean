import ReplyCache.Yaml.Document
import ReplyCache.Yaml.Resolve

namespace ReplyCache

namespace Yaml

namespace Marks

def ownName? (m : Marks) : Option String :=
  match m.tag with
  | some (x :: name) => if x = Tag.ownMark then Text.Octets.string? name else none
  | _ => none

def isOwn (m : Marks) : Bool := m.ownName?.isSome

def commonTag? (m : Marks) : Option Text.Octets := m.tag.filter (·.head? ≠ some Tag.ownMark)

end Marks

namespace Node

mutual

/-- The parts of a node: a scalar and an alias are one, a collection has a start and an end besides
its parts. -/
def size : Node → Nat
  | scalar .. | aliasOf _ => 1
  | sequence _ items => 2 + sizeItems items
  | mapping _ entries => 2 + sizeEntries entries
  | broken => 0
termination_by structural n => n

def sizeItems : List Node → Nat
  | [] => 0
  | n :: ns => n.size + sizeItems ns
termination_by structural ns => ns

def sizeEntries : List (Node × Node) → Nat
  | [] => 0
  | e :: es => sizeEntry e + sizeEntries es
termination_by structural es => es

def sizeEntry : Node × Node → Nat
  | (k, v) => k.size + v.size
termination_by structural e => e

end

def noteAnchor (n : Node) (rest : List (Nat × Node)) : List (Nat × Node) :=
  match n.marks.anchor with
  | some number => (number, n) :: rest
  | none => rest

mutual

def anchored : Node → List (Nat × Node)
  | scalar m style text => noteAnchor (scalar m style text) []
  | sequence m items => noteAnchor (sequence m items) (anchoredItems items)
  | mapping m entries => noteAnchor (mapping m entries) (anchoredEntries entries)
  | aliasOf _ | broken => []
termination_by structural n => n

def anchoredItems : List Node → List (Nat × Node)
  | [] => []
  | n :: ns => n.anchored ++ anchoredItems ns
termination_by structural ns => ns

def anchoredEntries : List (Node × Node) → List (Nat × Node)
  | [] => []
  | e :: es => anchoredEntry e ++ anchoredEntries es
termination_by structural es => es

def anchoredEntry : Node × Node → List (Nat × Node)
  | (k, v) => k.anchored ++ v.anchored
termination_by structural e => e

end

end Node

namespace Document

def followsPerPart : Nat := 100

def mostFollows (d : Document) : Nat := followsPerPart * d.root.size

/-- The nodes with an anchor, each at its number; of several with one number the last. A number is
at most by one greater than all before it. -/
def targets (d : Document) : Array Node :=
  d.root.anchored.foldl
    (fun ts e => if h : e.1 < ts.size then ts.set e.1 e.2 h else ts.push e.2) #[]

end Document

/-- Reads from a document; the state is the number of aliases that may still be followed. -/
abbrev Following := StateT Nat Option

namespace Following

def fail : Following α := fun _ => none

def ofOption : Option α → Following α
  | some a => pure a
  | none => fail

def node (targets : Array Node) : Node → Following Node
  | .aliasOf number => fun
    | 0 => none
    | left + 1 => targets[number]?.map (·, left)
  | n => pure n

def text (targets : Array Node) (n : Node) : Following String := do
  match ← node targets n with
  | .scalar _ _ text => return text
  | _ => fail

/-- The value of a scalar. A quoted one or a block is text unless a tag tells otherwise. An own tag
that spells no text tells nothing. -/
def scalar (m : Marks) (style : Style) (text : String) : Following Json :=
  if m.isOwn then fail
  else match m.commonTag? with
    | some tag => ofOption (Resolve.tagged? tag text)
    | none => if style = .plain then ofOption (Resolve.value? text) else pure (.string text)

def value (targets : Array Node) : Nat → Node → Following Json
  | depth, n => do
    match ← node targets n, depth with
    | .scalar m style text, _ => scalar m style text
    | .sequence m items, depth + 1 =>
      if m.isOwn then fail
      else
        let vs ← items.mapM (value targets depth)
        return .array vs
    | .mapping m entries, depth + 1 =>
      if m.isOwn then fail
      else
        let es ← entries.mapM fun e => do
          let name ← text targets e.1
          let v ← value targets depth e.2
          return (name, v)
        return Json.ofMembers es
    | _, _ => fail

end Following

namespace Document

def deepest : Nat := 128

def toJson? (d : Document) : Option Json :=
  if d.complete then
    ((Following.value d.targets deepest d.root).run d.mostFollows).map (·.1)
  else none

end Document

end Yaml

namespace Json

def ofYaml? (s : String) : Option Json := (Yaml.Document.ofText s).toJson?

end Json

end ReplyCache
