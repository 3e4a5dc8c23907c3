import ReplyCache.Settings.Reader
import ReplyCache.Yaml.Value

namespace ReplyCache

namespace Settings

open Reading (ofOption refuse)

open Yaml (Node Style Following)

namespace YamlFormat

def deepest : Nat := Yaml.Document.deepest - 2

def ofFollowing (f : Following α) : Reading α := fun left =>
  match f left with
  | some r => .ok r
  | none => .error .malformed

variable (targets : Array Node)

def node (n : Node) : Reading Node := ofFollowing (Following.node targets n)

def isLeftOut (style : Style) (text : String) : Bool := style = .plain && text.isEmpty

def shape (n : Node) : Reading (Shape Node) := do
  match ← node targets n with
  | .mapping _ entries => return .members entries
  | .scalar _ style text =>
    if isLeftOut style text then return .members [] else refuse (.misplaced text)
  | _ => refuse

def text (n : Node) : Reading String := ofFollowing (Following.text targets n)

def isNothing (style : Style) (text : String) : Bool :=
  style = .plain && (text.isEmpty || Yaml.Resolve.isNull text)

def tag (n : Node) : Reading String := do
  match ← node targets n with
  | .scalar m style text =>
    match m.ownName? with
    | some name => if isNothing style text then return name else refuse
    | none => return text
  | _ => refuse

def given? (n : Node) : Reading (Option Node) := do
  match ← node targets n with
  | .scalar m style text =>
    if style ≠ .plain then return some (.scalar m style text)
    else match m.tag with
      | some tag =>
        if tag = Yaml.Resolve.nullTag then
          if Yaml.Resolve.isNull text then return none else refuse (.misplaced text)
        else return some (.scalar m style text)
      | none => if isNothing style text then return none else return some (.scalar m style text)
  | n => return some n

/-- The text of a scalar that may be a number or a flag: a plain one, or a block with that tag. -/
def bare (tag : Text.Octets) (n : Node) : Reading String := do
  match ← node targets n with
  | .scalar m style text =>
    if style = .plain || (style = .literal && m.tag = some tag) then return text
    else refuse (.misplaced text)
  | _ => refuse

def number (n : Node) : Reading Float := do
  let text ← bare targets Yaml.Resolve.floatTag n
  ofOption (Yaml.Resolve.float? text) (.misplaced text)

def natural (n : Node) : Reading Nat := do
  let text ← bare targets Yaml.Resolve.intTag n
  let number? := if text.startsWith "-" then none else Yaml.Resolve.int? text
  ofOption (number?.map Int.toNat) (.misplaced text)

def flag (n : Node) : Reading Bool := do
  let text ← bare targets Yaml.Resolve.boolTag n
  ofOption (Yaml.Resolve.bool? text) (.misplaced text)

def items (n : Node) : Reading (List Node) := do
  match ← node targets n with
  | .sequence _ items => return items
  | .scalar _ style text =>
    if isLeftOut style text then return [] else refuse (.misplaced text)
  | _ => refuse

def values (n : Node) : Reading (SortedMap Json) := do
  match ← node targets n with
  | .mapping _ entries =>
    let es ← ofFollowing (entries.mapM fun e => do
      let name ← Following.text targets e.1
      let v ← Following.value targets deepest e.2
      return (name, v))
    return SortedMap.ofList es
  | .scalar _ style text =>
    if isLeftOut style text then return SortedMap.empty else refuse (.misplaced text)
  | _ => refuse

def format : Format Node where
  shape := shape targets
  text := text targets
  tag := tag targets
  given? := given? targets
  number := number targets
  natural := natural targets
  flag := flag targets
  items := items targets
  values := values targets

end YamlFormat

def ofYaml (text : String) : Except Fault Settings :=
  let d := Yaml.Document.ofText text
  (YamlFormat.format d.targets).ofTree "cache_config_yaml" d.root d.complete d.mostFollows

end Settings

end ReplyCache
