import ReplyCache.Digest.Sha256
import ReplyCache.Json.Printer
import ReplyCache.Key.Params

namespace ReplyCache

structure Key where
  text : String
  deriving DecidableEq, Inhabited

namespace Key

/-- What stands before the first colon, if there is one. -/
def namespace? (k : Key) : Option String :=
  if k.text.toList.contains ':' then some (String.ofList (k.text.toList.takeWhile (· ≠ ':')))
  else none

end Key

namespace Call

def modelGroupName : String := "model_group"

def sharedGroupsName : String := "caching_groups"

def checksumName : String := "file_checksum"

def fileNameName : String := "file_name"

def handleNameName : String := "name"

/-- A field of the metadata that is not `null`; metadata within the runtime parameters count
first. -/
def resolve? (c : Call) (field : String) : Option Json :=
  let nested := ((c.runtime?.bind (Members.get? metadataName)).bind Json.object?).bind
    (Members.get? field)
  (nested.bind Json.nonNull?).or ((c.metadata?.bind (Members.get? field)).bind Json.nonNull?)

end Call

namespace Rendering

def ofJson : Json → String
  | .string s => s
  | v => v.text

def hasMember (group : String) : Json → Bool
  | .array members => members.any fun m => m.string? == some group
  | _ => false

def sharedGroup? (c : Call) (group : String) : Option Json :=
  ((c.resolve? Call.sharedGroupsName).bind Json.array?).bind fun gs => gs.find? (hasMember group)

/-- A model in a group is told by the list its group shares replies in, else by the group. -/
def ofModel (c : Call) (model : Json) : Option String :=
  match (c.resolve? Call.modelGroupName).bind Json.string? with
  | some group => some (((sharedGroup? c group).map Json.text).getD group)
  | none => model.nonNull?.map ofJson

def handleName? : Json → Option String
  | .string path => some path
  | .object handle => (Members.get? Call.handleNameName handle).bind Json.string?
  | _ => none

def ofFile (c : Call) (file : Json) : String :=
  ((((c.metadataString? Call.checksumName).or (handleName? file)).or
    (c.metadataString? Call.fileNameName)).or (c.runtimeString? Call.fileNameName)).getD "None"

/-- The rendering of a feeding parameter, if the call has it. A model or file that is `null` is
still told by what identifies it. -/
def ofParam? (c : Call) (name : String) : Option String :=
  if name = Param.modelName then (c.get? name).bind (ofModel c)
  else if name = Param.fileName then (c.get? name).map (ofFile c)
  else (c.given? name).map ofJson

end Rendering

structure Scheme where
  space : Option String := none
  inclusive : Bool := false
  deriving DecidableEq, Inhabited

namespace Scheme

def feedingSegments (c : Call) : List (String × String) :=
  Param.feeding.filterMap fun n => (Rendering.ofParam? c n).map (n, ·)

def specificSegments (c : Call) : List (String × String) :=
  (c.params.entries.filter fun e => Param.isSpecific e.1).filterMap fun e =>
    e.2.nonNull?.map fun v => (e.1, Rendering.ofJson v)

def segments (s : Scheme) (c : Call) : List (String × String) :=
  feedingSegments c ++ if s.inclusive then specificSegments c else []

def segmentText (e : String × String) : String := e.1 ++ ": " ++ e.2

/-- One segment, `name: rendering`, for each parameter that feeds the key, in a fixed order; a
parameter that is absent or `null` has none. -/
def canonical (s : Scheme) (c : Call) : String := String.join ((s.segments c).map segmentText)

/-- The namespace that a call's key is put in: its own counts before the scheme's. -/
def spaceOf (s : Scheme) (c : Call) : Option String := c.ownNamespace?.or s.space

def digest (s : Scheme) (c : Call) : String := Sha256.hex (s.canonical c)

def qualify (space : Option String) (digest : String) : Key :=
  match space with
  | some n => ⟨n ++ ":" ++ digest⟩
  | none => ⟨digest⟩

/-- A key that the caller gives is taken as it is. -/
def key (s : Scheme) (c : Call) : Key :=
  match c.ownKey? with
  | some text => ⟨text⟩
  | none => qualify (s.spaceOf c) (s.digest c)

end Scheme

end ReplyCache
