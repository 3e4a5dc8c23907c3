import ReplyCache.Call.Directives
import ReplyCache.Call.Task

namespace ReplyCache

structure Call where
  params : SortedMap Json
  deriving DecidableEq

namespace Call

def metadataName : String := "metadata"

def runtimeName : String := "runtime_params"

def directivesName : String := "cache"

def keyName : String := "cache_key"

def taskName : String := "call_kind"

def inputName : String := "input"

def presetKeyName : String := "preset_cache_key"

def namespaceName : String := "namespace"

def oldNamespaceName : String := "redis_namespace"

def empty : Call := ⟨SortedMap.empty⟩

instance : Inhabited Call := ⟨empty⟩

def ofJson? : Json → Option Call
  | .object members => some ⟨SortedMap.ofList members⟩
  | _ => none

def toJson (c : Call) : Json := Json.ofMap c.params

def insert (c : Call) (name : String) (value : Json) : Call := ⟨c.params.insert name value⟩

def get? (c : Call) (name : String) : Option Json := c.params.get? name

def given? (c : Call) (name : String) : Option Json := (c.get? name).bind Json.nonNull?

def metadata? (c : Call) : Option (List (String × Json)) := (c.get? metadataName).bind Json.object?

def runtime? (c : Call) : Option (List (String × Json)) := (c.get? runtimeName).bind Json.object?

def metadataString? (c : Call) (name : String) : Option String :=
  (c.metadata?.bind (Members.get? name)).bind Json.string?

def runtimeString? (c : Call) (name : String) : Option String :=
  (c.runtime?.bind (Members.get? name)).bind Json.string?

def directives (c : Call) : Directives :=
  match c.get? directivesName with
  | some v => Directives.ofJson v
  | none => {}

def task? (c : Call) : Option Task :=
  ((c.get? taskName).bind Json.string?).bind fun s => (Task.parse s).toOption

def ownKey? (c : Call) : Option String :=
  ((c.get? keyName).bind Json.string?).or (c.runtimeString? presetKeyName)

def ownNamespace? (c : Call) : Option String :=
  (c.metadataString? namespaceName).or (c.metadataString? oldNamespaceName)

def inputs? (c : Call) : Option (List Json) := (c.get? inputName).bind Json.array?

/-- The object at a name without one of its members. -/
def eraseWithin (c : Call) (name member : String) : Call :=
  match c.get? name with
  | some (.object members) => c.insert name (.object (Members.erase member members))
  | _ => c

/-- The call for one input alone, without the key that stood for the whole. -/
def withInput (c : Call) (input : Json) : Call :=
  eraseWithin ⟨(c.params.insert inputName input).erase keyName⟩ runtimeName presetKeyName

def withDirectives (c : Call) (d : Directives) : Call := c.insert directivesName d.toJson

def withTask (c : Call) (t : Task) : Call := c.insert taskName (.string t.tag)

end Call

/-- What a store may want to know of a call beyond its key: stores that look for similar prompts
need the prompt. -/
structure Context where
  model : Option String := none
  prompt : Option Json := none
  deriving DecidableEq, Inhabited

namespace Context

def modelName : String := "model"

/-- The parameters that hold a prompt; the first one given counts. -/
def promptNames : List String := ["messages", "prompt", "input"]

def ofCall (c : Call) : Context where
  model := (c.get? modelName).bind Json.string?
  prompt := promptNames.findSome? c.given?

end Context

end ReplyCache
