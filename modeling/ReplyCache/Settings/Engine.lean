import ReplyCache.Fault
import ReplyCache.Json.Basic
import ReplyCache.Span
import ReplyCache.Text.Blank

namespace ReplyCache

inductive Engine where
  | memory
  | keyValue
  | keyValueSemantic
  | vectorSemantic
  | object
  | disk
  deriving DecidableEq, Inhabited

namespace Engine

def all : List Engine := [memory, keyValue, keyValueSemantic, vectorSemantic, object, disk]

def tag : Engine → String
  | memory => "local"
  | keyValue => "redis"
  | keyValueSemantic => "redis-semantic"
  | vectorSemantic => "qdrant-semantic"
  | object => "s3"
  | disk => "disk"

def label : Engine → String
  | memory => "InMemory"
  | keyValue => "NetworkedKv"
  | keyValueSemantic => "NetworkedKvSemantic"
  | vectorSemantic => "VectorSemantic"
  | object => "ObjectStore"
  | disk => "Disk"

def otherTags : List (String × Engine) :=
  [("memory", memory), ("in-memory", memory), ("in_memory", memory)]

def ofTag? (text : String) : Option Engine :=
  (all.find? fun e => text = e.tag).or ((otherTags.find? fun e => text = e.1).map (·.2))

def unknown (text : String) : Fault :=
  .configuration ("invalid cache backend kind '" ++ text ++ "'")
    { field := some "kind"
      details := some ("expected one of " ++ String.intercalate ", " (all.map tag)) }

def parse (text : String) : Except Fault Engine :=
  match ofTag? (Text.tag text) with
  | some e => .ok e
  | none => .error (unknown text)

theorem ofTag?_tag (e : Engine) : ofTag? e.tag = some e := by cases e <;> decide

/-- Named values of any kind, of which each engine reads its own. -/
abbrev Params := SortedMap Json

namespace Params

def string? (p : Params) (name : String) : Option String := (p.get? name).bind Json.string?

def natural? (p : Params) (name : String) : Option Nat := (p.get? name).bind Json.natural?

def span? (p : Params) (name : String) : Option Span :=
  ((p.get? name).bind Json.float?).bind Span.ofSeconds?

end Params

end Engine

end ReplyCache
