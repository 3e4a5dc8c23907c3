import ReplyCache.Json.Printer
import ReplyCache.Key.Basic
import ReplyCache.Policy
import ReplyCache.Settings.Engine

namespace ReplyCache

structure Settings where
  engine : Engine := .memory
  mode : Mode := .on
  space : Option String := none
  lifetime : Option Span := none
  tasks : Tasks := Task.all
  params : Engine.Params := SortedMap.empty
  flushSize : Option Nat := none
  inclusive : Bool := false
  largest : Nat := 10 * 1024 * 1024
  deriving DecidableEq, Inhabited

namespace Settings

inductive Field where
  | engine
  | mode
  | space
  | lifetime
  | tasks
  | params
  | flushSize
  | inclusive
  | largest
  deriving DecidableEq, Inhabited

namespace Field

def all : List Field :=
  [engine, mode, space, lifetime, tasks, params, flushSize, inclusive, largest]

def name : Field → String
  | engine => "kind"
  | mode => "mode"
  | space => "namespace"
  | lifetime => "default_ttl"
  | tasks => "supported_call_kinds"
  | params => "params"
  | flushSize => "flush_size"
  | inclusive => "include_provider_specific_params"
  | largest => "max_entry_size"

/-- A second name that a field may be written under. -/
def otherName? : Field → Option String
  | engine => some "type"
  | lifetime => some "ttl"
  | _ => none

def ofName? (name : String) : Option Field :=
  all.find? fun f => name = f.name || some name = f.otherName?

theorem ofName?_name (f : Field) : ofName? f.name = some f := by cases f <;> decide

end Field

def toMember (s : Settings) : Field → Json
  | .engine => .string s.engine.tag
  | .mode => .string s.mode.tag
  | .space => Json.ofOption Json.string s.space
  | .lifetime => Json.ofOption (fun t => Json.ofFloat t.toSeconds) s.lifetime
  | .tasks => .array (s.tasks.map fun t => .string t.tag)
  | .params => Json.ofMap s.params
  | .flushSize => Json.ofOption Json.ofNat s.flushSize
  | .inclusive => .bool s.inclusive
  | .largest => Json.ofNat s.largest

def toJson (s : Settings) : Json := .object (Field.all.map fun f => (f.name, s.toMember f))

def text (s : Settings) : String := s.toJson.text

def noRoomToFlush : Fault :=
  .configuration "flush_size must be at least 1" { field := some Field.flushSize.name }

def noRoomForReplies : Fault :=
  .configuration "max_entry_size must be positive" { field := some Field.largest.name }

/-- Settings under which nothing could ever be written are refused. -/
def validate (s : Settings) : Except Fault Unit :=
  if s.flushSize = some 0 then .error noRoomToFlush
  else if s.largest = 0 then .error noRoomForReplies
  else .ok ()

def scheme (s : Settings) : Scheme := { space := s.space, inclusive := s.inclusive }

def policy (s : Settings) : Policy := { mode := s.mode, tasks := s.tasks }

end Settings

end ReplyCache
