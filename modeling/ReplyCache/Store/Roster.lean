import ReplyCache.Settings.Basic
import ReplyCache.Store.Files
import ReplyCache.Store.Memory
import ReplyCache.Text.Quoted

namespace ReplyCache

inductive Opened where
  | memory (contents : Memory)
  | directory (contents : Directory)
  deriving DecidableEq, Inhabited

abbrev Maker := Engine.Params → Answered Opened

/-- The makers by engine; of two for one engine the first counts. -/
structure Roster where
  makers : List (Engine × Maker)

namespace Roster

def empty : Roster := ⟨[]⟩

def register (r : Roster) (e : Engine) (m : Maker) : Roster := ⟨(e, m) :: r.makers⟩

def find? (r : Roster) (e : Engine) : Option Maker := (r.makers.find? fun m => m.1 = e).map (·.2)

def contains (r : Roster) (e : Engine) : Bool := (r.find? e).isSome

def openMemory : Maker := fun params =>
  let capacity := (params.natural? "max_entries").getD Memory.usualCapacity
  (Memory.make capacity (params.span? "ttl")).map .memory

def noDirectory : Fault :=
  .configuration "disk cache requires a directory"
    { field := some "params.directory", source := some "registry" }

def openDirectory (h : Host) : Maker := fun params =>
  match params.string? "directory" with
  | none => Answered.fault noDirectory
  | some path => ((Directory.make h path).map .directory).mapError .fault

def builtin (h : Host) : Roster :=
  (empty.register .memory openMemory).register .disk (openDirectory h)

def unregistered (e : Engine) : Fault :=
  .configuration ("no cache backend registered for kind '" ++ e.tag ++ "'")
    { field := some "kind", source := some "registry" }

def create (r : Roster) (e : Engine) (params : Engine.Params) : Answered Opened :=
  match r.find? e with
  | some m => m params
  | none => Answered.fault (unregistered e)

def openFor (r : Roster) (s : Settings) : Answered Opened := do
  s.validate.mapError .fault
  r.create s.engine s.params

def engines (r : Roster) : List Engine := Engine.all.filter r.contains

def describe (r : Roster) : String :=
  Text.record "BackendRegistry"
    [("kinds", "[" ++ String.intercalate ", " (r.engines.map Engine.label) ++ "]")]

end Roster

end ReplyCache
