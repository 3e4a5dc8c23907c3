import ReplyCache.Buffer
import ReplyCache.Cache.Stats
import ReplyCache.Event
import ReplyCache.Settings.Basic
import ReplyCache.Store.Basic
import ReplyCache.Text.Quoted

namespace ReplyCache

structure Pending where
  item : Item
  lifetime : Option Span
  deriving DecidableEq, Inhabited

/-- What a cache does is an action on this state, and only a crash of the store ends one early. -/
structure Cache (σ : Type) where
  settings : Settings
  contents : σ
  /-- Without one no write is held back. -/
  buffer : Option (Buffer Pending)
  stats : Stats := {}
  events : List Event := []

inductive Crash where
  | crash
  deriving DecidableEq, Inhabited

abbrev Action (σ : Type) := ExceptT Crash (StateM (Cache σ))

namespace Cache

variable {σ : Type}

/-- A new cache over a store. It holds writes back if the settings ask for it and the store can
write many items at once. -/
def new (store : Store σ) (settings : Settings) (contents : σ) : Except Fault (Cache σ) := do
  settings.validate
  let buffer := if store.capabilities.bulk then settings.flushSize.map Buffer.ofThreshold else none
  return { settings, contents, buffer }

def scheme (c : Cache σ) : Scheme := c.settings.scheme

def key (c : Cache σ) (call : Call) : Key := c.scheme.key call

def admits (c : Cache σ) (call : Call) : Bool := c.settings.policy.admits call

def pending (c : Cache σ) : Nat := (c.buffer.map Buffer.size).getD 0

def setSpace (c : Cache σ) (space : Option String) : Cache σ :=
  { c with settings := { c.settings with space } }

def setLifetime (c : Cache σ) (lifetime : Option Span) : Cache σ :=
  { c with settings := { c.settings with lifetime } }

def describe (c : Cache σ) (store : Store σ) : String :=
  Text.record "ResponseCache"
    [("kind", c.settings.engine.label), ("backend", Text.quoted store.name),
     ("mode", c.settings.mode.label), ("namespace", Text.option (c.settings.space.map Text.quoted))]

end Cache

namespace Action

variable {σ : Type}

def emit (e : Event) : Action σ Unit := modify fun c => { c with events := c.events ++ [e] }

def count (k : Counter) (n : Nat := 1) : Action σ Unit :=
  modify fun c => { c with stats := c.stats.add n k }

def ask (store : Store σ) (now : Moment) (r : Request) : Action σ (Except Fault r.Answer) := do
  let c ← get
  let (answer, contents) := store.serve now r c.contents
  set { c with contents }
  match answer with
  | .ok a => return .ok a
  | .error (.fault f) => return .error f
  | .error .crash => throw .crash

def gate (call : Call) : Action σ Bool := do
  if (← get).admits call then return true
  else
    count .bypassed
    emit .bypassed
    return false

end Action

end ReplyCache
