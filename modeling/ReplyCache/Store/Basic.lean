import ReplyCache.Entry
import ReplyCache.Key.Basic

namespace ReplyCache

/-- Whether the caller waits for the answer or comes back for it. -/
inductive Form where
  | blocking
  | async
  deriving DecidableEq, Inhabited

structure Item where
  key : Key
  entry : Entry
  deriving DecidableEq, Inhabited

/-- What a store is told with a write. Without a lifetime the store's own counts. -/
structure WriteOptions where
  lifetime : Option Span := none
  context : Context := {}
  deriving DecidableEq, Inhabited

inductive Bulk where
  | batch
  | pipeline
  deriving DecidableEq, Inhabited

inductive Request where
  | read (form : Form) (key : Key) (context : Context)
  | write (form : Form) (item : Item) (options : WriteOptions)
  | writeAll (means : Bulk) (items : List Item) (options : WriteOptions)
  | delete (keys : List Key)
  | ping
  | close
  deriving DecidableEq, Inhabited

namespace Request

abbrev Answer : Request → Type
  | read .. => Option Json
  | write .. | writeAll .. | close => Unit
  | delete _ => Nat
  | ping => Bool

def name : Request → String
  | read .async .. => "get"
  | read .blocking .. => "get_blocking"
  | write .async .. => "set"
  | write .blocking .. => "set_blocking"
  | writeAll .batch .. => "batch_write"
  | writeAll .pipeline .. => "pipeline_write"
  | delete _ => "delete_keys"
  | ping => "ping"
  | close => "disconnect"

end Request

inductive Failure where
  | fault (fault : Fault)
  | crash
  deriving DecidableEq, Inhabited

abbrev Answered (α : Type) := Except Failure α

namespace Answered

def fault (f : Fault) : Answered α := .error (.fault f)

def crash : Answered α := .error .crash

end Answered

structure Capabilities where
  /-- Without it every request is made in its blocking form. -/
  async : Bool := true
  batch : Bool := false
  pipeline : Bool := false
  ping : Bool := false
  delete : Bool := false
  deriving DecidableEq, Inhabited

namespace Capabilities

def bulk (c : Capabilities) : Bool := c.batch || c.pipeline

end Capabilities

/-- Each request changes the contents of a store and gets an answer of its kind, or fails. A fault
is told to whoever asked; a crash ends whatever was going on. -/
structure Store (σ : Type) where
  name : String
  capabilities : Capabilities
  serve : Moment → (r : Request) → σ → Answered r.Answer × σ

end ReplyCache
