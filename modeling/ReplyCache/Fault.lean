namespace ReplyCache

namespace Fault

structure Context where
  field : Option String := none
  details : Option String := none
  source : Option String := none
  deriving DecidableEq, Inhabited

namespace Context

def text (c : Context) : String :=
  let parts := c.field.toList.map ("field: " ++ ·) ++ c.details.toList.map ("details: " ++ ·) ++
    c.source.toList.map ("source: " ++ ·)
  if parts.isEmpty then "" else " (" ++ String.intercalate ", " parts ++ ")"

end Context

end Fault

inductive Fault where
  | configuration (message : String) (context : Fault.Context)
  | unavailable (message : String) (context : Fault.Context)
  | timedOut (milliseconds : Nat) (context : Fault.Context)
  | undecodable (message : String) (context : Fault.Context)
  | unsupported (backend operation : String)
  | io (message : String)
  | serialization (message : String)
  deriving DecidableEq, Inhabited

namespace Fault

def unavailableAt (backend message : String) : Fault :=
  unavailable message { source := some backend }

def timedOutAt (backend : String) (milliseconds : Nat) : Fault :=
  timedOut milliseconds { source := some backend }

def kind : Fault → String
  | configuration .. => "configuration"
  | unavailable .. => "backend_unavailable"
  | timedOut .. => "backend_timeout"
  | undecodable .. => "decode"
  | unsupported .. => "unsupported"
  | io _ => "io"
  | serialization _ => "serialization"

def context? : Fault → Option Context
  | configuration _ c | unavailable _ c | timedOut _ c | undecodable _ c => some c
  | unsupported .. | io _ | serialization _ => none

def message : Fault → String
  | configuration m c => "Configuration error: " ++ m ++ c.text
  | unavailable m c => "Backend unavailable: " ++ m ++ c.text
  | timedOut ms c => "Backend timed out after " ++ toString ms ++ "ms" ++ c.text
  | undecodable m c => "Stored payload could not be decoded: " ++ m ++ c.text
  | unsupported b o => "Backend '" ++ b ++ "' does not support " ++ o
  | io m => "I/O error: " ++ m
  | serialization m => "Serialization error: " ++ m

end Fault

end ReplyCache
