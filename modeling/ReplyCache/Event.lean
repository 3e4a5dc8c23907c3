import ReplyCache.Fault

namespace ReplyCache

inductive Strategy where
  | single
  | pipeline
  | batch
  | fanOut
  | blocking
  deriving DecidableEq, Inhabited

namespace Strategy

def tag : Strategy → String
  | single => "single"
  | pipeline => "pipeline"
  | batch => "batch"
  | fanOut => "fan_out"
  | blocking => "blocking"

def all : List Strategy := [single, pipeline, batch, fanOut, blocking]

end Strategy

inductive Event where
  | hit (key : String)
  | miss (key : String)
  | stale (key : String) (age : Float)
  | bypassed
  | readFailed (key : String) (fault : Fault)
  | written (count : Nat) (strategy : Strategy)
  | buffered (key : String) (pending : Nat)
  | writeFailed (count : Nat) (fault : Fault)
  | writeSkipped (reason : String)
  deriving DecidableEq, Inhabited

namespace Event

def isFault : Event → Bool
  | readFailed .. | writeFailed .. => true
  | _ => false

end Event

end ReplyCache
