import ReplyCache.Cache.Basic
import ReplyCache.Freshness
import ReplyCache.Replay

namespace ReplyCache

inductive Lookup where
  | hit (reply : Json)
  | miss
  | bypass
  deriving DecidableEq, Inhabited

namespace Lookup

def pieces? (l : Lookup) (size : Nat) : Option (List Json) :=
  match l with
  | hit reply => Replay.pieces? reply size
  | miss | bypass => none

end Lookup

namespace Action

variable {σ : Type}

/-- The form in which a store is asked: a store that is never waited for knows the blocking one
only. -/
def formFor (store : Store σ) (form : Form) : Form :=
  if store.capabilities.async then form else .blocking

def readFailed (key : Key) (f : Fault) : Action σ Lookup := do
  count .errors
  emit (.readFailed key.text f)
  return .miss

def finishRead (now : Moment) (call : Call) (key : Key) :
    Except Fault (Option Json) → Action σ Lookup
  | .error f => readFailed key f
  | .ok none => do
    count .misses
    emit (.miss key.text)
    return .miss
  | .ok (some stored) => do
    match Freshness.judge stored call.directives.maxAge now.wall with
    | .error f => readFailed key f
    | .ok (.stale age) =>
      count .stale
      emit (.stale key.text age)
      return .miss
    | .ok (.fresh reply) =>
      count .hits
      emit (.hit key.text)
      return .hit reply

def read (store : Store σ) (now : Moment) (form : Form) (call : Call) : Action σ Lookup := do
  if ← gate call then
    let key := (← get).key call
    let answer ← ask store now (.read (formFor store form) key (Context.ofCall call))
    finishRead now call key answer
  else return .bypass

end Action

end ReplyCache
