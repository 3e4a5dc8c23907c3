import ReplyCache.Cache.Write

namespace ReplyCache

inductive Operation where
  | read (form : Form) (call : Call)
  | write (form : Form) (call : Call) (reply : Json)
  | writeBatch (form : Form) (call : Call) (replies : List Json)
  | flush
  | ping
  | delete (keys : List Key)
  | disconnect
  | setSpace (space : Option String)
  | setLifetime (lifetime : Option Span)
  deriving DecidableEq, Inhabited

namespace Operation

abbrev Answer : Operation → Type
  | read .. => Lookup
  | write .. | writeBatch .. | flush => Outcome
  | ping => Option Bool
  | delete _ => Option Nat
  | disconnect | setSpace _ | setLifetime _ => Unit

end Operation

namespace Action

variable {σ : Type}

def ping (store : Store σ) (now : Moment) : Action σ (Option Bool) := do
  if store.capabilities.ping then
    match ← ask store now .ping with
    | .ok alive => return some alive
    | .error f =>
      emit (.readFailed "<ping>" f)
      return some false
  else return none

def delete (store : Store σ) (now : Moment) (keys : List Key) : Action σ (Option Nat) := do
  if store.capabilities.delete then
    match ← ask store now (.delete keys) with
    | .ok n => return some n
    | .error f =>
      emit (.writeFailed keys.length f)
      return some 0
  else return none

def disconnect (store : Store σ) (now : Moment) : Action σ Unit := do
  let _ ← flush store now
  match ← ask store now .close with
  | .ok () => return ()
  | .error f => emit (.writeFailed 0 f)

def perform (store : Store σ) (now : Moment) : (o : Operation) → Action σ o.Answer
  | .read form call => read store now form call
  | .write form call reply => write store now form call reply
  | .writeBatch form call replies => writeBatch store now form call replies
  | .flush => flush store now
  | .ping => ping store now
  | .delete keys => delete store now keys
  | .disconnect => disconnect store now
  | .setSpace space => modify fun c => c.setSpace space
  | .setLifetime lifetime => modify fun c => c.setLifetime lifetime

end Action

namespace Cache

variable {σ : Type}

/-- The cache after an operation, and the operation's answer unless the store crashed. -/
def step (store : Store σ) (now : Moment) (o : Operation) (c : Cache σ) :
    Except Crash o.Answer × Cache σ :=
  (Action.perform store now o).run.run c

def run (store : Store σ) (os : List (Moment × Operation)) (c : Cache σ) : Cache σ :=
  os.foldl (fun c o => (c.step store o.1 o.2).2) c

end Cache

end ReplyCache
