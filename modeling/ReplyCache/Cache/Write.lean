import ReplyCache.Cache.Read
import ReplyCache.Tally

namespace ReplyCache

/-- A write never fails for its caller: its outcome says what became of it. -/
inductive Outcome where
  | written (count : Nat)
  | buffered (pending : Nat)
  | bypassed
  | skipped
  | failed (written failed : Nat)
  deriving DecidableEq, Inhabited

namespace Outcome

def isWritten : Outcome → Bool
  | written _ => true
  | _ => false

def counts : Outcome → Nat × Nat
  | written n => (n, 0)
  | failed w f => (w, f)
  | _ => (0, 0)

def ofCounts (w f : Nat) : Outcome := if f = 0 then written w else failed w f

def merge (a b : Outcome) : Outcome := ofCounts (a.counts.1 + b.counts.1) (a.counts.2 + b.counts.2)

end Outcome

namespace Cache

variable {σ : Type}

/-- What the store is told with a call's writes: the call's own lifetime counts before the
settings'. -/
def writeOptions (c : Cache σ) (call : Call) : WriteOptions where
  lifetime := call.directives.lifetime.or c.settings.lifetime
  context := Context.ofCall call

end Cache

namespace Action

variable {σ : Type}

def tooLarge (size most : Nat) : String :=
  "response is " ++ toString size ++ " bytes, limit is " ++ toString most

def mismatched (inputs replies : Nat) : String :=
  toString inputs ++ " inputs but " ++ toString replies ++ " responses"

def fits (reply : Json) : Action σ Bool := do
  let size := reply.textSize
  let most := (← get).settings.largest
  if most < size then
    emit (.writeSkipped (tooLarge size most))
    return false
  else return true

def writeFailed (count : Nat) (f : Fault) : Action σ Unit := do
  Action.count .errors
  emit (.writeFailed count f)

def finishWrite (count : Nat) (strategy : Strategy) : Except Fault Unit → Action σ Outcome
  | .ok () => do
    Action.count .sets count
    emit (.written count strategy)
    return .written count
  | .error f => do
    writeFailed count f
    return .failed 0 count

def finishWrites (strategy : Strategy) (written failed : Nat) : Action σ Outcome := do
  count .sets written
  if failed = 0 then
    emit (.written written strategy)
    return .written written
  else return .failed written failed

def writeOne (store : Store σ) (now : Moment) (form : Form) (item : Item) (options : WriteOptions) :
    Action σ Outcome := do
  finishWrite 1 .single (← ask store now (.write form item options))

def writeEach (store : Store σ) (now : Moment) (options : WriteOptions) :
    List Item → Action σ (Nat × Nat)
  | [] => return (0, 0)
  | i :: is => do
    match ← ask store now (.write .blocking i options) with
    | .ok () =>
      let (w, f) ← writeEach store now options is
      return (w + 1, f)
    | .error fault =>
      writeFailed 1 fault
      let (w, f) ← writeEach store now options is
      return (w, f + 1)

def writeBlocking (store : Store σ) (now : Moment) (items : List Item) (options : WriteOptions) :
    Action σ Outcome := do
  let (written, failed) ← writeEach store now options items
  finishWrites .blocking written failed

/-- Asks for all writes at once and looks at the answers when all are there. -/
def writeFannedOut (store : Store σ) (now : Moment) (items : List Item) (options : WriteOptions) :
    Action σ Outcome := do
  let answers ← items.mapM fun i => ask store now (.write .async i options)
  let tally := Tally.ofResults answers
  tally.failures.forM fun e => writeFailed 1 e.2
  finishWrites .fanOut tally.successCount tally.failureCount

def writeItems (store : Store σ) (now : Moment) (items : List Item) (options : WriteOptions) :
    Action σ Outcome := do
  let can := store.capabilities
  if items.isEmpty then return .written 0
  else if !can.async then writeBlocking store now items options
  else if can.pipeline then
    finishWrite items.length .pipeline (← ask store now (.writeAll .pipeline items options))
  else if can.batch then
    finishWrite items.length .batch (← ask store now (.writeAll .batch items options))
  else writeFannedOut store now items options

/-- Adds a pending write to the group of its lifetime. Groups are in the order of lifetimes. -/
def insertByLifetime (p : Pending) :
    List (Option Span × List Item) → List (Option Span × List Item)
  | [] => [(p.lifetime, [p.item])]
  | g :: gs =>
    match Span.compareOption p.lifetime g.1 with
    | .lt => (p.lifetime, [p.item]) :: g :: gs
    | .eq => (g.1, g.2 ++ [p.item]) :: gs
    | .gt => g :: insertByLifetime p gs

def groupByLifetime (ps : List Pending) : List (Option Span × List Item) :=
  ps.foldl (fun gs p => insertByLifetime p gs) []

def writeGroups (store : Store σ) (now : Moment) (so : Outcome) :
    List (Option Span × List Item) → Action σ Outcome
  | [] => return so
  | g :: gs => do
    let outcome ← writeItems store now g.2 { lifetime := g.1 }
    writeGroups store now (so.merge outcome) gs

def drain : Action σ (List Pending) := do
  let c ← get
  match c.buffer with
  | none => return []
  | some b =>
    let (ps, b) := b.drain
    set { c with buffer := some b }
    return ps

/-- Hands all writes to the store that were held back, those of one lifetime together. -/
def flush (store : Store σ) (now : Moment) : Action σ Outcome := do
  writeGroups store now (.written 0) (groupByLifetime (← drain))

def hold (store : Store σ) (now : Moment) (b : Buffer Pending) (p : Pending) :
    Action σ Outcome := do
  let b := b.push p
  modify fun c => { c with buffer := some b }
  if b.isFull then flush store now
  else
    emit (.buffered p.item.key.text b.size)
    return .buffered b.size

/-- Writes a reply. Only a write that is not waited for is held back. -/
def write (store : Store σ) (now : Moment) (form : Form) (call : Call) (reply : Json) :
    Action σ Outcome := do
  if !(← gate call) then return .bypassed
  else if !(← fits reply) then return .skipped
  else
    let c ← get
    let item : Item := ⟨c.key call, ⟨now.wall, reply⟩⟩
    let options := c.writeOptions call
    match form, c.buffer with
    | .async, some b => hold store now b ⟨item, options.lifetime⟩
    | _, _ => writeOne store now (formFor store form) item options

def batchItems (now : Moment) (call : Call) (inputs replies : List Json) :
    Action σ (List Item) := do
  let kept ← (inputs.zip replies).filterM fun e => fits e.2
  let c ← get
  return kept.map fun e => ⟨c.key (call.withInput e.1), ⟨now.wall, e.2⟩⟩

/-- Writes one reply for each of the call's inputs. If the input is no list, all replies together
are the reply to the call. -/
def writeBatch (store : Store σ) (now : Moment) (form : Form) (call : Call) (replies : List Json) :
    Action σ Outcome := do
  if !(← gate call) then return .bypassed
  else
    match call.inputs? with
    | none => write store now form call (.array replies)
    | some inputs =>
      if inputs.length ≠ replies.length then
        emit (.writeSkipped (mismatched inputs.length replies.length))
        return .skipped
      else
        let items ← batchItems now call inputs replies
        let options := (← get).writeOptions call
        match form with
        | .async => writeItems store now items options
        | .blocking => writeBlocking store now items options

end Action

end ReplyCache
