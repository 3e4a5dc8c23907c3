import ReplyCache.Store.Memory

namespace ReplyCache

/-- A memory that remembers what it was asked and fails where it is told to. -/
structure Rehearsal where
  name : String
  memory : Memory
  /-- What reads of a key find, ahead of the memory. -/
  planted : SortedMap Json := SortedMap.empty
  failing : SortedMap Fault := SortedMap.empty
  poison : List Json := []
  requests : List Request := []
  deriving DecidableEq, Inhabited

namespace Rehearsal

def patience : Nat := 250

def note (d : Rehearsal) (r : Request) : Rehearsal := { d with requests := r :: d.requests }

def onMemory (f : Memory → Answered α × Memory) (d : Rehearsal) : Answered α × Rehearsal :=
  let (a, m) := f d.memory
  (a, { d with memory := m })

def read (now : Moment) (k : Key) (d : Rehearsal) : Answered (Option Json) × Rehearsal :=
  match d.planted.get? k.text with
  | some v => (.ok (some v), d)
  | none => d.onMemory (Memory.readNow now k)

def write (now : Moment) (i : Item) (o : WriteOptions) (d : Rehearsal) :
    Answered Unit × Rehearsal :=
  if d.poison.any i.entry.reply.alike then (Answered.fault (.timedOutAt d.name patience), d)
  else d.onMemory (Memory.writeNow now i o)

def writeAll (now : Moment) (o : WriteOptions) (d : Rehearsal) :
    List Item → Answered Unit × Rehearsal
  | [] => (.ok (), d)
  | i :: is =>
    match d.write now i o with
    | (.ok (), d) => d.writeAll now o is
    | failed => failed

def perform (now : Moment) : (r : Request) → Rehearsal → Answered r.Answer × Rehearsal
  | .read _ k _, d => d.read now k
  | .write _ i o, d => d.write now i o
  | .writeAll _ is o, d => d.writeAll now o is
  | .delete ks, d => d.onMemory (Memory.deleteNow ks)
  | .ping, d => (.ok true, d)
  | .close, d => (.ok (), d)

def serve (now : Moment) (r : Request) (d : Rehearsal) : Answered r.Answer × Rehearsal :=
  match d.failing.get? r.name with
  | some f => (Answered.fault f, d.note r)
  | none => (d.note r).perform now r

def store (name : String) (capabilities : Capabilities := {}) : Store Rehearsal where
  name := name
  capabilities := capabilities
  serve := serve

end Rehearsal

end ReplyCache
