import ReplyCache.Store.Basic

namespace ReplyCache

structure Slot where
  record : Json
  expires : Option Nat
  deriving DecidableEq, Inhabited

namespace Slot

def isExpired (s : Slot) (now : Moment) : Bool :=
  match s.expires with
  | some time => time ≤ now.steady
  | none => false

end Slot

/-- A bounded list of records, the most recently used first. A lifetime so long that the clock
cannot show its end crashes the memory. Within a batch that happens in the middle of a change, and
from then on it is unusable. -/
structure Memory where
  capacity : Nat
  lifetime : Option Span := none
  slots : List (Key × Slot) := []
  unusable : Bool := false
  deriving DecidableEq, Inhabited

namespace Memory

def usualCapacity : Nat := 10000

/-- An empty memory. It holds at least one record. -/
def ofCapacity (n : Nat) (lifetime : Option Span := none) : Memory where
  capacity := max n 1
  lifetime := lifetime

def greatestCapacity : Nat := 0x380000000000000

/-- Makes room for records. To make room for too many crashes. -/
def make (n : Nat) (lifetime : Option Span := none) : Answered Memory :=
  if n ≤ greatestCapacity then .ok (ofCapacity n lifetime) else Answered.crash

def find? (m : Memory) (k : Key) : Option Slot :=
  (m.slots.find? fun e => e.1 = k).map (·.2)

def others (m : Memory) (k : Key) : List (Key × Slot) := m.slots.filter fun e => e.1 ≠ k

def drop (m : Memory) (k : Key) : Memory := { m with slots := m.others k }

def put (m : Memory) (k : Key) (s : Slot) : Memory :=
  { m with slots := (k, s) :: (m.others k).take (m.capacity - 1) }

def read (m : Memory) (now : Moment) (k : Key) : Option Json × Memory :=
  match m.find? k with
  | none => (none, m)
  | some s => if s.isExpired now then (none, m.drop k) else (some s.record, m.put k s)

/-- The slot of an entry written now, unless the clock cannot show when it expires. -/
def slot? (m : Memory) (now : Moment) (e : Entry) (lifetime : Option Span) : Option Slot :=
  match lifetime.or m.lifetime with
  | none => some ⟨e.toJson, none⟩
  | some span => (now.after? span).map fun time => ⟨e.toJson, some time⟩

/-- Writes items one by one; `none` beside the memory tells that it did not get through. -/
def putAll (m : Memory) (now : Moment) (lifetime : Option Span) : List Item → Option Unit × Memory
  | [] => (some (), m)
  | i :: is =>
    match m.slot? now i.entry lifetime with
    | some s => (m.put i.key s).putAll now lifetime is
    | none => (none, m)

def dropAll (m : Memory) : List Key → Nat × Memory
  | [] => (0, m)
  | k :: ks =>
    let (n, m') := (m.drop k).dropAll ks
    (if (m.find? k).isSome then n + 1 else n, m')

def storeName : String := "memory"

def poisoned : Fault := .unavailableAt storeName "memory cache lock poisoned"

def count (m : Memory) (now : Moment) : Except Fault Nat :=
  if m.unusable then .error poisoned
  else .ok (m.slots.countP fun e => !e.2.isExpired now)

def usable (f : Memory → Answered α × Memory) (m : Memory) : Answered α × Memory :=
  if m.unusable then (Answered.fault poisoned, m) else f m

def readNow (now : Moment) (k : Key) (m : Memory) : Answered (Option Json) × Memory :=
  m.usable fun m =>
    let (v, m) := m.read now k
    (.ok v, m)

def writeNow (now : Moment) (i : Item) (o : WriteOptions) (m : Memory) : Answered Unit × Memory :=
  match m.slot? now i.entry o.lifetime with
  | none => (Answered.crash, m)
  | some s => m.usable fun m => (.ok (), m.put i.key s)

def writeAllNow (now : Moment) (is : List Item) (o : WriteOptions) (m : Memory) :
    Answered Unit × Memory :=
  m.usable fun m =>
    match m.putAll now o.lifetime is with
    | (some (), m) => (.ok (), m)
    | (none, m) => (Answered.crash, { m with unusable := true })

def deleteNow (ks : List Key) (m : Memory) : Answered Nat × Memory :=
  m.usable fun m =>
    let (n, m) := m.dropAll ks
    (.ok n, m)

def serve (now : Moment) : (r : Request) → Memory → Answered r.Answer × Memory
  | .read _ k _, m => m.readNow now k
  | .write _ i o, m => m.writeNow now i o
  | .writeAll .batch is o, m => m.writeAllNow now is o
  | .writeAll .pipeline is o, m =>
    (Answered.fault (.unsupported storeName (Request.writeAll .pipeline is o).name), m)
  | .delete ks, m => m.deleteNow ks
  | .ping, m => (.ok !m.unusable, m)
  | .close, m => (.ok (), m)

def store : Store Memory where
  name := storeName
  capabilities := { batch := true, ping := true, delete := true }
  serve := serve

end Memory

end ReplyCache
