namespace ReplyCache

inductive Counter where
  | hits
  | misses
  | stale
  | sets
  | bypassed
  | errors
  deriving DecidableEq, Inhabited

/-- Counters have 64 bits and wrap around. -/
structure Stats where
  hits : UInt64 := 0
  misses : UInt64 := 0
  stale : UInt64 := 0
  sets : UInt64 := 0
  bypassed : UInt64 := 0
  errors : UInt64 := 0
  deriving DecidableEq, Inhabited

namespace Stats

def get (s : Stats) : Counter → UInt64
  | .hits => s.hits
  | .misses => s.misses
  | .stale => s.stale
  | .sets => s.sets
  | .bypassed => s.bypassed
  | .errors => s.errors

def add (s : Stats) (n : Nat) : Counter → Stats
  | .hits => { s with hits := s.hits + n.toUInt64 }
  | .misses => { s with misses := s.misses + n.toUInt64 }
  | .stale => { s with stale := s.stale + n.toUInt64 }
  | .sets => { s with sets := s.sets + n.toUInt64 }
  | .bypassed => { s with bypassed := s.bypassed + n.toUInt64 }
  | .errors => { s with errors := s.errors + n.toUInt64 }

def hitRatio (s : Stats) : Float :=
  let total := s.hits + s.misses + s.stale
  if total = 0 then 0 else s.hits.toFloat / total.toFloat

theorem get_add (s : Stats) (n : Nat) (c d : Counter) :
    (s.add n c).get d = if c = d then s.get d + n.toUInt64 else s.get d := by
  cases c <;> cases d <;> simp [get, add]

end Stats

end ReplyCache
