import ReplyCache.Event

namespace ReplyCache

structure Journal where
  bound : Nat
  events : List Event := []
  deriving DecidableEq, Inhabited

namespace Journal

def usualBound : Nat := 1024

def ofBound (n : Nat) : Journal where
  bound := max n 1

/-- Appends an event and forgets the oldest if there are too many. -/
def record (j : Journal) (e : Event) : Journal :=
  let events := j.events ++ [e]
  { j with events := if j.bound < events.length then events.drop 1 else events }

def recordAll (j : Journal) (es : List Event) : Journal := es.foldl record j

def clear (j : Journal) : Journal := { j with events := [] }

def faults (j : Journal) : List Event := j.events.filter Event.isFault

end Journal

/-- Journals that are told the same events. -/
abbrev Journals := List Journal

namespace Journals

def record (js : Journals) (e : Event) : Journals := js.map fun j => j.record e

def clear (js : Journals) : Journals := js.map Journal.clear

end Journals

end ReplyCache
