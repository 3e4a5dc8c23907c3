import ReplyCache.Store.Basic

namespace ReplyCache

structure Plain where
  name : String
  records : SortedMap Json := SortedMap.empty
  deriving DecidableEq, Inhabited

namespace Plain

def unsupported (r : Request) (p : Plain) : Answered α × Plain :=
  (Answered.fault (.unsupported p.name r.name), p)

def serve (_ : Moment) : (r : Request) → Plain → Answered r.Answer × Plain
  | .read _ k _, p => (.ok (p.records.get? k.text), p)
  | .write _ i _, p => (.ok (), { p with records := p.records.insert i.key.text i.entry.toJson })
  | .writeAll means is o, p => p.unsupported (.writeAll means is o)
  | .delete ks, p => p.unsupported (.delete ks)
  | .ping, p => p.unsupported .ping
  | .close, p => (.ok (), p)

def store (name : String) (capabilities : Capabilities := {}) : Store Plain where
  name := name
  capabilities := capabilities
  serve := serve

end Plain

end ReplyCache
