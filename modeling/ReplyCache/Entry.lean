import ReplyCache.Json.Basic

namespace ReplyCache

structure Entry where
  timestamp : Float
  reply : Json
  deriving DecidableEq, Inhabited

namespace Entry

def timestampName : String := "timestamp"

def replyName : String := "response"

def toJson (e : Entry) : Json :=
  Json.ofMembers [(timestampName, Json.ofFloat e.timestamp), (replyName, e.reply)]

/-- Reads a record, which may also be written as a list of its two parts. -/
def ofJson? : Json → Option Entry
  | .object members => do
    let timestamp ← (← Members.get? timestampName members).float?
    let reply ← Members.get? replyName members
    some ⟨timestamp, reply⟩
  | .array [timestamp, reply] => timestamp.float?.map (⟨·, reply⟩)
  | _ => none

end Entry

end ReplyCache
