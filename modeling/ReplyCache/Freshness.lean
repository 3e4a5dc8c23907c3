import ReplyCache.Entry
import ReplyCache.Fault
import ReplyCache.Json.Tree
import ReplyCache.Text.Blank
import ReplyCache.Yaml.Value

namespace ReplyCache

namespace Stored

def context (field : String) (details : Option String := none) : Fault.Context where
  field := some field
  details := details
  source := some "freshness"

def undecodableDetails : String := "neither JSON nor a literal record"

def undecodable : Fault :=
  .undecodable "not a YAML document" (context Entry.replyName (some undecodableDetails))

def looksLiteral (text : String) : Bool :=
  match (Text.trimStart text).toList.head? with
  | some c => c = '{' || c = '['
  | none => false

/-- The value of a text: JSON, or else a literal as YAML admits it. Text that looks like neither a
record nor a list stands for itself. -/
def decode (text : String) : Except Fault Json :=
  match Json.ofText? text with
  | some v => .ok v
  | none =>
    if looksLiteral text then
      match Json.ofYaml? text with
      | some v => .ok v
      | none => .error undecodable
    else .ok (.string text)

def read : Json → Except Fault Json
  | .string text => decode text
  | v => .ok v

end Stored

inductive Freshness where
  | fresh (reply : Json)
  | stale (age : Float)
  deriving DecidableEq, Inhabited

namespace Freshness

def noNumber : Fault :=
  .undecodable "timestamp is not a number" (Stored.context Entry.timestampName)

def noReply : Fault := .undecodable "stored entry has no response" (Stored.context Entry.replyName)

def isTooOld (maxAge : Option Float) (age : Float) : Bool :=
  match maxAge with
  | some most => most < age
  | none => false

/-- Judges a record by its members. Without a timestamp there is nothing to age it by. -/
def ofRecord (members : List (String × Json)) (maxAge : Option Float) (now : Float) :
    Except Fault Freshness :=
  match Members.get? Entry.timestampName members with
  | none => .ok (fresh (.object members))
  | some timestamp =>
    match timestamp.float? with
    | none => .error noNumber
    | some written =>
      if isTooOld maxAge (now - written) then .ok (stale (now - written))
      else match (Members.get? Entry.replyName members).bind Json.nonNull? with
        | some reply => .ok (fresh reply)
        | none => .error noReply

def judge (stored : Json) (maxAge : Option Float) (now : Float) : Except Fault Freshness :=
  match Stored.read stored with
  | .error f => .error f
  | .ok (.object members) => ofRecord members maxAge now
  | .ok v => .ok (fresh v)

end Freshness

end ReplyCache
