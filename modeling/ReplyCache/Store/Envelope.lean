import ReplyCache.Json.Printer
import ReplyCache.Json.Tree
import ReplyCache.Key.Basic

namespace ReplyCache

structure Envelope where
  key : String
  expires : Option Float
  value : Json
  deriving DecidableEq, Inhabited

namespace Envelope

inductive Field where
  | key
  | expires
  | value
  deriving DecidableEq

namespace Field

def name : Field → String
  | key => "key"
  | expires => "expires_at"
  | value => "value"

def all : List Field := [key, expires, value]

def ofName? (name : String) : Option Field := all.find? fun f => name = f.name

end Field

/-- The members in the order of the fields; without an expiry there is no member for it. -/
def toJson (e : Envelope) : Json :=
  .object <| (Field.key.name, .string e.key) ::
    (e.expires.toList.map fun x => (Field.expires.name, Json.ofFloat x)) ++
    [(Field.value.name, e.value)]

def text (e : Envelope) : String := e.toJson.text

structure Draft where
  key : Option String := none
  expires : Option (Option Float) := none
  value : Option Json := none

def deepest : Nat := Json.deepest - 1

def readKey? : Json.Tree → Option String
  | .string s => s
  | _ => none

def readExpires? : Json.Tree → Option (Option Float)
  | .null => some none
  | .number n => n.map fun n => some n.toFloat
  | _ => none

def Draft.read? (d : Draft) (t : Json.Tree) : Field → Option Draft
  | .key => if d.key.isSome then none else (readKey? t).map fun k => { d with key := some k }
  | .expires =>
    if d.expires.isSome then none else (readExpires? t).map fun x => { d with expires := some x }
  | .value =>
    if d.value.isSome then none else (t.toJson? deepest).map fun v => { d with value := some v }

def Draft.readMember? (d : Draft) : Json.Tree × Json.Tree → Option Draft
  | (.string (some name), t) =>
    match Field.ofName? name with
    | some f => d.read? t f
    | none => some d
  | _ => none

def Draft.finish? (d : Draft) : Option Envelope := do
  some ⟨← d.key, d.expires.getD none, ← d.value⟩

/-- Reads an envelope, which may also be written as the list of its three parts. -/
def ofTree? : Json.Tree → Option Envelope
  | .object members => do
    let d ← members.foldlM Draft.readMember? {}
    d.finish?
  | .array [key, expires, value] => do
    some ⟨← readKey? key, ← readExpires? expires, ← value.toJson? deepest⟩
  | _ => none

def ofText? (text : String) : Option Envelope :=
  match Json.Tree.ofChars text.toList with
  | (t, true) => ofTree? t
  | (_, false) => none

/-- An envelope that expires at a time is gone from that time on. -/
def isExpired (e : Envelope) (now : Float) : Bool :=
  match e.expires with
  | some time => time ≤ now
  | none => false

end Envelope

end ReplyCache
