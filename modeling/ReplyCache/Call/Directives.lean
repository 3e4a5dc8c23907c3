import ReplyCache.Json.Basic
import ReplyCache.Span

namespace ReplyCache

structure Directives where
  optIn : Bool := false
  lifetime : Option Span := none
  maxAge : Option Float := none
  deriving DecidableEq, Inhabited

namespace Directives

def optInName : String := "use-cache"

def lifetimeName : String := "ttl"

def maxAgeName : String := "s-maxage"

/-- A second spelling, which counts first. -/
def maxAgeOtherName : String := "s-max-age"

/-- Only a literal `true` opts in. -/
def ofMembers (members : List (String × Json)) : Directives where
  optIn := (Members.get? optInName members).bind Json.bool? == some true
  lifetime := ((Members.get? lifetimeName members).bind Json.float?).bind Span.ofSeconds?
  maxAge := ((Members.get? maxAgeOtherName members).bind Json.float?).or
    ((Members.get? maxAgeName members).bind Json.float?)

def ofJson : Json → Directives
  | .object members => ofMembers members
  | _ => {}

def toJson (d : Directives) : Json :=
  Json.ofMembers <|
    (optInName, Json.bool d.optIn) ::
      (d.lifetime.toList.map fun s => (lifetimeName, Json.ofFloat s.toSeconds)) ++
      (d.maxAge.toList.map fun x => (maxAgeName, Json.ofFloat x))

end Directives

end ReplyCache
