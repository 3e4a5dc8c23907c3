import ReplyCache.Json.Tree
import ReplyCache.Settings.Reader

namespace ReplyCache

namespace Settings

open Reading (ofOption refuse)

namespace JsonFormat

/-- How deep the parameters may nest below the settings' own two levels. -/
def deepest : Nat := Json.deepest - 2

def misplaced : Json.Tree → Reading α
  | .string (some s) => refuse (.misplaced s)
  | _ => refuse

def shape : Json.Tree → Reading (Shape Json.Tree)
  | .object members => return .members members
  | .array items => return .items items
  | t => misplaced t

def text : Json.Tree → Reading String
  | .string s => ofOption s
  | _ => refuse

def tag : Json.Tree → Reading String
  | .object [(name, .null)] => text name
  | t => text t

def given? : Json.Tree → Reading (Option Json.Tree)
  | .null => return none
  | t => return some t

def number : Json.Tree → Reading Float
  | .number n => ofOption (n.map Number.toFloat)
  | t => misplaced t

def natural : Json.Tree → Reading Nat
  | .number n => ofOption (n.bind Number.natural?)
  | t => misplaced t

def flag : Json.Tree → Reading Bool
  | .bool b => return b
  | t => misplaced t

def items : Json.Tree → Reading (List Json.Tree)
  | .array items => return items
  | t => misplaced t

def values : Json.Tree → Reading (SortedMap Json)
  | .object members =>
    ofOption ((Json.Tree.membersToJson? deepest members).map SortedMap.ofList)
  | t => misplaced t

def format : Format Json.Tree where
  shape := shape
  text := text
  tag := tag
  given? := given?
  number := number
  natural := natural
  flag := flag
  items := items
  values := values

end JsonFormat

def ofJson (text : String) : Except Fault Settings :=
  let (tree, complete) := Json.Tree.ofChars text.toList
  JsonFormat.format.ofTree "cache_config_json" tree complete 0

end Settings

end ReplyCache
