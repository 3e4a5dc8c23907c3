import ReplyCache.Yaml.Node

namespace ReplyCache

namespace Yaml

structure Document where
  root : Node
  complete : Bool
  deriving Inhabited

namespace Document

def knownHandles : List (String × Text.Octets) :=
  [("!", Text.Octets.ofString "!"), ("!!", Text.Octets.ofString "tag:yaml.org,2002:")]

/-- The directives of a document up to its start mark: whether the version was stated, and the
handles. Nothing may be stated twice. -/
def readDirectives? :
    Bool → SortedMap Text.Octets → List Token → Option (SortedMap Text.Octets × List Token)
  | versioned, handles, .version major minor :: rest =>
    if versioned || major ≠ 1 || (minor ≠ 1 && minor ≠ 2) then none
    else readDirectives? true handles rest
  | versioned, handles, .handle name expansion :: rest =>
    if handles.contains name then none
    else readDirectives? versioned (handles.insert name expansion) rest
  | _, handles, .documentStart :: rest => some (handles, rest)
  | _, _, _ => none

def withKnown (handles : SortedMap Text.Octets) : SortedMap Text.Octets :=
  knownHandles.foldl (fun m e => if m.contains e.1 then m else m.insert e.1 e.2) handles

def endsDocument : Token → Bool
  | .version .. | .handle .. | .documentStart | .documentEnd | .streamEnd => true
  | _ => false

def readRoot (handles : SortedMap Text.Octets) (tokens : List Token) : Node × List Token :=
  let (root, s) := (Node.readNode (withKnown handles) (4 * (tokens.length + 1)) true false).run
    ⟨tokens, SortedMap.empty⟩
  (root, s.tokens)

def isOver (tokens : List Token) : Bool :=
  match tokens.dropWhile (· = .documentEnd) with
  | .streamEnd :: _ => true
  | _ => false

def ofTokens (tokens : List Token) : Document :=
  match tokens with
  | [] => ⟨.broken, false⟩
  | .streamEnd :: _ => ⟨Node.empty, true⟩
  | .version .. :: _ | .handle .. :: _ | .documentStart :: _ =>
    match readDirectives? false SortedMap.empty tokens with
    | none => ⟨.broken, false⟩
    | some (handles, rest) =>
      match rest with
      | [] => ⟨.broken, false⟩
      | t :: _ =>
        if endsDocument t then ⟨Node.empty, isOver rest⟩
        else
          let (root, rest) := readRoot handles rest
          ⟨root, isOver rest⟩
  | _ =>
    let (root, rest) := readRoot SortedMap.empty tokens
    ⟨root, isOver rest⟩

def ofText (s : String) : Document := ofTokens (Token.ofText s)

end Document

end Yaml

end ReplyCache
