import ReplyCache.Json.Basic

namespace ReplyCache

namespace Replay

def usualSize : Nat := 5

/-- Pieces of `size` characters, the last one perhaps shorter. A `size` of zero counts as one. -/
def cut (size : Nat) : List Char → List (List Char)
  | [] => []
  | c :: cs => (c :: cs.take (size - 1)) :: cut size (cs.drop (size - 1))
termination_by cs => cs.length
decreasing_by simp only [List.length_drop, List.length_cons]; omega

/-- The first of the choices, which are a list or numbered members. -/
def first? : Json → Option Json
  | .array items => items.head?
  | .object members => Members.get? "0" members
  | _ => none

def content? (reply : Json) : Option String := do
  let choice ← first? (← reply.member? "choices")
  (← (← choice.member? "message").member? "content").string?

def piece (content : List Char) : Json :=
  Json.ofMembers [("choices", .array [Json.ofMembers [("delta", Json.ofMembers
    [("role", .string "assistant"), ("content", .string (String.ofList content))])]])]

def pieces? (reply : Json) (size : Nat) : Option (List Json) :=
  (content? reply).map fun text => (cut size text.toList).map piece

end Replay

end ReplyCache
