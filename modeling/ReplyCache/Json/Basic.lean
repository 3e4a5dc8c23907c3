import ReplyCache.Data.SortedMap
import ReplyCache.Json.Number

namespace ReplyCache

inductive Json where
  | null
  | bool (value : Bool)
  | number (value : Number)
  | string (value : String)
  | array (items : List Json)
  | object (members : List (String × Json))
  deriving Inhabited

namespace Json

mutual

def decideEq : (a b : Json) → Decidable (a = b)
  | null, null => isTrue rfl
  | bool a, bool b => decidable_of_iff (a = b) ⟨fun h => h ▸ rfl, fun h => by cases h; rfl⟩
  | number a, number b => decidable_of_iff (a = b) ⟨fun h => h ▸ rfl, fun h => by cases h; rfl⟩
  | string a, string b => decidable_of_iff (a = b) ⟨fun h => h ▸ rfl, fun h => by cases h; rfl⟩
  | array a, array b => match decideItemsEq a b with
    | isTrue h => isTrue (h ▸ rfl)
    | isFalse h => isFalse fun e => by cases e; exact h rfl
  | object a, object b => match decideMembersEq a b with
    | isTrue h => isTrue (h ▸ rfl)
    | isFalse h => isFalse fun e => by cases e; exact h rfl
  | null, bool _ | null, number _ | null, string _ | null, array _ | null, object _
  | bool _, null | bool _, number _ | bool _, string _ | bool _, array _ | bool _, object _
  | number _, null | number _, bool _ | number _, string _ | number _, array _ | number _, object _
  | string _, null | string _, bool _ | string _, number _ | string _, array _ | string _, object _
  | array _, null | array _, bool _ | array _, number _ | array _, string _ | array _, object _
  | object _, null | object _, bool _ | object _, number _ | object _, string _
  | object _, array _ =>
    isFalse fun e => by cases e
termination_by structural a => a

def decideItemsEq : (a b : List Json) → Decidable (a = b)
  | [], [] => isTrue rfl
  | x :: xs, y :: ys => match decideEq x y, decideItemsEq xs ys with
    | isTrue h, isTrue h' => isTrue (h ▸ h' ▸ rfl)
    | isFalse h, _ => isFalse fun e => by cases e; exact h rfl
    | _, isFalse h => isFalse fun e => by cases e; exact h rfl
  | [], _ :: _ | _ :: _, [] => isFalse fun e => by cases e
termination_by structural a => a

def decideMembersEq : (a b : List (String × Json)) → Decidable (a = b)
  | [], [] => isTrue rfl
  | x :: xs, y :: ys => match decideMemberEq x y, decideMembersEq xs ys with
    | isTrue h, isTrue h' => isTrue (h ▸ h' ▸ rfl)
    | isFalse h, _ => isFalse fun e => by cases e; exact h rfl
    | _, isFalse h => isFalse fun e => by cases e; exact h rfl
  | [], _ :: _ | _ :: _, [] => isFalse fun e => by cases e
termination_by structural a => a

def decideMemberEq : (a b : String × Json) → Decidable (a = b)
  | (m, x), (n, y) => match instDecidableEqString m n, decideEq x y with
    | isTrue h, isTrue h' => isTrue (h ▸ h' ▸ rfl)
    | isFalse h, _ => isFalse fun e => by cases e; exact h rfl
    | _, isFalse h => isFalse fun e => by cases e; exact h rfl
termination_by structural a => a

end

instance : DecidableEq Json := decideEq

mutual

/-- Whether two values are equal but for the signs of zeros. -/
def alike : Json → Json → Bool
  | null, null => true
  | bool a, bool b => a = b
  | number a, number b => a.alike b
  | string a, string b => a = b
  | array a, array b => alikeItems a b
  | object a, object b => alikeMembers a b
  | _, _ => false
termination_by structural a => a

def alikeItems : List Json → List Json → Bool
  | [], [] => true
  | x :: xs, y :: ys => alike x y && alikeItems xs ys
  | _, _ => false
termination_by structural a => a

def alikeMembers : List (String × Json) → List (String × Json) → Bool
  | [], [] => true
  | x :: xs, y :: ys => alikeMember x y && alikeMembers xs ys
  | _, _ => false
termination_by structural a => a

def alikeMember : String × Json → String × Json → Bool
  | (m, x), (n, y) => m = n && alike x y
termination_by structural a => a

end

/-- The object with these members; of two with one name the later counts. -/
def ofMembers (members : List (String × Json)) : Json := object (Members.ofList members)

def ofMap (m : SortedMap Json) : Json := object m.entries

def ofInt (i : Int) : Json := ((Number.ofInt? i).map number).getD null

def ofNat (n : Nat) : Json := ofInt n

/-- A number that is not finite has no JSON form and becomes `null`. -/
def ofFloat (x : Float) : Json := ((Number.ofFloat? x).map number).getD null

def ofOption (f : α → Json) : Option α → Json
  | none => null
  | some a => f a

def isNull : Json → Bool
  | null => true
  | _ => false

def bool? : Json → Option Bool
  | bool b => some b
  | _ => none

def string? : Json → Option String
  | string s => some s
  | _ => none

def array? : Json → Option (List Json)
  | array items => some items
  | _ => none

def object? : Json → Option (List (String × Json))
  | object members => some members
  | _ => none

def float? : Json → Option Float
  | number n => some n.toFloat
  | _ => none

def natural? : Json → Option Nat
  | number n => n.natural?
  | _ => none

def member? (name : String) : Json → Option Json
  | object members => Members.get? name members
  | _ => none

def nonNull? : Json → Option Json
  | null => none
  | v => some v

end Json

end ReplyCache
