import ReplyCache.Settings.Basic
import ReplyCache.Text.Quoted

namespace ReplyCache

namespace Settings

inductive Refusal where
  | malformed
  | unknown (tag : String)
  | misplaced (text : String)
  | engine (fault : Fault)
  deriving DecidableEq, Inhabited

namespace Refusal

def message : Refusal → String
  | malformed => "not the settings of a cache"
  | unknown tag => "unknown tag '" ++ tag ++ "'"
  | misplaced text => "misplaced text " ++ Text.quoted text
  | engine f => f.message

end Refusal

/-- The state is the number of references that may still be followed, in a format that has them. -/
abbrev Reading := StateT Nat (Except Refusal)

namespace Reading

def refuse (r : Refusal := .malformed) : Reading α := fun _ => .error r

def ofOption (o : Option α) (r : Refusal := .malformed) : Reading α :=
  match o with
  | some a => pure a
  | none => refuse r

end Reading

inductive Shape (T : Type u) where
  | members (entries : List (T × T))
  | items (values : List T)

/-- How the parts of settings are read off the trees of a format. -/
structure Format (T : Type) where
  shape : T → Reading (Shape T)
  text : T → Reading String
  tag : T → Reading String
  given? : T → Reading (Option T)
  number : T → Reading Float
  natural : T → Reading Nat
  flag : T → Reading Bool
  items : T → Reading (List T)
  values : T → Reading (SortedMap Json)

namespace Format

variable {T : Type}

def option (f : Format T) (read : T → Reading α) (t : T) : Reading (Option α) := do
  match ← f.given? t with
  | some t => return some (← read t)
  | none => return none

def engine (f : Format T) (t : T) : Reading Engine := do
  match Engine.parse (← f.text t) with
  | .ok e => return e
  | .error fault => Reading.refuse (.engine fault)

def mode (f : Format T) (t : T) : Reading Mode := do
  let tag ← f.tag t
  Reading.ofOption (Mode.ofTag? tag) (.unknown tag)

def task (f : Format T) (t : T) : Reading Task := do
  let tag ← f.tag t
  Reading.ofOption (Task.ofTag? tag) (.unknown tag)

def span (f : Format T) (t : T) : Reading Span := do
  Reading.ofOption (Span.ofSeconds? (← f.number t))

def count (f : Format T) (t : T) : Reading Nat := do
  let n ← f.natural t
  if n < 0x10000000000000000 then return n else Reading.refuse

def readField (f : Format T) (s : Settings) (t : T) : Field → Reading Settings
  | .engine => return { s with engine := ← f.engine t }
  | .mode => return { s with mode := ← f.mode t }
  | .space => return { s with space := ← f.option f.text t }
  | .lifetime => return { s with lifetime := ← f.option f.span t }
  | .tasks => return { s with tasks := Tasks.ofList (← (← f.items t).mapM f.task) }
  | .params => return { s with params := ← f.values t }
  | .flushSize => return { s with flushSize := ← f.option f.count t }
  | .inclusive => return { s with inclusive := ← f.flag t }
  | .largest => return { s with largest := ← f.count t }

def readEntry (f : Format T) (seen : List Field × Settings) (entry : T × T) :
    Reading (List Field × Settings) := do
  match Field.ofName? (← f.text entry.1) with
  | none => return seen
  | some field =>
    if seen.1.contains field then Reading.refuse
    else return (field :: seen.1, ← f.readField seen.2 entry.2 field)

/-- The first fault in the order of the text counts. Fields that are left out keep their usual value
and names that are no field are passed over, but no field may be written twice. Settings may also be
written as a list of the fields' values, and a list may be cut short. -/
def readSettings (f : Format T) (t : T) : Reading Settings := do
  match ← f.shape t with
  | .members entries =>
    let (_, s) ← entries.foldlM f.readEntry ([], {})
    return s
  | .items values =>
    let s ← (values.zip Field.all).foldlM (fun s e => f.readField s e.1 e.2) {}
    if values.length ≤ Field.all.length then return s else Reading.refuse

/-- The settings that the tree of a whole text holds. `complete` tells whether the text goes on to
nothing else, and `most` how many references may be followed. -/
def ofTree (f : Format T) (source : String) (t : T) (complete : Bool) (most : Nat) :
    Except Fault Settings :=
  let refused (r : Refusal) : Fault := .configuration r.message { source := some source }
  match (f.readSettings t).run most with
  | .error r => .error (refused r)
  | .ok (s, _) => if complete then .ok s else .error (refused .malformed)

end Format

end Settings

end ReplyCache
