import ReplyCache.Call.Basic

namespace ReplyCache

inductive Mode where
  | on
  | optIn
  deriving DecidableEq, Inhabited

namespace Mode

def tag : Mode → String
  | on => "default_on"
  | optIn => "default_off"

def label : Mode → String
  | on => "DefaultOn"
  | optIn => "DefaultOff"

def all : List Mode := [on, optIn]

def ofTag? (text : String) : Option Mode := all.find? fun m => text = m.tag

theorem ofTag?_tag (m : Mode) : ofTag? m.tag = some m := by cases m <;> decide

end Mode

structure Policy where
  mode : Mode := .on
  tasks : Tasks := Task.all
  deriving DecidableEq, Inhabited

namespace Policy

/-- A call that names no known task is not judged by its task. -/
def admitsTask (p : Policy) (c : Call) : Bool :=
  match c.task? with
  | some t => p.tasks.contains t
  | none => true

def admits (p : Policy) (c : Call) : Bool :=
  p.admitsTask c &&
    match p.mode with
    | .on => true
    | .optIn => c.directives.optIn

end Policy

end ReplyCache
