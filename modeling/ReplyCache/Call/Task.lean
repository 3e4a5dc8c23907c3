import ReplyCache.Fault
import ReplyCache.Text.Blank

namespace ReplyCache

inductive Task where
  | completion
  | textCompletion
  | embedding
  | transcription
  | rerank
  deriving DecidableEq, Inhabited

namespace Task

def all : List Task := [completion, textCompletion, embedding, transcription, rerank]

def tag : Task → String
  | completion => "completion"
  | textCompletion => "text_completion"
  | embedding => "embedding"
  | transcription => "transcription"
  | rerank => "rerank"

def asyncTag (t : Task) : String := "a" ++ t.tag

def ofTag? (text : String) : Option Task :=
  all.find? fun t => text = t.tag || text = t.asyncTag

def unknown (text : String) : Fault :=
  .configuration ("unknown call kind '" ++ text ++ "'") { field := some "supported_call_kinds" }

def parse (text : String) : Except Fault Task :=
  match ofTag? (Text.tag text) with
  | some t => .ok t
  | none => .error (unknown text)

theorem mem_all (t : Task) : t ∈ all := by cases t <;> decide

theorem ofTag?_tag (t : Task) : ofTag? t.tag = some t := by cases t <;> decide

theorem ofTag?_asyncTag (t : Task) : ofTag? t.asyncTag = some t := by cases t <;> decide

end Task

/-- A set of tasks, listed in the order of `Task.all` without repeats. -/
abbrev Tasks := List Task

namespace Tasks

def ofList (ts : List Task) : Tasks := Task.all.filter (· ∈ ts)

theorem mem_ofList {t : Task} {ts : List Task} : t ∈ ofList ts ↔ t ∈ ts := by
  simp [ofList, Task.mem_all]

end Tasks

end ReplyCache
