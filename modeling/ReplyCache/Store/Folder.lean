import ReplyCache.Data.SortedMap

namespace ReplyCache

mutual

inductive File where
  | text (content : String)
  | folder (inside : Folder)
  deriving DecidableEq

/-- A folder keeps its names in increasing order, so the place of a file is the list of the names
that lead to it. -/
inductive Folder where
  | empty
  | cons (name : String) (file : File) (rest : Folder)
  deriving DecidableEq

end

instance : Inhabited Folder := ⟨.empty⟩

instance : Inhabited File := ⟨.folder .empty⟩

abbrev Place := List String

namespace File

def isFolder : File → Bool
  | text _ => false
  | folder _ => true

end File

namespace Folder

def entries : Folder → List (String × File)
  | empty => []
  | cons name file rest => (name, file) :: rest.entries

def ofEntries (es : List (String × File)) : Folder := es.foldr (fun e => cons e.1 e.2) empty

theorem entries_ofEntries (es : List (String × File)) : (ofEntries es).entries = es := by
  induction es with
  | nil => rfl
  | cons e es ih => exact congrArg (e :: ·) ih

def get? (f : Folder) (name : String) : Option File := Members.get? name f.entries

def insert (f : Folder) (name : String) (file : File) : Folder :=
  ofEntries (Members.insert name file f.entries)

def erase (f : Folder) (name : String) : Folder := ofEntries (Members.erase name f.entries)

def inside (f : Folder) (name : String) : Folder :=
  match f.get? name with
  | some (.folder g) => g
  | _ => empty

def find? (f : Folder) : Place → Option File
  | [] => some (.folder f)
  | name :: names =>
    match f.get? name with
    | some (.folder g) => g.find? names
    | file? => if names.isEmpty then file? else none

/-- Puts a file in a place, and folders around it where there are none. -/
def put (f : Folder) (file : File) : Place → Folder
  | [] => f
  | [name] => f.insert name file
  | name :: names => f.insert name (.folder ((f.inside name).put file names))

def remove (f : Folder) : Place → Folder
  | [] => f
  | [name] => f.erase name
  | name :: names =>
    match f.get? name with
    | some (.folder g) => f.insert name (.folder (g.remove names))
    | _ => f

end Folder

end ReplyCache
