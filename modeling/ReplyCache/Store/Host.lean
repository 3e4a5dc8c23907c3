import ReplyCache.Fault
import ReplyCache.Store.Folder

namespace ReplyCache

inductive Obstacle where
  | zero
  | tooLong
  | missing
  | noFolder
  | folder
  | taken
  | closed
  deriving DecidableEq, Inhabited

namespace Obstacle

def message : Obstacle → String
  | zero => "file name contained an unexpected NUL byte"
  | tooLong => "File name too long (os error 36)"
  | missing => "No such file or directory (os error 2)"
  | noFolder => "Not a directory (os error 20)"
  | folder => "Is a directory (os error 21)"
  | taken => "File exists (os error 17)"
  | closed => "Operation not permitted (os error 1)"

def fault (o : Obstacle) : Fault := .io o.message

end Obstacle

/-- A path leads from folder to folder; a dot stays where it is, two dots lead out of the folder,
and every part needs a folder to start from. Paths that do not start with a slash start at home. -/
structure Host where
  root : Folder := .empty
  closed : List Place := []
  home : Place := []
  process : Nat := 1
  deriving DecidableEq, Inhabited

/-- Where a path has led, all from inside out. What is there may be nothing. -/
structure Spot where
  names : List String
  around : List Folder
  file? : Option File
  deriving DecidableEq, Inhabited

namespace Spot

def place (s : Spot) : Place := s.names.reverse

def isFolder (s : Spot) : Bool := (s.file?.map File.isFolder).getD false

def longestName : Nat := 255

def follow (s : Spot) (part : String) : Except Obstacle Spot :=
  match s.file? with
  | none => .error .missing
  | some (.text _) => .error .noFolder
  | some (.folder f) =>
    if part.isEmpty || part = "." then .ok s
    else if part = ".." then
      match s.around with
      | [] => .ok s
      | outer :: around => .ok ⟨s.names.tail, around, some (.folder outer)⟩
    else if longestName < part.utf8ByteSize then .error .tooLong
    else .ok ⟨part :: s.names, f :: s.around, f.get? part⟩

end Spot

namespace Host

def longestPath : Nat := 4095

def pathTo (p : Place) : String := String.join (p.map ("/" ++ ·))

def isFolder (h : Host) (p : Place) : Bool := ((h.root.find? p).map File.isFolder).getD false

def isClosed (h : Host) (p : Place) : Bool := h.closed.any fun c => p.take c.length == c

def put (h : Host) (p : Place) (f : File) : Host := { h with root := h.root.put f p }

def remove (h : Host) (p : Place) : Host := { h with root := h.root.remove p }

def start (h : Host) : Spot := ⟨[], [], some (.folder h.root)⟩

def check (path : String) : Except Obstacle Unit :=
  if path.contains '\x00' then .error .zero
  else if path.isEmpty then .error .missing
  else if longestPath < path.utf8ByteSize then .error .tooLong
  else .ok ()

def parts (path : String) : List String := path.splitOn "/"

def partsFromRoot (h : Host) (path : String) : List String :=
  if path.startsWith "/" then parts path else h.home ++ parts path

def resolve (h : Host) (path : String) : Except Obstacle Spot := do
  check path
  (h.partsFromRoot path).foldlM Spot.follow h.start

def hasFolder (h : Host) (path : String) : Bool :=
  match h.resolve path with
  | .ok s => s.isFolder
  | .error _ => false

/-- Whether a part of a path leads to a folder whatever else there is. -/
def isStep (part : String) : Bool := part.isEmpty || part = "." || part = ".."

def resolveLast (h : Host) (parts : List String) : Except Obstacle (Spot × Spot) := do
  let here ← parts.dropLast.foldlM Spot.follow h.start
  let there ← here.follow (parts.getLastD "")
  return (here, there)

def withoutEnd (parts : List String) : List String :=
  (parts.reverse.dropWhile String.isEmpty).reverse

/-- Makes the folder that a path leads to. Slashes at its end do not count. -/
def makeFolder (h : Host) (path : String) : Except Obstacle Host := do
  check path
  let parts := withoutEnd (h.partsFromRoot path)
  let (here, there) ← h.resolveLast parts
  if isStep (parts.getLastD "") || there.file?.isSome then .error .taken
  else if h.isClosed here.place then .error .closed
  else .ok (h.put there.place (.folder .empty))

def putText (h : Host) (path content : String) : Except Obstacle Host := do
  check path
  let parts := h.partsFromRoot path
  let (here, there) ← h.resolveLast parts
  if isStep (parts.getLastD "") || there.isFolder then .error .folder
  else if h.isClosed here.place then .error .closed
  else .ok (h.put there.place (.text content))

def ancestors (path : String) : List String :=
  let parts := parts path
  let ends := (parts.zipIdx.filter fun e => !(e.1.isEmpty || e.1 = ".")).map (·.2)
  path :: (ends.dropLast.map fun i => "/".intercalate (parts.take (i + 1))).reverse

def makeOuter (h : Host) : List String → Except Obstacle (List String) × Host
  | [] => (.ok [], h)
  | path :: outer =>
    match h.makeFolder path with
    | .ok h => (.ok [], h)
    | .error .missing =>
      let (inner, h) := h.makeOuter outer
      (inner.map (· ++ [path]), h)
    | .error o => (if o = .taken && h.hasFolder path then .ok [] else .error o, h)

def makeInner (h : Host) : List String → Except Obstacle Unit × Host
  | [] => (.ok (), h)
  | path :: inner =>
    match h.makeFolder path with
    | .ok h => h.makeInner inner
    | .error o => if o = .taken && h.hasFolder path then h.makeInner inner else (.error o, h)

/-- Makes the folder that a path leads to and those around it, up to the first that cannot be made.
The root and the empty path need none. -/
def makeFolders (h : Host) (path : String) : Except Obstacle Unit × Host :=
  if path.isEmpty || (path.startsWith "/" && (parts path).all fun s => s.isEmpty || s = ".") then
    (.ok (), h)
  else
    match h.makeOuter (ancestors path) with
    | (.ok inner, h) => h.makeInner inner
    | (.error o, h) => (.error o, h)

/-- The path of a name in the folder that a path leads to. A name with a slash in front is a path of
its own. -/
def join (path name : String) : String :=
  if name.startsWith "/" || path.isEmpty then name
  else if path.endsWith "/" then path ++ name
  else path ++ "/" ++ name

end Host

end ReplyCache
