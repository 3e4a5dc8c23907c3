import ReplyCache.Store.Basic
import ReplyCache.Store.Envelope
import ReplyCache.Store.Host

namespace ReplyCache

/-- A file for each key, named by the digest of the key. A record expires by the wall clock and is
removed by the read that finds it. A file that holds no record fails the read and stays. -/
structure Directory where
  path : String := "/cache"
  place : Place := ["cache"]
  host : Host := {}
  isThere : Bool := true
  files : SortedMap File := SortedMap.empty
  /-- The number of the next new file. -/
  next : Nat := 0
  deriving DecidableEq, Inhabited

namespace Directory

def storeName : String := "disk"

def fileName (k : Key) : String := Sha256.hex k.text ++ ".json"

def isNoRecord : Fault := .serialization "not the record of a reply"

def find? (d : Directory) (k : Key) : Option File := d.files.get? (fileName k)

def remove (d : Directory) (k : Key) : Directory := { d with files := d.files.erase (fileName k) }

def newEnding : String := ".tmp"

/-- The name of the new file that a record is written to first. -/
def newName (process number : Nat) (k : Key) : String :=
  fileName k ++ "." ++ process.repr ++ "." ++ number.repr ++ newEnding

def isNew (name : String) : Bool := newEnding.toList.isSuffixOf name.toList

def isTooLong (d : Directory) (name : String) : Bool :=
  Host.longestPath < (Host.join d.path name).utf8ByteSize

/-- Whether files can be written. The empty path names no directory, but leads them home. -/
def canHold (d : Directory) : Bool := d.isThere || d.path.isEmpty

def obstacle? (d : Directory) (name : String) : Option Obstacle :=
  if d.isTooLong name then some .tooLong
  else if !d.canHold then some .missing
  else match d.files.get? name with
  | some (.folder _) => some .folder
  | _ => if d.host.isClosed d.place then some .closed else none

def create (name content : String) (d : Directory) : Except Obstacle Directory :=
  match d.obstacle? name with
  | some o => .error o
  | none => .ok { d with files := d.files.insert name (.text content) }

/-- Gives a file another name, which it takes from any other file. -/
def rename (name target : String) (d : Directory) : Except Obstacle Directory :=
  match d.files.get? name, d.files.get? target with
  | none, _ => .error .missing
  | _, some (.folder _) => .error .folder
  | some file, _ => .ok { d with files := (d.files.erase name).insert target file }

/-- Writes a file that then takes the name of another. Where it cannot take that name, it stays. -/
def replace (name target content : String) (d : Directory) : Except Fault Unit × Directory :=
  match d.create name content with
  | .error o => (.error o.fault, d)
  | .ok d =>
    match d.rename name target with
    | .error o => (.error o.fault, d)
    | .ok d => (.ok (), d)

def read (now : Moment) (k : Key) (d : Directory) : Except Fault (Option Json) × Directory :=
  if d.isTooLong (fileName k) then (.error Obstacle.tooLong.fault, d)
  else match d.find? k with
  | none => (.ok none, d)
  | some (.folder _) => (.error Obstacle.folder.fault, d)
  | some (.text content) =>
    match Envelope.ofText? content with
    | none => (.error isNoRecord, d)
    | some e => if e.isExpired now.wall then (.ok none, d.remove k) else (.ok (some e.value), d)

def envelope (now : Moment) (i : Item) (lifetime : Option Span) : Envelope where
  key := i.key.text
  expires := lifetime.map fun s => now.wall + s.toSeconds
  value := i.entry.toJson

def write (now : Moment) (i : Item) (lifetime : Option Span) (d : Directory) :
    Except Fault Unit × Directory :=
  { d with next := d.next + 1 }.replace (newName d.host.process d.next i.key) (fileName i.key)
    (envelope now i lifetime).text

/-- Removes the files of keys one by one up to the first that cannot be removed, and counts them. -/
def delete (d : Directory) : List Key → Except Fault Nat × Directory
  | [] => (.ok 0, d)
  | k :: ks =>
    if d.isTooLong (fileName k) then (.error Obstacle.tooLong.fault, d)
    else match d.find? k with
    | none => d.delete ks
    | some (.folder _) => (.error Obstacle.folder.fault, d)
    | some (.text _) =>
      match (d.remove k).delete ks with
      | (.ok n, d) => (.ok (n + 1), d)
      | (.error f, d) => (.error f, d)

def answered (o : Except Fault α × Directory) : Answered α × Directory :=
  (o.1.mapError .fault, o.2)

def unsupported (r : Request) (d : Directory) : Answered α × Directory :=
  (Answered.fault (.unsupported storeName r.name), d)

def serve (now : Moment) : (r : Request) → Directory → Answered r.Answer × Directory
  | .read _ k _, d => answered (d.read now k)
  | .write _ i o, d => answered (d.write now i o.lifetime)
  | .writeAll means is o, d => d.unsupported (.writeAll means is o)
  | .delete ks, d => answered (d.delete ks)
  | .ping, d => (.ok d.isThere, d)
  | .close, d => (.ok (), d)

def store : Store Directory where
  name := storeName
  capabilities := { ping := true, delete := true }
  serve := serve

end Directory

end ReplyCache
