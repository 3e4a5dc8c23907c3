import ReplyCache.Store.Directory

namespace ReplyCache

namespace Directory

def toHost (d : Directory) : Host :=
  let inside := Folder.ofEntries d.files.entries
  if !d.canHold then d.host
  else if d.place.isEmpty then { d.host with root := inside }
  else d.host.put d.place (.folder inside)

/-- The directory as it is found in its place. The empty path is no directory. -/
def ofHost (d : Directory) (h : Host) : Directory :=
  match h.root.find? d.place with
  | some (.folder f) =>
    { d with
      host := h.remove d.place
      isThere := !d.path.isEmpty
      files := SortedMap.ofList f.entries }
  | _ => { d with host := h, isThere := false, files := SortedMap.empty }

def make (h : Host) (path : String) : Except Fault Directory :=
  match h.makeFolders path with
  | (.ok (), h) =>
    let place := ((h.resolve path).toOption.map Spot.place).getD h.home
    .ok (ofHost { path, place } h)
  | (.error o, _) => .error o.fault

def putText (name content : String) (d : Directory) : Bool × Directory :=
  match d.toHost.putText (Host.join d.path name) content with
  | .ok h => (true, d.ofHost h)
  | .error _ => (false, d)

def makeFolder (name : String) (d : Directory) : Bool × Directory :=
  match d.toHost.makeFolders (Host.join d.path name) with
  | (.ok (), h) => (true, d.ofHost h)
  | (.error _, h) => (false, d.ofHost h)

/-- Removes the directory, if it is there. By a path that ends in a dot it is only emptied. -/
def vanish (d : Directory) : Bool × Directory :=
  if !d.isThere then (false, d)
  else
    let last := (Host.withoutEnd (Host.parts d.path)).getLastD ""
    let stays := last.isEmpty || last = "."
    (!stays, { d with isThere := stays, files := SortedMap.empty })

def listing (d : Directory) : List (String × File) := if d.isThere then d.files.entries else []

end Directory

end ReplyCache
