import SortedTable.Disk.Lookup

/-!
# File operations

What can be done to a disk in one go. Where an operation is refused for more than one reason, the one
that is found first on the way is given: along the source, along the target, then between the two.
-/

namespace SortedTable

namespace Disk

/-- The bytes of what was found; a directory can be opened but not read. -/
def contents (d : Disk) : Node → Except DiskError Bytes
  | .directory => .error .isADirectory
  | .file id => .ok (d.bytesOf id)

def read (d : Disk) (path : Path) : Except DiskError Bytes := do
  d.contents (← d.find path)

def directoryLength : Nat := 4096

def length (d : Disk) : Node → Nat
  | .directory => directoryLength
  | .file id => (d.contentsOf id).length

/-- Opens a file for writing and empties it, or makes it. -/
def create (d : Disk) (path : Path) : Except DiskError (Nat × Disk) := do
  let e ← d.entry path
  if e.directoryOnly then throw .isADirectory
  let place ← d.follow e
  match d.node? place with
  | some .directory => throw .isADirectory
  | some (.file id) => return (id, d.setContents id .empty)
  | none => return (d.files.size, d.addFile place)

def openFile (d : Disk) (path : Path) : Except DiskError Nat := do
  match ← d.find path with
  | .directory => throw .isADirectory
  | .file id => return id

def remove (d : Disk) (path : Path) : Except DiskError Disk := do
  let e ← d.entry path
  let place ← d.follow e
  match d.node? place with
  | none => throw .notFound
  | some .directory => throw .isADirectory
  | some (.file _) => if e.directoryOnly then throw .notADirectory else return d.erase place

def namesIn (d : Disk) (place : Place) : List Bytes :=
  d.nodes.keys.filterMap fun p => if p ≠ [] ∧ p.dropLast = place then p.getLast? else none

def list (d : Disk) (path : Path) : Except DiskError (List Bytes) := do
  let place ← d.follow (← d.entry path)
  d.expectDirectory place
  return d.namesIn place

def makeDirectory (d : Disk) (path : Path) : Except DiskError Disk := do
  let place ← d.follow (← d.entry path)
  if (d.node? place).isSome then throw .alreadyExists
  return d.addDirectory place

def below (d : Disk) (place : Place) : List Place :=
  d.nodes.keys.filter (place.isPrefixOf ·)

def clearDirectory (d : Disk) (path : Path) : Except DiskError Disk := do
  let place ← d.follow (← d.entry path)
  d.expectDirectory place
  return ((d.below place).filter (· ≠ place)).foldl erase d

/-- Removes an empty directory. It has to be called by its name. -/
def removeDirectory (d : Disk) (path : Path) : Except DiskError Disk := do
  let e ← d.entry path
  if Path.isParent e.piece then throw .notEmpty
  if e.piece = [] then throw .busy
  if Path.isIdle e.piece then throw .invalidArgument
  let place ← d.follow e
  d.expectDirectory place
  if d.namesIn place ≠ [] then throw .notEmpty
  return d.erase place

def moveTree (d : Disk) (source target : Place) : Disk :=
  (d.below source).foldl (fun d p => d.moveNode p (target ++ p.drop source.length)) d

/-- Moves a node to where none or another is. A file takes the place of a file, a directory that of an
empty one. -/
def replace (d : Disk) (source : Node) (old new : Place) : Except DiskError Disk :=
  match source, d.node? new with
  | .file _, some .directory => .error .isADirectory
  | .file _, _ => .ok (d.moveNode old new)
  | .directory, some (.file _) => .error .notADirectory
  | .directory, some .directory =>
      if d.namesIn new ≠ [] then .error .notEmpty else .ok ((d.erase new).moveTree old new)
  | .directory, none => .ok (d.moveTree old new)

def rename (d : Disk) (source target : Path) : Except DiskError Disk := do
  if 0 ∈ source.bytes ++ target.bytes then throw .zeroByte
  let oldEntry ← d.entry source
  let newEntry ← d.entry target
  if !oldEntry.isNamed || !newEntry.isNamed then throw .busy
  let old ← d.follow oldEntry
  match d.node? old with
  | none => throw .notFound
  | some node =>
      let new ← d.follow newEntry
      if node ≠ .directory ∧ (oldEntry.directoryOnly || newEntry.directoryOnly) then
        throw .notADirectory
      -- Two names of one file would both stay. As a file has one name, they are the same place.
      if old = new then return d
      if old.isPrefixOf new then throw .invalidArgument
      if new.isPrefixOf old then throw .notEmpty
      d.replace node old new

/-- The lengths and positions that a file can have are less than this. -/
def maxOffset : Nat := 0x8000000000000000

def appendFile (d : Disk) (path : Path) (bytes : Bytes) : Except DiskError Disk := do
  let id ← d.openFile path
  return d.write id (d.contentsOf id).length bytes

def patchFile (d : Disk) (path : Path) (position : Nat) (bytes : Bytes) : Except DiskError Disk := do
  let id ← d.openFile path
  if maxOffset ≤ position then throw .invalidArgument
  return if bytes = [] then d else d.write id position bytes

/-- Cuts a file off at a length, or fills it up with zeros. -/
def truncateFile (d : Disk) (path : Path) (length : Nat) : Except DiskError Disk := do
  let id ← d.openFile path
  if maxOffset ≤ length then throw .lengthOutOfRange
  let old := d.contentsOf id
  return d.setContents id ((old.take length).append (List.replicate (length - old.length) 0))

def chopFile (d : Disk) (path : Path) (count : Nat) : Except DiskError Disk := do
  let id ← d.openFile path
  d.truncateFile path ((d.contentsOf id).length - count)

end Disk

end SortedTable
