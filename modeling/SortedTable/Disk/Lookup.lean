import SortedTable.Disk.Tree

/-!
# Looking up paths

A path is walked piece by piece, and a piece can be taken only in a directory. An operation that makes,
moves or removes a name needs the walk up to the last piece, which is an entry; one that opens what is
there needs the place where the whole walk ends.
-/

namespace SortedTable

/-- The last piece of a path and the directory it is taken in. -/
structure Entry where
  directory : Place
  piece : Bytes
  /-- Whether a slash follows the piece, so that it means a directory only. -/
  directoryOnly : Bool
deriving DecidableEq, Repr

def Entry.isNamed (e : Entry) : Bool := !Path.isIdle e.piece && !Path.isParent e.piece

namespace Disk

def maxName : Nat := 255

def maxPath : Nat := 4095

def expectDirectory (d : Disk) (place : Place) : Except DiskError Unit :=
  match d.node? place with
  | none => .error .notFound
  | some (.file _) => .error .notADirectory
  | some .directory => .ok ()

/-- Takes one piece of a path in a directory. What it leads to need not be there. -/
def step (d : Disk) (place : Place) (piece : Bytes) : Except DiskError Place := do
  d.expectDirectory place
  if Path.isIdle piece then return place
  if Path.isParent piece then return place.dropLast
  if maxName < piece.length then throw .nameTooLong
  return place ++ [piece]

def entry (d : Disk) (path : Path) : Except DiskError Entry := do
  if path.bytes = [] then throw .notFound
  if 0 ∈ path.bytes then throw .zeroByte
  if maxPath < path.bytes.length then throw .nameTooLong
  let pieces := path.bytes.splitOn Path.slash
  let trimmed := (pieces.reverse.dropWhile (· = [])).reverse
  let directory ← trimmed.dropLast.foldlM d.step []
  d.expectDirectory directory
  return ⟨directory, trimmed.getLastD [], trimmed.length < pieces.length⟩

def follow (d : Disk) (e : Entry) : Except DiskError Place := d.step e.directory e.piece

def find (d : Disk) (path : Path) : Except DiskError Node := do
  let e ← d.entry path
  match d.node? (← d.follow e) with
  | none => throw .notFound
  | some (.file id) => if e.directoryOnly then throw .notADirectory else return .file id
  | some .directory => return .directory

def existsAt (d : Disk) (path : Path) : Bool := (d.find path).isOk

def isDirectory (d : Disk) (path : Path) : Bool :=
  match d.find path with
  | .ok .directory => true
  | _ => false

end Disk

end SortedTable
