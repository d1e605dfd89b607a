import SortedTable.Disk

/-!
# Actions

Work on a disk is a sequence of file operations, and a crash can come between any two of them. A
volume is a disk together with every disk it was before, so that what holds between the operations of
an action can be said.
-/

namespace SortedTable

structure Volume where
  disk : Disk
  /-- The disks before each change, the latest first. -/
  past : List Disk

namespace Volume

def new : Volume := ⟨.empty, []⟩

instance : Inhabited Volume := ⟨new⟩

def step (v : Volume) (disk : Disk) : Volume := ⟨disk, v.disk :: v.past⟩

def disks (v : Volume) : List Disk := v.disk :: v.past

end Volume

/-- Work on a volume that cannot fail. -/
abbrev Work := StateM Volume

/-- Work on a volume that can fail; what it changed before it failed stays changed. -/
abbrev Action (ε : Type) := ExceptT ε Work

namespace Action

def look {α : Type} (f : Disk → Except DiskError α) : Action DiskError α := do
  match f (← get).disk with
  | .ok a => return a
  | .error e => throw e

/-- One file operation, which changes the disk unless it fails. -/
def change {α : Type} (f : Disk → Except DiskError (α × Disk)) : Action DiskError α := do
  match f (← get).disk with
  | .ok (a, disk) => modify (·.step disk); return a
  | .error e => throw e

def change_ (f : Disk → Except DiskError Disk) : Action DiskError Unit :=
  change fun d => (f d).map ((), ·)

def mapError {ε ε' α : Type} (f : ε → ε') (action : Action ε α) : Action ε' α :=
  ExceptT.adapt f action

def io {α : Type} (action : Action DiskError α) : Action IoError α := action.mapError .disk

def table {α : Type} (action : Action IoError α) : Action TableError α := action.mapError .io

def op {α : Type} (action : Action DiskError α) : Action TableError α := action.io.table

def find (path : Path) : Action DiskError Node := look (·.find path)

def existsAt (path : Path) : Work Bool := return (← get).disk.existsAt path

def contents (node : Node) : Action DiskError Bytes := look (·.contents node)

def create (path : Path) : Action DiskError Nat := change (·.create path)

def remove (path : Path) : Action DiskError Unit := change_ (·.remove path)

def rename (source target : Path) : Action DiskError Unit := change_ (·.rename source target)

/-- Makes a directory; one that is there already will do. -/
def ensureDirectory (path : Path) : Action DiskError Unit :=
  tryCatch (change_ (·.makeDirectory path)) fun e => do
    unless e = .alreadyExists ∧ (← get).disk.isDirectory path do throw e

/-- Makes a directory and those above it that are missing; `depth` bounds how far up it goes. -/
def makeDirectoriesTo : (depth : Nat) → (path : Path) → Action DiskError Unit
  | 0, path => if path.bytes ≠ [] then ensureDirectory path else pure ()
  | depth + 1, path =>
      if path.bytes ≠ [] then
        tryCatch (ensureDirectory path) fun e =>
          match e, path.parent? with
          | .notFound, some parent => do
              makeDirectoriesTo depth parent
              ensureDirectory path
          | _, _ => throw e
      else pure ()

def makeDirectories (path : Path) : Action DiskError Unit :=
  makeDirectoriesTo path.bytes.length path

/-- Removes a directory with all that is below it. If the path went through what was removed, it leads
nowhere in the end, and that is no failure. -/
def removeTree (path : Path) : Action DiskError Unit := do
  change_ (·.clearDirectory path)
  tryCatch (change_ (·.removeDirectory path)) fun e => unless e = .notFound do throw e

def write (id position : Nat) (bytes : Bytes) : Work Unit :=
  modify fun v => v.step (v.disk.write id position bytes)

/-- Makes a file of the given bytes: an empty one at first, which is then written. -/
def writeFile (path : Path) (bytes : Bytes) : Action DiskError Unit := do
  let id ← create path
  write id 0 bytes

end Action

end SortedTable
