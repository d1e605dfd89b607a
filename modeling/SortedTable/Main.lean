import SortedTable.Shell
import Std.Time.DateTime.Timestamp

/-!
# The command line

Runs the shell on standard input and output. The store's directory is read from the machine's disk at
the start; what a command changed is carried out there when it is done, each change in its turn.
-/

namespace SortedTable.CommandLine

/-- Microseconds since 1970. -/
def now : IO Nat := do
  return (← Std.Time.Timestamp.now).toNanosecondsSinceUnixEpoch.val.toNat / 1000

def changed (disk : Disk) (action : Action DiskError Unit) : Disk :=
  (action.run ⟨disk, []⟩).2.disk

/-- The disk as far as a store in the directory sees it. -/
def load (dir : String) : IO Disk := do
  let real := (← IO.currentDir) / dir
  let place := Path.ofString dir
  unless ← real.pathExists do return .empty
  unless ← real.isDir do
    let above := (place.parent?.getD place)
    return changed (changed .empty (Action.makeDirectories above)) (Action.writeFile place [])
  let mut disk := changed .empty (Action.makeDirectories place)
  for entry in ← real.readDir do
    let inside := place.join (.ofString entry.fileName)
    if ← entry.path.isDir then
      disk := changed disk (Action.makeDirectories inside)
    else
      let bytes ← IO.FS.readBinFile entry.path
      disk := changed disk (Action.writeFile inside bytes.toList)
  return disk

/-- Does in the directory what was done between two disks. -/
def carryOut (dir : String) (older newer : Disk) : IO Unit := do
  let real := (← IO.currentDir) / dir
  let spot (place : Place) := real / Text.lossy (place.getLast?.getD [])
  for (place, node) in newer.nodes.entries do
    let write (id : Nat) := IO.FS.writeBinFile (spot place) ⟨(newer.bytesOf id).toArray⟩
    match node, older.nodes.get? place == some node with
    | .directory, true => pure ()
    | .directory, false => IO.FS.createDirAll real
    | .file id, true => unless older.bytesOf id == newer.bytesOf id do write id
    | .file id, false =>
        match older.nodes.entries.find? (·.2 == node) with
        | some (origin, _) => IO.FS.rename (spot origin) (spot place)
        | none => write id
  for (place, node) in older.nodes.entries do
    unless newer.nodes.contains place || newer.nodes.values.contains node do
      IO.FS.removeFile (spot place)

/-- Carries every change out, the oldest first, and forgets them. -/
def save (dir : String) (v : Volume) : IO Volume := do
  let disks := v.disks.reverse
  for (older, newer) in disks.zip disks.tail do
    carryOut dir older newer
  return ⟨v.disk, []⟩

def perform {α : Type} (dir : String) (v : Volume) (work : Work α) : IO (α × Volume) := do
  let (a, v) := work.run v
  return (a, ← save dir v)

/-- Reads up to the end of a line, which is kept. -/
partial def readLine (input : IO.FS.Stream) (line : ByteArray) : IO ByteArray := do
  let piece ← input.read 1
  let line := line ++ piece
  if piece.isEmpty || piece.toList == [0x0a] then return line else readLine input line

def say (output : String) : IO Unit := do
  let stdout ← IO.getStdout
  stdout.putStr output
  stdout.flush

partial def converse (dir : String) (s : Store) (v : Volume) : IO UInt32 := do
  match Shell.inputLines (← readLine (← IO.getStdin) .empty).toList with
  | [] =>
      let _ ← perform dir v s.close
      return 0
  | line :: _ =>
      match ← perform dir v (Shell.turn (← now) line s) with
      | (.goOn output s, v) =>
          say output
          converse dir s v
      | (.stop output failure, _) =>
          say output
          match failure with
          | none => return 0
          | some e =>
              IO.eprint e.report
              return 1

end SortedTable.CommandLine

open SortedTable CommandLine in
/-- Takes its settings from the environment; the status is 1 if the shell fails. -/
def main : IO UInt32 := do
  let mut values := []
  for name in Shell.variableNames do
    values := (name, ← IO.getEnv name) :: values
  let found := values
  let environment (name : String) := (found.lookup name).join
  let dir := Shell.directory environment
  let volume : Volume := ⟨← load dir, []⟩
  match ← perform dir volume (Shell.setUp environment (← now)).run with
  | (.error e, _) =>
      IO.eprint e.report
      return 1
  | (.ok (s, start), v) =>
      say start
      converse dir s v
