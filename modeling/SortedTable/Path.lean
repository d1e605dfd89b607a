import SortedTable.Text.Quoted

/-!
# Paths

Paths are byte strings cut at slashes. Repeated slashes, slashes at the end and single points say
nothing, except a point at the very front. Two paths are the same if their parts are.
-/

namespace SortedTable

structure Path where
  bytes : Bytes
deriving DecidableEq, Inhabited, Repr

namespace Path

def slash : UInt8 := 0x2f

def point : UInt8 := 0x2e

def ofString (s : String) : Path := ⟨Bytes.ofString s⟩

def text (p : Path) : String := Text.lossy p.bytes

def isAbsolute (p : Path) : Bool := p.bytes.head? = some slash

/-- Whether the path starts at the current directory by name, as `./a` does. -/
def startsHere (p : Path) : Bool :=
  match p.bytes with
  | b :: [] => b = point
  | b :: c :: _ => b = point && c = slash
  | [] => false

/-- The first byte, if it has a meaning of its own: a slash for the root, a point for here. -/
def front (p : Path) : Bytes :=
  if p.isAbsolute || p.startsHere then p.bytes.take 1 else []

def pieces (p : Path) : List Bytes :=
  (p.bytes.drop p.front.length).splitOn slash

/-- A piece without meaning: nothing, or a point. -/
def isIdle (piece : Bytes) : Bool := piece = [] || piece = [point]

def isParent (piece : Bytes) : Bool := piece = [point, point]

def parts (p : Path) : List Bytes :=
  p.pieces.filter (!isIdle ·)

/-- Paths that are equal part by part. -/
def Same (p q : Path) : Prop := p.front = q.front ∧ p.parts = q.parts

instance (p q : Path) : Decidable (p.Same q) :=
  inferInstanceAs (Decidable (p.front = q.front ∧ p.parts = q.parts))

/-- A path seen from a directory; a slash is put between them where there is none. -/
def join (dir path : Path) : Path :=
  if path.isAbsolute then path
  else if dir.bytes = [] ∨ dir.bytes.getLast? = some slash then ⟨dir.bytes ++ path.bytes⟩
  else ⟨dir.bytes ++ slash :: path.bytes⟩

/-- The name that the path ends in, unless that is the way up. -/
def fileName? (p : Path) : Option Bytes :=
  (p.parts.getLast?).filter (!isParent ·)

/-- The path without its last part and without the idle pieces around it. -/
def parent? (p : Path) : Option Path :=
  match p.pieces.reverse.dropWhile isIdle with
  | _ :: before =>
      some ⟨p.front ++ [slash].intercalate (before.dropWhile isIdle).reverse⟩
  | [] => if p.startsHere then some ⟨[]⟩ else none

end Path

end SortedTable
