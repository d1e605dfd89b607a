import SortedTable.Bytes.BigEndian
import SortedTable.Crc32
import SortedTable.Text.Quoted

/-!
# Keys

Every key comes with a token, its place on the partitioner's ring. Keys are ordered by token first
and by their own bytes second.
-/

namespace SortedTable

structure DecoratedKey where
  token : Bytes
  key : Bytes
deriving DecidableEq, Inhabited, Repr

namespace DecoratedKey

instance : LT DecoratedKey where
  lt a b := a.token < b.token ∨ a.token = b.token ∧ a.key < b.key

instance : DecidableLT DecoratedKey := fun a b =>
  inferInstanceAs (Decidable (a.token < b.token ∨ a.token = b.token ∧ a.key < b.key))

instance : LE DecoratedKey where
  le a b := ¬ b < a

instance : DecidableLE DecoratedKey := fun a b => inferInstanceAs (Decidable (¬ b < a))

def compare (a b : DecoratedKey) : Ordering :=
  if a < b then .lt else if b < a then .gt else .eq

def byteOrdered (key : Bytes) : DecoratedKey := ⟨key, key⟩

def text (k : DecoratedKey) : String :=
  "DecoratedKey(" ++ Text.escapeAscii k.token ++ ", " ++ Text.escapeAscii k.key ++ ")"

end DecoratedKey

structure Partitioner where
  name : String
  token : Bytes → Bytes
deriving Inhabited

namespace Partitioner

def byteOrdered : Partitioner := ⟨"ByteOrderedPartitioner", fun key => key⟩

/-- Spreads keys by a checksum, most significant byte first. -/
def hashBy (checksum : Bytes → UInt32) : Partitioner :=
  ⟨"HashPartitioner", fun key => BigEndian.encode 4 (checksum key).toNat⟩

def hash : Partitioner := hashBy Crc32.checksum

def decorate (p : Partitioner) (key : Bytes) : DecoratedKey := ⟨p.token key, key⟩

/-- The partitioner of a short name, in upper or lower case. An unknown name is given back in lower
case. -/
def byName (s : String) : Except String Partitioner :=
  match String.ofList (s.toList.map Char.toLower) with
  | "bytes" | "byteordered" => .ok byteOrdered
  | "hash" => .ok hash
  | other => .error other

end Partitioner

end SortedTable
