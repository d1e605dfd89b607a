import SortedTable.Bytes

/-!
# CRC-32

The cyclic redundancy check of IEEE 802.3, least significant bit first.
-/

namespace SortedTable.Crc32

def polynomial : UInt32 := 0xedb88320

/-- Shifts one bit out of the remainder. -/
def step (remainder : UInt32) : UInt32 :=
  if remainder &&& 1 = 1 then (remainder >>> 1) ^^^ polynomial else remainder >>> 1

def addByte (remainder : UInt32) (b : UInt8) : UInt32 :=
  step (step (step (step (step (step (step (step (remainder ^^^ b.toUInt32))))))))

def checksum (bytes : Bytes) : UInt32 :=
  bytes.foldl addByte 0xffffffff ^^^ 0xffffffff

end SortedTable.Crc32
