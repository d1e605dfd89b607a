import SortedTable.Bytes.BigEndian
import SortedTable.Config
import SortedTable.Error
import SortedTable.Filter.Probe
import SortedTable.Filter.Shape

/-!
# Filters

A filter tells keys that were never added to a table from keys that may have been. It is a set of
bits in words of 64; adding a key sets the bits that are probed for it. The stored form is

    [probes per key: 4 bytes] [number of words: 4 bytes] [word: 8 bytes] ...
-/

namespace SortedTable

structure Filter where
  words : Array UInt64
  hashCount : Nat
deriving DecidableEq, Inhabited

structure FilterBuilder where
  words : Array UInt64
  hashCount : Nat
  /-- Keys added so far, a key counted as often as it was added. -/
  inserted : Nat
deriving DecidableEq, Inhabited

inductive FilterSizeError where
  | noKeys
  | rateOutOfRange
deriving DecidableEq, Repr

def FilterSizeError.message : FilterSizeError → String
  | noKeys => "expected_items must be > 0"
  | rateOutOfRange => "false_positive_rate must be in (0, 1)"

namespace FilterBuilder

/-- The largest number of words in a filter, for 128 MiB. -/
def maxWords : Nat := 16 * 1024 * 1024

/-- The words for a number of bits, which is counted in 64 bits at most. -/
def wordsFor (bits : Nat) : Nat :=
  min maxWords (max 1 ((min bits 0xffffffffffffffff + 63) / 64))

def sized (expected : Nat) (rate : Float) : FilterBuilder :=
  let shape := FilterShape.ofRate rate
  ⟨Array.replicate (wordsFor (expected * shape.bitsPerKey)) 0, shape.hashCount, 0⟩

def sized? (expected : Nat) (rate : Float) : Except FilterSizeError FilterBuilder :=
  if expected = 0 then .error .noKeys
  else if Config.rateInRange rate then .ok (sized expected rate)
  else .error .rateOutOfRange

def setBit (words : Array UInt64) (bit : Nat) : Array UInt64 :=
  words.modify (bit / 64) (· ||| (1 <<< UInt64.ofNat (bit % 64)))

def insert (b : FilterBuilder) (key : Bytes) : FilterBuilder :=
  { b with
    words := (Probe.bitsOf key b.hashCount (64 * b.words.size)).foldl setBit b.words
    inserted := b.inserted + 1 }

def build (b : FilterBuilder) : Filter := ⟨b.words, b.hashCount⟩

def describe (b : FilterBuilder) : String :=
  s!"BloomFilterBuilder \x7b words: {b.words.size}, hash_count: {b.hashCount}, " ++
    s!"inserted: {b.inserted} \x7d"

end FilterBuilder

namespace Filter

def bitCount (f : Filter) : Nat := 64 * f.words.size

def hasBit (f : Filter) (bit : Nat) : Bool :=
  f.words.getD (bit / 64) 0 &&& (1 <<< UInt64.ofNat (bit % 64)) ≠ 0

/-- Whether the key may have been added; a key that was is never denied. -/
def mayContain (f : Filter) (key : Bytes) : Bool :=
  (Probe.bitsOf key f.hashCount f.bitCount).all f.hasBit

def storedSize (f : Filter) : Nat := 4 + 4 + 8 * f.words.size

def encode (f : Filter) : Bytes :=
  BigEndian.encode 4 f.hashCount ++ BigEndian.encode 4 f.words.size ++
    f.words.toList.flatMap fun word => BigEndian.encode 8 word.toNat

def wordsOf : (count : Nat) → Bytes → Array UInt64 → Array UInt64
  | 0, _, words => words
  | count + 1, bytes, words =>
      wordsOf count (bytes.drop 8)
        (words.push (UInt64.ofNat (BigEndian.decode (bytes.take 8))))

/-- Reads a filter; counts that no builder makes are refused before the words are looked at. -/
def decode (input : Bytes) : Except DecodeError (Filter × Bytes) := do
  match BigEndian.takeInt? 4 input with
  | none => throw .endOfInput
  | some (hashCount, rest) =>
      match BigEndian.takeInt? 4 rest with
      | none => throw .endOfInput
      | some (wordCount, rest) =>
          unless 1 ≤ hashCount ∧ hashCount ≤ FilterShape.maxHashCount do
            throw (.hashCount hashCount)
          unless 1 ≤ wordCount ∧ wordCount ≤ FilterBuilder.maxWords do
            throw (.wordCount wordCount)
          match rest.split? (8 * wordCount.toNat) with
          | none => throw .endOfInput
          | some (bytes, rest) =>
              return (⟨wordsOf wordCount.toNat bytes #[], hashCount.toNat⟩, rest)

def popCount (word : UInt64) : Nat :=
  (List.range 64).countP fun i => word.toNat.testBit i

def bitsSet (f : Filter) : Nat :=
  f.words.foldl (fun n word => n + popCount word) 0

def describe (f : Filter) : String :=
  s!"BloomFilter \x7b num_bits: {f.bitCount}, hash_count: {f.hashCount}, " ++
    s!"bits_set: {f.bitsSet} \x7d"

end Filter

end SortedTable
