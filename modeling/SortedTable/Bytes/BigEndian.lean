import SortedTable.Bytes

/-!
# Big-endian numbers

Fixed-width numbers, the most significant byte first. A number too large for its width loses its high
digits; a signed one is written in two's complement.
-/

namespace SortedTable.BigEndian

/-- The last `width` digits of `n` to the base 256. -/
def encode : (width : Nat) → (n : Nat) → Bytes
  | 0, _ => []
  | width + 1, n => encode width (n / 256) ++ [UInt8.ofNat n]

/-- How many numbers there are of so many digits. -/
def range : (width : Nat) → Nat
  | 0 => 1
  | width + 1 => 256 * range width

def decode (digits : Bytes) : Nat :=
  digits.foldl (fun n digit => 256 * n + digit.toNat) 0

def encodeInt (width : Nat) (i : Int) : Bytes :=
  encode width (i % (range width : Int)).toNat

/-- The upper half of the range stands for the negative numbers. -/
def decodeInt (digits : Bytes) : Int :=
  (decode digits : Int).bmod (range digits.length)

def take? (width : Nat) (input : Bytes) : Option (Nat × Bytes) :=
  (input.split? width).map fun (digits, rest) => (decode digits, rest)

def takeInt? (width : Nat) (input : Bytes) : Option (Int × Bytes) :=
  (input.split? width).map fun (digits, rest) => (decodeInt digits, rest)

@[simp]
theorem length_encode (width n : Nat) : (encode width n).length = width := by
  induction width generalizing n with
  | zero => rfl
  | succ width ih => simp [encode, ih]

@[simp]
theorem length_encodeInt (width : Nat) (i : Int) : (encodeInt width i).length = width :=
  length_encode width _

theorem decode_append_singleton (digits : Bytes) (digit : UInt8) :
    decode (digits ++ [digit]) = 256 * decode digits + digit.toNat := by
  simp [decode]

/-- Reading gives back the number that was written, less the digits that did not fit. -/
theorem decode_encode (width n : Nat) : decode (encode width n) = n % range width := by
  induction width generalizing n with
  | zero => simp [encode, decode, range, Nat.mod_one]
  | succ width ih =>
      rw [encode, decode_append_singleton, ih, UInt8.toNat_ofNat', range, Nat.mod_mul]
      omega

theorem encode_decode (digits : Bytes) : encode digits.length (decode digits) = digits := by
  suffices ∀ reversed : Bytes,
      encode reversed.reverse.length (decode reversed.reverse) = reversed.reverse by
    simpa using this digits.reverse
  intro reversed
  induction reversed with
  | nil => rfl
  | cons digit digits ih =>
      have hdigit := digit.toNat_lt
      rw [List.reverse_cons, decode_append_singleton, List.length_append, List.length_singleton,
        encode, show (256 * decode digits.reverse + digit.toNat) / 256 = decode digits.reverse by
          omega, ih]
      congr 2
      apply UInt8.toNat_inj.mp
      rw [UInt8.toNat_ofNat']
      omega

theorem take?_eq_some_iff {width n : Nat} {input rest : Bytes} :
    take? width input = some (n, rest) ↔
      ∃ digits : Bytes, input = digits ++ rest ∧ digits.length = width ∧ n = decode digits := by
  simp only [take?, Option.map_eq_some_iff, Prod.exists, Prod.mk.injEq, Bytes.split?_eq_some_iff]
  constructor
  · rintro ⟨digits, _, ⟨h, hlen⟩, rfl, rfl⟩
    exact ⟨digits, h, hlen, rfl⟩
  · rintro ⟨digits, h, hlen, rfl⟩
    exact ⟨digits, rest, ⟨h, hlen⟩, rfl, rfl⟩

theorem takeInt?_eq_some_iff {width : Nat} {i : Int} {input rest : Bytes} :
    takeInt? width input = some (i, rest) ↔
      ∃ digits : Bytes, input = digits ++ rest ∧ digits.length = width ∧ i = decodeInt digits := by
  simp only [takeInt?, Option.map_eq_some_iff, Prod.exists, Prod.mk.injEq,
    Bytes.split?_eq_some_iff]
  constructor
  · rintro ⟨digits, _, ⟨h, hlen⟩, rfl, rfl⟩
    exact ⟨digits, h, hlen, rfl⟩
  · rintro ⟨digits, h, hlen, rfl⟩
    exact ⟨digits, rest, ⟨h, hlen⟩, rfl, rfl⟩

end SortedTable.BigEndian
