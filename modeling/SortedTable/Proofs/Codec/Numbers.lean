import SortedTable.Bytes.BigEndian

namespace SortedTable

theorem Bytes.split?_extend {count : Nat} {input first rest : Bytes}
    (h : input.split? count = some (first, rest)) (extra : Bytes) :
    (input ++ extra).split? count = some (first, rest ++ extra) := by
  obtain ⟨rfl, hlength⟩ := Bytes.split?_eq_some_iff.mp h
  exact Bytes.split?_eq_some_iff.mpr ⟨List.append_assoc _ _ _, hlength⟩

/-- A cut behind a first part is a cut of what comes after it. -/
theorem Bytes.take_append_of_length_le {first : Bytes} {n : Nat} (h : first.length ≤ n) (rest : Bytes) :
    (first ++ rest).take n = first ++ rest.take (n - first.length) := by
  rw [List.take_append, List.take_of_length_le h]

namespace BigEndian

theorem range_pos (width : Nat) : 0 < range width := by
  induction width with
  | zero => decide
  | succ width ih =>
      rw [range]
      omega

theorem decode_lt (digits : Bytes) : decode digits < range digits.length := by
  have hround := decode_encode digits.length (decode digits)
  rw [encode_decode] at hround
  rw [hround]
  exact Nat.mod_lt _ (range_pos _)

theorem decode_encode_of_lt {width n : Nat} (h : n < range width) :
    decode (encode width n) = n := by
  rw [decode_encode, Nat.mod_eq_of_lt h]

/-- A signed number fits a field if it is not below the least and not above the largest number of it. -/
def Fits (width : Nat) (i : Int) : Prop := -(range width : Int) ≤ i * 2 ∧ i * 2 < range width

theorem decodeInt_encodeInt {width : Nat} {i : Int} (h : Fits width i) :
    decodeInt (encodeInt width i) = i := by
  have hpos : (0 : Int) < range width := by exact_mod_cast range_pos width
  have hlt : (i % (range width : Int)).toNat < range width := by
    have := Int.emod_lt_of_pos i hpos
    omega
  rw [decodeInt, length_encodeInt, encodeInt, decode_encode_of_lt hlt,
    Int.toNat_of_nonneg (Int.emod_nonneg i (Int.ne_of_gt hpos)), Int.emod_bmod]
  exact Int.bmod_eq_of_le_mul_two h.1 h.2

theorem encodeInt_decodeInt (digits : Bytes) : encodeInt digits.length (decodeInt digits) = digits := by
  have hlt : (decode digits : Int) < range digits.length := by exact_mod_cast decode_lt digits
  rw [encodeInt, decodeInt, Int.bmod_emod, Int.emod_eq_of_lt (Int.natCast_nonneg _) hlt, Int.toNat_natCast,
    encode_decode]

theorem fits_decodeInt (digits : Bytes) : Fits digits.length (decodeInt digits) := by
  have hpos := range_pos digits.length
  have hlow : -((range digits.length : Int) / 2) ≤ decodeInt digits := Int.le_bmod hpos
  have hhigh : decodeInt digits < ((range digits.length : Int) + 1) / 2 := Int.bmod_lt hpos
  constructor <;> omega

/-- Any bytes begin with a number, if there are enough of them. -/
theorem exists_encode {width : Nat} {input : Bytes} (h : width ≤ input.length) :
    ∃ n tail, n < range width ∧ input = encode width n ++ tail := by
  have hlength : (input.take width).length = width := List.length_take_of_le h
  have hlt := decode_lt (input.take width)
  have hround := encode_decode (input.take width)
  rw [hlength] at hlt hround
  exact ⟨_, input.drop width, hlt, by rw [hround, List.take_append_drop]⟩

/-- Any bytes begin with a signed number, if there are enough of them. -/
theorem exists_encodeInt {width : Nat} {input : Bytes} (h : width ≤ input.length) :
    ∃ size tail, Fits width size ∧ input = encodeInt width size ++ tail := by
  have hlength : (input.take width).length = width := List.length_take_of_le h
  have hfits := fits_decodeInt (input.take width)
  have hround := encodeInt_decodeInt (input.take width)
  rw [hlength] at hfits hround
  exact ⟨_, input.drop width, hfits, by rw [hround, List.take_append_drop]⟩

theorem takeInt?_encodeInt {width : Nat} {i : Int} (h : Fits width i) (rest : Bytes) :
    takeInt? width (encodeInt width i ++ rest) = some (i, rest) :=
  takeInt?_eq_some_iff.mpr
    ⟨encodeInt width i, rfl, length_encodeInt width i, (decodeInt_encodeInt h).symm⟩

/-- A signed number is read where it is written, and each in one way only. -/
theorem takeInt?_eq_some_iff_fits {width : Nat} {i : Int} {input rest : Bytes} :
    takeInt? width input = some (i, rest) ↔ Fits width i ∧ input = encodeInt width i ++ rest := by
  constructor
  · intro h
    obtain ⟨digits, rfl, rfl, rfl⟩ := takeInt?_eq_some_iff.mp h
    exact ⟨fits_decodeInt digits, by rw [encodeInt_decodeInt]⟩
  · rintro ⟨hfits, rfl⟩
    exact takeInt?_encodeInt hfits rest

theorem fits_natCast {width n : Nat} (h : n * 2 < range width) : Fits width n := by
  have hrange : (n : Int) * 2 < range width := by exact_mod_cast h
  refine ⟨?_, hrange⟩
  omega

theorem encodeInt_natCast {width n : Nat} (h : n < range width) :
    encodeInt width n = encode width n := by
  rw [encodeInt, Int.emod_eq_of_lt (Int.natCast_nonneg n) (by exact_mod_cast h), Int.toNat_natCast]

theorem takeInt?_eq_none_iff {width : Nat} {input : Bytes} : takeInt? width input = none ↔ input.length < width := by
  rw [takeInt?, Option.map_eq_none_iff, Bytes.split?_eq_none_iff]

theorem takeInt?_extend {width : Nat} {i : Int} {input rest : Bytes}
    (h : takeInt? width input = some (i, rest)) (extra : Bytes) :
    takeInt? width (input ++ extra) = some (i, rest ++ extra) := by
  obtain ⟨hfits, rfl⟩ := takeInt?_eq_some_iff_fits.mp h
  exact takeInt?_eq_some_iff_fits.mpr ⟨hfits, List.append_assoc _ _ _⟩

end BigEndian

end SortedTable
