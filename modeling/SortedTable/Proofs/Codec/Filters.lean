import SortedTable.Proofs.Codec.Numbers
import SortedTable.Proofs.Membership

namespace SortedTable.Filter

/-- The shapes that are accepted when a filter is read. -/
structure Storable (f : Filter) : Prop where
  hashCount_pos : 1 ≤ f.hashCount
  hashCount_le : f.hashCount ≤ FilterShape.maxHashCount
  words_pos : 1 ≤ f.words.size
  words_le : f.words.size ≤ FilterBuilder.maxWords

def wordBytes (words : List UInt64) : Bytes :=
  words.flatMap fun word => BigEndian.encode 8 word.toNat

theorem length_wordBytes (words : List UInt64) : (wordBytes words).length = 8 * words.length := by
  induction words with
  | nil => rfl
  | cons word words ih =>
      rw [wordBytes, List.flatMap_cons, List.length_append, BigEndian.length_encode,
        List.length_cons]
      unfold wordBytes at ih
      omega

theorem wordsOf_wordBytes (words : List UInt64) (found : Array UInt64) :
    wordsOf words.length (wordBytes words) found = found ++ words.toArray := by
  induction words generalizing found with
  | nil => simp [wordsOf]
  | cons word words ih =>
      have hword : UInt64.ofNat (BigEndian.decode (BigEndian.encode 8 word.toNat)) = word := by
        rw [BigEndian.decode_encode_of_lt word.toNat_lt, UInt64.ofNat_toNat]
      have hfield : (BigEndian.encode 8 word.toNat).length = 8 := BigEndian.length_encode 8 _
      rw [wordBytes, List.flatMap_cons, List.length_cons, wordsOf, List.take_left' hfield,
        List.drop_left' hfield, hword]
      change wordsOf words.length (wordBytes words) (found.push word) = _
      rw [ih, ← Array.toList_inj]
      simp

theorem exists_wordBytes {count : Nat} {bytes : Bytes} (h : bytes.length = 8 * count) :
    ∃ words : List UInt64, words.length = count ∧ bytes = wordBytes words := by
  induction count generalizing bytes with
  | zero => exact ⟨[], rfl, List.eq_nil_of_length_eq_zero h⟩
  | succ count ih =>
      obtain ⟨n, tail, hn, rfl⟩ := BigEndian.exists_encode (show 8 ≤ bytes.length by omega)
      rw [List.length_append, BigEndian.length_encode] at h
      obtain ⟨words, rfl, rfl⟩ := ih (show tail.length = 8 * count by omega)
      have hword : (UInt64.ofNat n).toNat = n := UInt64.toNat_ofNat_of_lt' hn
      refine ⟨UInt64.ofNat n :: words, rfl, ?_⟩
      rw [wordBytes, wordBytes, List.flatMap_cons, hword]

/-- The two numbers in front of the words. -/
def header (hashCount wordCount : Int) : Bytes := BigEndian.encodeInt 4 hashCount ++ BigEndian.encodeInt 4 wordCount

/-- The numbers in a header are such that a builder can have made them. -/
structure Admitted (hashCount wordCount : Int) : Prop where
  hashCount_pos : 1 ≤ hashCount
  hashCount_le : hashCount ≤ FilterShape.maxHashCount
  wordCount_pos : 1 ≤ wordCount
  wordCount_le : wordCount ≤ FilterBuilder.maxWords

theorem Admitted.fits {hashCount wordCount : Int} (h : Admitted hashCount wordCount) :
    BigEndian.Fits 4 hashCount ∧ BigEndian.Fits 4 wordCount := by
  obtain ⟨hhashes, hhashes', hwords, hwords'⟩ := h
  have hrange : BigEndian.range 4 = 4294967296 := rfl
  have hmax : FilterBuilder.maxWords = 16777216 := rfl
  have hmaxHashes : FilterShape.maxHashCount = 64 := rfl
  refine ⟨⟨?_, ?_⟩, ?_, ?_⟩ <;> omega

theorem length_header (hashCount wordCount : Int) : (header hashCount wordCount).length = 8 := by
  rw [header, List.length_append, BigEndian.length_encodeInt, BigEndian.length_encodeInt]

theorem header_inj {hashCount wordCount hashCount' wordCount' : Int} (hhashes : BigEndian.Fits 4 hashCount)
    (hwords : BigEndian.Fits 4 wordCount) (hhashes' : BigEndian.Fits 4 hashCount')
    (hwords' : BigEndian.Fits 4 wordCount') (h : header hashCount wordCount = header hashCount' wordCount') :
    hashCount = hashCount' ∧ wordCount = wordCount' := by
  have hlength := (BigEndian.length_encodeInt 4 hashCount).trans (BigEndian.length_encodeInt 4 hashCount').symm
  obtain ⟨hfirst, hsecond⟩ := List.append_inj h hlength
  constructor
  · rw [← BigEndian.decodeInt_encodeInt hhashes, hfirst, BigEndian.decodeInt_encodeInt hhashes']
  · rw [← BigEndian.decodeInt_encodeInt hwords, hsecond, BigEndian.decodeInt_encodeInt hwords']

theorem exists_header {input : Bytes} (h : 8 ≤ input.length) :
    ∃ (hashCount wordCount : Int) (behind : Bytes),
      BigEndian.Fits 4 hashCount ∧ BigEndian.Fits 4 wordCount ∧ input = header hashCount wordCount ++ behind := by
  obtain ⟨hashCount, middle, hhashes, rfl⟩ := BigEndian.exists_encodeInt (show 4 ≤ input.length by omega)
  rw [List.length_append, BigEndian.length_encodeInt] at h
  obtain ⟨wordCount, behind, hwords, rfl⟩ := BigEndian.exists_encodeInt (show 4 ≤ middle.length by omega)
  exact ⟨hashCount, wordCount, behind, hhashes, hwords, (List.append_assoc _ _ _).symm⟩

theorem decode_of_length_lt {input : Bytes} (h : input.length < 8) : decode input = .error .endOfInput := by
  unfold decode
  rcases hhashes : BigEndian.takeInt? 4 input with - | ⟨hashCount, middle⟩
  · rfl
  · obtain ⟨digits, rfl, hdigits, -⟩ := BigEndian.takeInt?_eq_some_iff.mp hhashes
    have hwords : BigEndian.takeInt? 4 middle = none := by
      rw [List.length_append] at h
      rw [BigEndian.takeInt?_eq_none_iff]
      omega
    dsimp only
    rw [hwords]
    rfl

theorem decode_header {hashCount wordCount : Int} (hhashes : BigEndian.Fits 4 hashCount)
    (hwords : BigEndian.Fits 4 wordCount) (behind : Bytes) :
    decode (header hashCount wordCount ++ behind) =
      if 1 ≤ hashCount ∧ hashCount ≤ FilterShape.maxHashCount then
        if 1 ≤ wordCount ∧ wordCount ≤ FilterBuilder.maxWords then
          match behind.split? (8 * wordCount.toNat) with
          | none => .error .endOfInput
          | some (bytes, rest) => .ok (⟨wordsOf wordCount.toNat bytes #[], hashCount.toNat⟩, rest)
        else .error (.wordCount wordCount)
      else .error (.hashCount hashCount) := by
  unfold decode
  rw [header, List.append_assoc, BigEndian.takeInt?_encodeInt hhashes]
  dsimp only
  rw [BigEndian.takeInt?_encodeInt hwords]
  dsimp only
  split
  · split
    · cases behind.split? (8 * wordCount.toNat) <;> rfl
    · rfl
  · rfl

theorem decode_of_admitted {hashCount wordCount : Int} (h : Admitted hashCount wordCount) (behind : Bytes) :
    decode (header hashCount wordCount ++ behind) =
      match behind.split? (8 * wordCount.toNat) with
      | none => .error .endOfInput
      | some (bytes, rest) => .ok (⟨wordsOf wordCount.toNat bytes #[], hashCount.toNat⟩, rest) := by
  rw [decode_header h.fits.1 h.fits.2, if_pos ⟨h.hashCount_pos, h.hashCount_le⟩,
    if_pos ⟨h.wordCount_pos, h.wordCount_le⟩]

theorem admitted_of_decode {hashCount wordCount : Int} {behind rest : Bytes} {f : Filter}
    (hhashes : BigEndian.Fits 4 hashCount) (hwords : BigEndian.Fits 4 wordCount)
    (h : decode (header hashCount wordCount ++ behind) = .ok (f, rest)) : Admitted hashCount wordCount := by
  rw [decode_header hhashes hwords] at h
  split at h
  · rename_i hhashCount
    split at h
    · rename_i hwordCount
      exact ⟨hhashCount.1, hhashCount.2, hwordCount.1, hwordCount.2⟩
    · cases h
  · cases h

theorem Storable.admitted {f : Filter} (h : f.Storable) : Admitted f.hashCount f.words.size := by
  obtain ⟨hhashes, hhashes', hwords, hwords'⟩ := h
  constructor <;> omega

theorem encode_eq {f : Filter} (h : f.Storable) :
    f.encode = header f.hashCount f.words.size ++ wordBytes f.words.toList := by
  have hrange : BigEndian.range 4 = FilterBuilder.maxWords * 256 := rfl
  have hmax : FilterBuilder.maxWords = 16777216 := rfl
  have hhashes := Nat.le_trans h.hashCount_le (show FilterShape.maxHashCount ≤ FilterBuilder.maxWords by decide)
  have hwords := h.words_le
  rw [header, BigEndian.encodeInt_natCast (by omega), BigEndian.encodeInt_natCast (by omega)]
  rfl

theorem length_encode (f : Filter) : f.encode.length = f.storedSize := by
  change (_ ++ wordBytes f.words.toList).length = _
  rw [List.length_append, List.length_append, BigEndian.length_encode, BigEndian.length_encode, length_wordBytes,
    Array.length_toList, storedSize]

theorem decode_encode {f : Filter} (h : f.Storable) (rest : Bytes) :
    decode (f.encode ++ rest) = .ok (f, rest) := by
  have hsplit : (wordBytes f.words.toList ++ rest).split? (8 * (f.words.size : Int).toNat) =
      some (wordBytes f.words.toList, rest) := by
    apply Bytes.split?_eq_some_iff.mpr
    refine ⟨rfl, ?_⟩
    rw [length_wordBytes, Array.length_toList, Int.toNat_natCast]
  have hround : wordsOf (f.words.size : Int).toNat (wordBytes f.words.toList) #[] = f.words := by
    have hwords := wordsOf_wordBytes f.words.toList #[]
    rw [Array.length_toList] at hwords
    simpa using hwords
  rw [encode_eq h, List.append_assoc, decode_of_admitted h.admitted, hsplit]
  dsimp only
  rw [hround, Int.toNat_natCast]

theorem decode_encode_self {f : Filter} (h : f.Storable) : decode f.encode = .ok (f, []) := by
  have hround := decode_encode h []
  rwa [List.append_nil] at hround

theorem storable_sized (expected : Nat) (rate : Float) :
    (FilterBuilder.sized expected rate).build.Storable where
  hashCount_pos := Nat.le_max_left 1 _
  hashCount_le := by
    change max 1 (min FilterShape.maxHashCount _) ≤ FilterShape.maxHashCount
    have hmax : FilterShape.maxHashCount = 64 := rfl
    omega
  words_pos := by
    have hmax : FilterBuilder.maxWords = 16777216 := rfl
    simp only [FilterBuilder.sized, FilterBuilder.build, Array.size_replicate,
      FilterBuilder.wordsFor]
    omega
  words_le := by
    simp only [FilterBuilder.sized, FilterBuilder.build, Array.size_replicate,
      FilterBuilder.wordsFor]
    exact Nat.min_le_left _ _

theorem storable_insert {b : FilterBuilder} (h : b.build.Storable) (key : Bytes) :
    (b.insert key).build.Storable where
  hashCount_pos := h.hashCount_pos
  hashCount_le := h.hashCount_le
  words_pos := by
    have := h.words_pos
    simpa [FilterBuilder.build] using this
  words_le := by
    have := h.words_le
    simpa [FilterBuilder.build] using this

/-- What is read as a filter is what is written of it. -/
theorem decode_eq_ok_iff {input rest : Bytes} {f : Filter} :
    decode input = .ok (f, rest) ↔ f.Storable ∧ input = f.encode ++ rest := by
  constructor
  · intro h
    by_cases hshort : input.length < 8
    · rw [decode_of_length_lt hshort] at h
      cases h
    obtain ⟨hashCount, wordCount, behind, hhashes, hwords, rfl⟩ := exists_header (Nat.le_of_not_lt hshort)
    have hadmitted := admitted_of_decode hhashes hwords h
    rw [decode_of_admitted hadmitted] at h
    rcases hsplit : behind.split? (8 * wordCount.toNat) with - | ⟨bytes, behind'⟩
    · rw [hsplit] at h
      cases h
    rw [hsplit] at h
    cases h
    obtain ⟨rfl, hlength⟩ := Bytes.split?_eq_some_iff.mp hsplit
    obtain ⟨words, hcount, rfl⟩ := exists_wordBytes hlength
    have hround := wordsOf_wordBytes words #[]
    rw [hcount, Array.empty_append] at hround
    obtain ⟨hhashCount, hhashCount', hwordCount, hwordCount'⟩ := hadmitted
    have hsize : words.toArray.size = wordCount.toNat := by rw [List.size_toArray, hcount]
    have hstorable : (⟨words.toArray, hashCount.toNat⟩ : Filter).Storable := by
      constructor <;> dsimp only <;> omega
    have hfields : header hashCount wordCount = header (hashCount.toNat : Nat) (words.length : Nat) := by
      rw [hcount, Int.toNat_of_nonneg (by omega), Int.toNat_of_nonneg (by omega)]
    rw [hround]
    refine ⟨hstorable, ?_⟩
    rw [encode_eq hstorable, hfields, List.append_assoc]
    rfl
  · rintro ⟨hstorable, rfl⟩
    exact decode_encode hstorable rest

theorem decode_of_isPrefix {f : Filter} {input : Bytes} (h : f.Storable) (hbegins : input <+: f.encode)
    (hcut : input ≠ f.encode) : decode input = .error .endOfInput := by
  by_cases hshort : input.length < 8
  · exact decode_of_length_lt hshort
  obtain ⟨hashCount, wordCount, behind, hhashes, hwords, rfl⟩ := exists_header (Nat.le_of_not_lt hshort)
  obtain ⟨extra, hextra⟩ := hbegins
  rw [encode_eq h, List.append_assoc] at hextra
  -- The header is not cut, so it is that of the filter, and it is the words that are cut off.
  obtain ⟨hheader, hwordBytes⟩ := List.append_inj hextra (by rw [length_header, length_header])
  have hfits := h.admitted.fits
  obtain ⟨rfl, rfl⟩ := header_inj hhashes hwords hfits.1 hfits.2 hheader
  have hextraPos : 0 < extra.length := by
    apply List.length_pos_iff.mpr
    rintro rfl
    rw [List.append_nil] at hwordBytes
    exact hcut (by rw [encode_eq h, hwordBytes])
  have hsplit : behind.split? (8 * (f.words.size : Int).toNat) = none := by
    have hlength := congrArg List.length hwordBytes
    have hsize : f.words.toList.length = f.words.size := Array.length_toList
    rw [List.length_append, length_wordBytes, hsize] at hlength
    rw [Bytes.split?_eq_none_iff, Int.toNat_natCast]
    omega
  rw [decode_of_admitted h.admitted, hsplit]

theorem exists_decode_iff {input : Bytes} :
    (∃ f rest, decode input = .ok (f, rest)) ↔
      ∃ (hashCount wordCount : Int) (behind : Bytes), Admitted hashCount wordCount ∧
        input = header hashCount wordCount ++ behind ∧ 8 * wordCount.toNat ≤ behind.length := by
  constructor
  · rintro ⟨f, rest, hread⟩
    obtain ⟨hstorable, rfl⟩ := decode_eq_ok_iff.mp hread
    refine ⟨f.hashCount, f.words.size, wordBytes f.words.toList ++ rest, hstorable.admitted, ?_, ?_⟩
    · rw [encode_eq hstorable, List.append_assoc]
    · rw [List.length_append, length_wordBytes, Array.length_toList, Int.toNat_natCast]
      exact Nat.le_add_right _ _
  · rintro ⟨hashCount, wordCount, behind, hadmitted, rfl, hlength⟩
    rw [decode_of_admitted hadmitted]
    rcases hsplit : behind.split? (8 * wordCount.toNat) with - | ⟨bytes, rest⟩
    · exact absurd hlength (Nat.not_le.mpr (Bytes.split?_eq_none_iff.mp hsplit))
    · exact ⟨_, _, rfl⟩

/-- **The stored form of a filter.** A filter of a shape that builders make is stored in the size that it tells, is read
back with what follows it left over, and is refused if it is cut off anywhere. Reading succeeds exactly on a header
that a builder can have made with enough bytes behind it; it takes the bytes of the header and of the words, and these
are the bytes that are written of the filter that is read. -/
theorem stored_form_exact :
    (∀ f : Filter, f.Storable → f.encode.length = f.storedSize ∧
      (∀ rest, decode (f.encode ++ rest) = .ok (f, rest)) ∧
      ∀ input, input <+: f.encode → input ≠ f.encode → decode input = .error .endOfInput) ∧
    (∀ input : Bytes, (∃ f rest, decode input = .ok (f, rest)) ↔
      ∃ (hashCount wordCount : Int) (behind : Bytes), Admitted hashCount wordCount ∧
        input = header hashCount wordCount ++ behind ∧ 8 * wordCount.toNat ≤ behind.length) ∧
    ∀ (input : Bytes) (f : Filter) (rest : Bytes), decode input = .ok (f, rest) →
      f.Storable ∧ input = f.encode ++ rest ∧ input.length = 8 + 8 * f.words.size + rest.length := by
  refine ⟨fun f h => ⟨length_encode f, decode_encode h, fun input => decode_of_isPrefix h⟩,
    fun input => exists_decode_iff, fun input f rest hread => ?_⟩
  obtain ⟨hstorable, rfl⟩ := decode_eq_ok_iff.mp hread
  refine ⟨hstorable, rfl, ?_⟩
  rw [List.length_append, length_encode, storedSize]

/-- Three probes in two words, with a byte behind them and without the last byte. -/
theorem stored_form_exact_two_words :
    (⟨#[1, 2], 3⟩ : Filter).encode.length = 24 ∧
      decode ((⟨#[1, 2], 3⟩ : Filter).encode ++ [7]) = .ok (⟨#[1, 2], 3⟩, [7]) ∧
      decode ((⟨#[1, 2], 3⟩ : Filter).encode.take 23) = .error .endOfInput ∧
      ((⟨#[1, 2], 3⟩ : Filter).encode ++ [7]).length = 8 + 8 * 2 + 1 := by
  have hstorable : (⟨#[1, 2], 3⟩ : Filter).Storable := ⟨by decide, by decide, by decide, by decide⟩
  obtain ⟨hlength, hback, hcut⟩ := stored_form_exact.1 _ hstorable
  have hread := stored_form_exact.2.2 _ _ _ (hback [7])
  refine ⟨hlength, hback [7], hcut _ (List.take_prefix _ _) fun hsame => ?_, hread.2.2⟩
  have hlengths := congrArg List.length hsame
  rw [List.length_take, hlength] at hlengths
  exact absurd hlengths (by decide)

end SortedTable.Filter
