import Mathlib.Data.Nat.Bitwise
import SortedTable.Filter

namespace SortedTable

namespace Filter

def mask (bit : Nat) : UInt64 := 1 <<< UInt64.ofNat (bit % 64)

theorem toNat_mask (bit : Nat) : (mask bit).toNat = 2 ^ (bit % 64) := by
  have hbit : bit % 64 < 64 := Nat.mod_lt bit (by decide)
  have hshift : (UInt64.ofNat (bit % 64)).toNat % 64 = bit % 64 := by
    rw [UInt64.toNat_ofNat']
    omega
  have hpow : 2 ^ (bit % 64) < 2 ^ 64 := Nat.pow_lt_pow_right (by decide) hbit
  rw [mask, UInt64.toNat_shiftLeft, hshift, UInt64.toNat_one, Nat.one_shiftLeft,
    Nat.mod_eq_of_lt hpow]

theorem and_mask_ne_zero_iff (word : UInt64) (bit : Nat) :
    word &&& mask bit ≠ 0 ↔ word.toNat.testBit (bit % 64) = true := by
  have hzero : word &&& mask bit = 0 ↔ word.toNat &&& 2 ^ (bit % 64) = 0 := by
    rw [← UInt64.toNat_inj, UInt64.toNat_and, toNat_mask]
    rfl
  rw [Ne, hzero, Nat.and_two_pow]
  have hpos : 0 < 2 ^ (bit % 64) := Nat.pow_pos (by decide)
  cases word.toNat.testBit (bit % 64)
  · simp
  · simp

theorem or_mask_and_mask_ne_zero_iff (word : UInt64) (bit other : Nat) :
    (word ||| mask bit) &&& mask other ≠ 0 ↔
      bit % 64 = other % 64 ∨ word &&& mask other ≠ 0 := by
  rw [and_mask_ne_zero_iff, and_mask_ne_zero_iff, UInt64.toNat_or, Nat.testBit_or, toNat_mask,
    Nat.testBit_two_pow, Bool.or_eq_true, decide_eq_true_iff, or_comm]

def wordsHaveBit (words : Array UInt64) (bit : Nat) : Bool :=
  words.getD (bit / 64) 0 &&& mask bit ≠ 0

theorem hasBit_eq (f : Filter) (bit : Nat) : f.hasBit bit = wordsHaveBit f.words bit := rfl

theorem wordsHaveBit_setBit {words : Array UInt64} {bit other : Nat}
    (hother : other < 64 * words.size) :
    wordsHaveBit (FilterBuilder.setBit words bit) other =
      (decide (bit = other) || wordsHaveBit words other) := by
  have hindex : other / 64 < words.size := by omega
  rw [Bool.eq_iff_iff]
  simp only [wordsHaveBit, FilterBuilder.setBit, Array.getD_eq_getD_getElem?,
    Array.getElem?_modify, Array.getElem?_eq_getElem hindex, Option.getD_some, Bool.or_eq_true,
    decide_eq_true_iff]
  by_cases hword : bit / 64 = other / 64
  · simp only [hword, ↓reduceIte, Option.map_some, Option.getD_some]
    change (words[other / 64] ||| mask bit) &&& mask other ≠ 0 ↔ _
    rw [or_mask_and_mask_ne_zero_iff]
    have hsame : bit % 64 = other % 64 ↔ bit = other := by omega
    rw [hsame]
  · have hne : bit ≠ other := fun h => hword (by rw [h])
    simp only [hword, ↓reduceIte, hne, false_or, Option.getD_some]

theorem size_setBit (words : Array UInt64) (bit : Nat) :
    (FilterBuilder.setBit words bit).size = words.size := by
  rw [FilterBuilder.setBit, Array.size_modify]

theorem wordsHaveBit_foldl_setBit {words : Array UInt64} {bits : List Nat} {other : Nat}
    (hother : other < 64 * words.size) :
    wordsHaveBit (bits.foldl FilterBuilder.setBit words) other =
      (decide (other ∈ bits) || wordsHaveBit words other) := by
  induction bits generalizing words with
  | nil => simp
  | cons bit bits ih =>
      rw [List.foldl_cons, ih (by rw [size_setBit]; exact hother), wordsHaveBit_setBit hother,
        Bool.eq_iff_iff]
      simp only [Bool.or_eq_true, decide_eq_true_iff, List.mem_cons]
      constructor
      · rintro (h | h | h)
        · exact .inl (.inr h)
        · exact .inl (.inl h.symm)
        · exact .inr h
      · rintro ((h | h) | h)
        · exact .inr (.inl h.symm)
        · exact .inl h
        · exact .inr (.inr h)

/-- A bit of a filter is set: binary digit `bit % 64` of word `bit / 64` is a one. -/
def Holds (f : Filter) (bit : Nat) : Prop := (f.words.getD (bit / 64) 0).toNat.testBit (bit % 64) = true

theorem hasBit_iff_holds {f : Filter} {bit : Nat} : f.hasBit bit = true ↔ f.Holds bit := by
  rw [hasBit, decide_eq_true_iff]
  exact and_mask_ne_zero_iff _ bit

theorem mayContain_iff {f : Filter} {key : Bytes} :
    f.mayContain key = true ↔ ∀ bit ∈ Probe.bitsOf key f.hashCount f.bitCount, f.Holds bit := by
  simp only [mayContain, List.all_eq_true, hasBit_iff_holds]

theorem Holds.lt_bitCount {f : Filter} {bit : Nat} (h : f.Holds bit) : bit < f.bitCount := by
  refine Decidable.byContradiction fun hbehind => ?_
  have hword : f.words.size ≤ bit / 64 := by
    unfold bitCount at hbehind
    omega
  have hzero : f.words.getD (bit / 64) 0 = 0 := by
    rw [Array.getD_eq_getD_getElem?, Array.getElem?_eq_none hword, Option.getD_none]
  rw [Holds, hzero, UInt64.toNat_zero, Nat.zero_testBit] at h
  cases h

/-- A filter is decided by its shape and by the bits that are set in it. -/
theorem ext_holds {f g : Filter} (hwords : f.words.size = g.words.size) (hhashes : f.hashCount = g.hashCount)
    (h : ∀ bit, f.Holds bit ↔ g.Holds bit) : f = g := by
  have hsame : f.words = g.words := by
    apply Array.ext hwords
    intro i hi hi'
    apply UInt64.toNat_inj.mp
    apply Nat.eq_of_testBit_eq
    intro digit
    by_cases hdigit : digit < 64
    · have hdiv : (64 * i + digit) / 64 = i := by omega
      have hmod : (64 * i + digit) % 64 = digit := by omega
      have hbit := h (64 * i + digit)
      simp only [Holds, hdiv, hmod, Array.getD_eq_getD_getElem?, Array.getElem?_eq_getElem hi,
        Array.getElem?_eq_getElem hi', Option.getD_some] at hbit
      exact Bool.eq_iff_iff.mpr hbit
    · -- No word has a digit as high as this.
      have hhigh : ∀ word : UInt64, word.toNat.testBit digit = false := by
        intro word
        apply Nat.testBit_lt_two_pow
        exact Nat.lt_of_lt_of_le word.toNat_lt (Nat.pow_le_pow_right (by decide) (Nat.le_of_not_lt hdigit))
      rw [hhigh, hhigh]
  cases f
  cases g
  cases hsame
  cases hhashes
  rfl

end Filter

namespace FilterBuilder

variable {b : FilterBuilder} {keys : List Bytes} {key : Bytes} {bit : Nat}

def insertAll (b : FilterBuilder) (keys : List Bytes) : FilterBuilder := keys.foldl insert b

/-- The bits that are probed for a key in a filter of this shape. -/
def probes (b : FilterBuilder) (key : Bytes) : List Nat := Probe.bitsOf key b.hashCount (64 * b.words.size)

theorem bitsOf_lt {key : Bytes} {hashCount bits bit : Nat} (hbits : 0 < bits)
    (h : bit ∈ Probe.bitsOf key hashCount bits) : bit < bits := by
  obtain ⟨i, -, rfl⟩ := List.mem_map.mp h
  exact Nat.mod_lt _ hbits

theorem size_words_setBits (words : Array UInt64) (bits : List Nat) :
    (bits.foldl setBit words).size = words.size := by
  induction bits generalizing words with
  | nil => rfl
  | cons bit bits ih => rw [List.foldl_cons, ih, Filter.size_setBit]

@[simp]
theorem size_words_insert (b : FilterBuilder) (key : Bytes) :
    (b.insert key).words.size = b.words.size :=
  size_words_setBits _ _

@[simp]
theorem hashCount_insert (b : FilterBuilder) (key : Bytes) :
    (b.insert key).hashCount = b.hashCount := rfl

@[simp]
theorem probes_insert (b : FilterBuilder) (key : Bytes) : (b.insert key).probes = b.probes := by
  funext other
  rw [probes, probes, size_words_insert, hashCount_insert]

theorem insertAll_append (b : FilterBuilder) (keys more : List Bytes) :
    b.insertAll (keys ++ more) = (b.insertAll keys).insertAll more :=
  List.foldl_append

/-- Adding keys leaves the shape of the filter as it is. -/
theorem shape_insertAll (b : FilterBuilder) (keys : List Bytes) :
    (b.insertAll keys).words.size = b.words.size ∧ (b.insertAll keys).hashCount = b.hashCount := by
  induction keys generalizing b with
  | nil => exact ⟨rfl, rfl⟩
  | cons first rest ih =>
      obtain ⟨hwords, hhashes⟩ := ih (b.insert first)
      exact ⟨hwords.trans (size_words_insert b first), hhashes⟩

/-- Adding a key sets the bits that are probed for it and leaves the others as they are. -/
theorem holds_insert_iff (hwords : 0 < b.words.size) :
    (b.insert key).build.Holds bit ↔ bit ∈ b.probes key ∨ b.build.Holds bit := by
  by_cases hbit : bit < 64 * b.words.size
  · rw [← Filter.hasBit_iff_holds, ← Filter.hasBit_iff_holds, Filter.hasBit_eq, Filter.hasBit_eq]
    change Filter.wordsHaveBit ((b.probes key).foldl setBit b.words) bit = true ↔ _
    rw [Filter.wordsHaveBit_foldl_setBit hbit, Bool.or_eq_true, decide_eq_true_iff]
    rfl
  · have hbuilt : ¬ (b.insert key).build.Holds bit := by
      intro hholds
      have hlt := hholds.lt_bitCount
      change bit < 64 * (b.insert key).words.size at hlt
      rw [size_words_insert] at hlt
      exact hbit hlt
    have hprobed : bit ∉ b.probes key := fun h => hbit (bitsOf_lt (by omega) h)
    have hbefore : ¬ b.build.Holds bit := fun hholds => hbit hholds.lt_bitCount
    exact iff_of_false hbuilt (not_or_intro hprobed hbefore)

theorem holds_insertAll_iff (hwords : 0 < b.words.size) :
    (b.insertAll keys).build.Holds bit ↔ (∃ key ∈ keys, bit ∈ b.probes key) ∨ b.build.Holds bit := by
  induction keys generalizing b with
  | nil =>
      rw [or_iff_right]
      · rfl
      · rintro ⟨key, hkey, -⟩
        exact List.not_mem_nil hkey
  | cons first rest ih =>
      have hrest := ih (b := b.insert first) (by rwa [size_words_insert])
      rw [probes_insert, holds_insert_iff hwords, ← or_assoc, or_comm (b := bit ∈ b.probes first)] at hrest
      simp only [List.mem_cons, exists_eq_or_imp]
      exact hrest

theorem mayContain_insertAll_iff (hwords : 0 < b.words.size) :
    (b.insertAll keys).build.mayContain key = true ↔
      ∀ bit ∈ b.probes key, (∃ added ∈ keys, bit ∈ b.probes added) ∨ b.build.Holds bit := by
  obtain ⟨hsize, hhashes⟩ := shape_insertAll b keys
  have hprobes : Probe.bitsOf key (b.insertAll keys).build.hashCount (b.insertAll keys).build.bitCount =
      b.probes key := by
    change Probe.bitsOf key (b.insertAll keys).hashCount (64 * (b.insertAll keys).words.size) = _
    rw [hsize, hhashes, probes]
  rw [Filter.mayContain_iff, hprobes]
  exact forall₂_congr fun bit _ => holds_insertAll_iff hwords

/-- A key that was added is not denied, and no key that was not denied before. -/
theorem mayContain_insertAll (hwords : 0 < b.words.size) (h : key ∈ keys ∨ b.build.mayContain key = true) :
    (b.insertAll keys).build.mayContain key = true := by
  rw [mayContain_insertAll_iff hwords]
  intro bit hbit
  rcases h with hadded | hbefore
  · exact .inl ⟨key, hadded, hbit⟩
  · exact .inr (Filter.mayContain_iff.mp hbefore bit hbit)

/-- A builder to which no key was added. -/
def blank (wordCount hashCount : Nat) : FilterBuilder := ⟨Array.replicate wordCount 0, hashCount, 0⟩

theorem sized_eq_blank (expected : Nat) (rate : Float) :
    sized expected rate =
      blank (wordsFor (expected * (FilterShape.ofRate rate).bitsPerKey)) (FilterShape.ofRate rate).hashCount := rfl

theorem size_words_blank (wordCount hashCount : Nat) : (blank wordCount hashCount).words.size = wordCount :=
  Array.size_replicate

theorem not_holds_blank (wordCount hashCount bit : Nat) : ¬ (blank wordCount hashCount).build.Holds bit := by
  have hword : (blank wordCount hashCount).build.words.getD (bit / 64) 0 = 0 := by
    change (Array.replicate wordCount 0).getD (bit / 64) (0 : UInt64) = 0
    rw [Array.getD_eq_getD_getElem?, Array.getElem?_replicate]
    split <;> rfl
  rw [Filter.Holds, hword, UInt64.toNat_zero, Nat.zero_testBit]
  exact Bool.false_ne_true

theorem mayContain_sized (expected : Nat) (rate : Float) (key : Bytes) :
    (sized expected rate).build.mayContain key = false := by
  have hprobes : 0 < (sized expected rate).build.hashCount :=
    Nat.lt_of_lt_of_le Nat.one_pos (Nat.le_max_left 1 _)
  rw [← Bool.not_eq_true, Filter.mayContain_iff]
  intro hall
  rw [sized_eq_blank] at hall hprobes
  exact not_holds_blank _ _ _ (hall _ (List.mem_map_of_mem (List.mem_range.mpr hprobes)))

end FilterBuilder

namespace Filter

/-- The filter of keys that are added, one after the other, to a blank builder of this shape. -/
def ofKeys (wordCount hashCount : Nat) (keys : List Bytes) : Filter :=
  ((FilterBuilder.blank wordCount hashCount).insertAll keys).build

theorem shape_ofKeys (wordCount hashCount : Nat) (keys : List Bytes) :
    (ofKeys wordCount hashCount keys).words.size = wordCount ∧
      (ofKeys wordCount hashCount keys).hashCount = hashCount := by
  obtain ⟨hwords, hhashes⟩ := FilterBuilder.shape_insertAll (FilterBuilder.blank wordCount hashCount) keys
  exact ⟨hwords.trans (FilterBuilder.size_words_blank wordCount hashCount), hhashes⟩

variable {wordCount : Nat}

theorem probes_blank (wordCount hashCount : Nat) (key : Bytes) :
    (FilterBuilder.blank wordCount hashCount).probes key = Probe.bitsOf key hashCount (64 * wordCount) := by
  rw [FilterBuilder.probes, FilterBuilder.size_words_blank]
  rfl

theorem holds_ofKeys_iff (hwords : 0 < wordCount) {hashCount : Nat} {keys : List Bytes} {bit : Nat} :
    (ofKeys wordCount hashCount keys).Holds bit ↔
      ∃ key ∈ keys, bit ∈ Probe.bitsOf key hashCount (64 * wordCount) := by
  have hblank : 0 < (FilterBuilder.blank wordCount hashCount).words.size := by
    rwa [FilterBuilder.size_words_blank]
  rw [ofKeys, FilterBuilder.holds_insertAll_iff hblank, or_iff_left (FilterBuilder.not_holds_blank _ _ _)]
  simp only [probes_blank]

theorem mayContain_ofKeys_iff (hwords : 0 < wordCount) {hashCount : Nat} {keys : List Bytes} {key : Bytes} :
    (ofKeys wordCount hashCount keys).mayContain key = true ↔
      ∀ bit ∈ Probe.bitsOf key hashCount (64 * wordCount),
        ∃ added ∈ keys, bit ∈ Probe.bitsOf added hashCount (64 * wordCount) := by
  obtain ⟨hsize, hhashes⟩ := shape_ofKeys wordCount hashCount keys
  rw [mayContain_iff, bitCount, hsize, hhashes]
  exact forall₂_congr fun bit _ => holds_ofKeys_iff hwords

/-- **Membership.** All probed bits lie in the filter, and the bits that are set are exactly those that are probed for
an added key. So a key is admitted exactly if its bits are all probed for added keys, as they are for each added key
and stay whatever else is added, and neither the order of the keys nor their repetition is seen in the filter. -/
theorem holds_exactly_probed {wordCount : Nat} (hwords : 0 < wordCount) (hashCount : Nat) (keys : List Bytes) :
    (∀ key, ∀ bit ∈ Probe.bitsOf key hashCount (64 * wordCount), bit < 64 * wordCount) ∧
      ((ofKeys wordCount hashCount keys).words.size = wordCount ∧
        (ofKeys wordCount hashCount keys).hashCount = hashCount) ∧
      (∀ bit, (ofKeys wordCount hashCount keys).Holds bit ↔
        ∃ key ∈ keys, bit ∈ Probe.bitsOf key hashCount (64 * wordCount)) ∧
      (∀ key, (ofKeys wordCount hashCount keys).mayContain key = true ↔
        ∀ bit ∈ Probe.bitsOf key hashCount (64 * wordCount),
          ∃ added ∈ keys, bit ∈ Probe.bitsOf added hashCount (64 * wordCount)) ∧
      (∀ key ∈ keys, (ofKeys wordCount hashCount keys).mayContain key = true) ∧
      (∀ key, (ofKeys wordCount hashCount keys).mayContain key = true →
        ∀ more, (ofKeys wordCount hashCount (keys ++ more)).mayContain key = true) ∧
      ∀ others : List Bytes, (∀ key, key ∈ others ↔ key ∈ keys) →
        ofKeys wordCount hashCount others = ofKeys wordCount hashCount keys := by
  have hblank : 0 < (FilterBuilder.blank wordCount hashCount).words.size := by
    rwa [FilterBuilder.size_words_blank]
  have hshape := shape_ofKeys wordCount hashCount
  refine ⟨fun key bit hbit => FilterBuilder.bitsOf_lt (by omega) hbit, hshape keys,
    fun bit => holds_ofKeys_iff hwords, fun key => mayContain_ofKeys_iff hwords,
    fun key hkey => FilterBuilder.mayContain_insertAll hblank (.inl hkey), fun key hadmitted more => ?_,
    fun others hothers => ?_⟩
  · rw [ofKeys, FilterBuilder.insertAll_append]
    apply FilterBuilder.mayContain_insertAll _ (.inr hadmitted)
    exact (hshape keys).1.symm ▸ hwords
  · apply ext_holds
    · rw [(hshape others).1, (hshape keys).1]
    · rw [(hshape others).2, (hshape keys).2]
    · intro bit
      simp only [holds_ofKeys_iff hwords, hothers]

/-- Two keys in three words, a number that is not a power of two, and one of them added twice. -/
theorem holds_exactly_probed_three_words :
    (ofKeys 3 2 [[97], [98], [97]]).mayContain [98] = true ∧
      (ofKeys 3 2 ([[97], [98], [97]] ++ [[99]])).mayContain [97] = true ∧
      ofKeys 3 2 [[98], [97]] = ofKeys 3 2 [[97], [98], [97]] := by
  obtain ⟨-, -, -, -, hadded, hstays, hset⟩ := holds_exactly_probed (show 0 < 3 by decide) 2 [[97], [98], [97]]
  refine ⟨hadded [98] (by decide), hstays [97] (hadded [97] (by decide)) [[99]], hset _ fun key => ?_⟩
  simp only [List.mem_cons, List.not_mem_nil, or_false]
  constructor
  · rintro (rfl | rfl)
    · exact .inr (.inl rfl)
    · exact .inl rfl
  · rintro (rfl | rfl | rfl)
    · exact .inr rfl
    · exact .inl rfl
    · exact .inr rfl

end Filter

end SortedTable
