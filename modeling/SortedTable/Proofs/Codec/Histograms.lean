import SortedTable.Proofs.Codec.Numbers
import SortedTable.Reader

/-!
# Laws of the stored statistics

A histogram over one or more offsets is read back as it was written, and so are two that follow each
other. Reading looks at no byte behind the histogram, so statistics that are cut off anywhere cannot be
read. The first offset is stored twice and read once: what is read as a histogram is what is written of it,
but for the first of the two. Main statements: `decode_encode`, `encode_of_decode`, `statistics_exact`.
-/

namespace SortedTable

namespace Histogram

/-- The histograms that are read back as they were written: those with a bucket more than offsets and no
number too large for its field. -/
structure Storable (h : Histogram) : Prop where
  buckets_length : h.buckets.length = h.offsets.length + 1
  offsets_pos : 0 < h.offsets.length
  buckets_le : h.buckets.length ≤ maxBuckets
  offset_lt : ∀ offset ∈ h.offsets, offset < BigEndian.range 8
  count_lt : ∀ n ∈ h.buckets, n < BigEndian.range 8

def pairs (h : Histogram) : List (Nat × Nat) :=
  h.buckets.mapIdx fun i n => (h.offsets.getD (i - 1) 0, n)

/-- The histogram that is read from these pairs of an offset and a count. -/
def ofPairs (pairs : List (Nat × Nat)) : Histogram := ⟨pairs.tail.map (·.1), pairs.map (·.2)⟩

def pairBytes (pairs : List (Nat × Nat)) : Bytes :=
  pairs.flatMap fun p => BigEndian.encode 8 p.1 ++ BigEndian.encode 8 p.2

theorem encode_eq (h : Histogram) :
    h.encode = BigEndian.encode 4 h.buckets.length ++ pairBytes h.pairs := by
  rw [encode, pairBytes, pairs, List.flatMap_def]
  congr 2
  exact List.ext_getElem (by simp) (by simp)

theorem length_pairBytes (pairs : List (Nat × Nat)) :
    (pairBytes pairs).length = 16 * pairs.length := by
  induction pairs with
  | nil => rfl
  | cons pair pairs ih =>
      rw [pairBytes, List.flatMap_cons]
      unfold pairBytes at ih
      simp only [List.length_append, BigEndian.length_encode, List.length_cons]
      omega

theorem pairsOf_pairBytes {pairs : List (Nat × Nat)}
    (h : ∀ p ∈ pairs, p.1 < BigEndian.range 8 ∧ p.2 < BigEndian.range 8) :
    pairsOf pairs.length (pairBytes pairs) = pairs := by
  induction pairs with
  | nil => rfl
  | cons pair pairs ih =>
      obtain ⟨hoffset, hcount⟩ := h pair List.mem_cons_self
      have hbytes : pairBytes (pair :: pairs) =
          BigEndian.encode 8 pair.1 ++ (BigEndian.encode 8 pair.2 ++ pairBytes pairs) := by
        simp [pairBytes]
      have hfirst : (BigEndian.encode 8 pair.1).length = 8 := BigEndian.length_encode 8 _
      have hsecond : (BigEndian.encode 8 pair.2).length = 8 := BigEndian.length_encode 8 _
      have hrest : (pairBytes (pair :: pairs)).drop 16 = pairBytes pairs := by
        rw [hbytes, ← List.append_assoc]
        exact List.drop_left' (by simp)
      rw [List.length_cons, pairsOf, hrest, ih fun p hp => h p (List.mem_cons_of_mem _ hp), hbytes,
        List.take_left' hfirst, List.drop_left' hfirst, List.take_left' hsecond,
        BigEndian.decode_encode_of_lt hoffset, BigEndian.decode_encode_of_lt hcount]

theorem exists_pairBytes {count : Nat} {bytes : Bytes} (h : bytes.length = 16 * count) :
    ∃ pairs : List (Nat × Nat), pairs.length = count ∧
      (∀ p ∈ pairs, p.1 < BigEndian.range 8 ∧ p.2 < BigEndian.range 8) ∧ bytes = pairBytes pairs := by
  induction count generalizing bytes with
  | zero => exact ⟨[], rfl, fun _ hp => absurd hp List.not_mem_nil, List.eq_nil_of_length_eq_zero h⟩
  | succ count ih =>
      obtain ⟨offset, middle, hoffset, rfl⟩ := BigEndian.exists_encode (show 8 ≤ bytes.length by omega)
      rw [List.length_append, BigEndian.length_encode] at h
      obtain ⟨n, tail, hn, rfl⟩ := BigEndian.exists_encode (show 8 ≤ middle.length by omega)
      rw [List.length_append, BigEndian.length_encode] at h
      obtain ⟨pairs, rfl, hpairs, rfl⟩ := ih (show tail.length = 16 * count by omega)
      refine ⟨(offset, n) :: pairs, rfl, List.forall_mem_cons.mpr ⟨⟨hoffset, hn⟩, hpairs⟩, ?_⟩
      rw [pairBytes, pairBytes, List.flatMap_cons, List.append_assoc]

theorem length_pairs (h : Histogram) : h.pairs.length = h.buckets.length := by
  simp [pairs]

theorem map_snd_pairs (h : Histogram) : h.pairs.map (·.2) = h.buckets := by
  exact List.ext_getElem (by simp [pairs]) (by simp [pairs])

theorem map_fst_tail_pairs {h : Histogram} (hlength : h.buckets.length = h.offsets.length + 1) :
    h.pairs.tail.map (·.1) = h.offsets := by
  apply List.ext_getElem
  · simp [pairs, hlength]
  · intro i hi hi'
    simp [pairs, List.getD_eq_getElem?_getD, List.getElem?_eq_getElem hi']

theorem mem_pairs_lt {h : Histogram} (hs : h.Storable) :
    ∀ p ∈ h.pairs, p.1 < BigEndian.range 8 ∧ p.2 < BigEndian.range 8 := by
  intro p hp
  obtain ⟨i, hi, rfl⟩ := List.mem_iff_getElem.mp hp
  have hbucket : i < h.buckets.length := by simpa [pairs] using hi
  have hoffset : i - 1 < h.offsets.length := by
    have hlength := hs.buckets_length
    have hpos := hs.offsets_pos
    omega
  simp only [pairs, List.getElem_mapIdx, List.getD_eq_getElem?_getD,
    List.getElem?_eq_getElem hoffset, Option.getD_some]
  exact ⟨hs.offset_lt _ (List.getElem_mem _), hs.count_lt _ (List.getElem_mem _)⟩

theorem decode_of_fields {input middle bytes rest : Bytes} {count : Int}
    (hcount : BigEndian.takeInt? 4 input = some (count, middle))
    (hrange : 2 ≤ count.toNat ∧ count.toNat ≤ maxBuckets)
    (hsplit : middle.split? (16 * count.toNat) = some (bytes, rest)) :
    decode input = .ok (⟨(pairsOf count.toNat bytes).tail.map (·.1),
      (pairsOf count.toNat bytes).map (·.2)⟩, rest) := by
  unfold decode
  rw [hcount]
  dsimp only
  rw [if_pos hrange, hsplit]
  rfl

theorem decode_eq_ok_iff {input rest : Bytes} {h : Histogram} :
    decode input = .ok (h, rest) ↔
      ∃ (count : Int) (middle bytes : Bytes),
        BigEndian.takeInt? 4 input = some (count, middle) ∧
          (2 ≤ count.toNat ∧ count.toNat ≤ maxBuckets) ∧
          middle.split? (16 * count.toNat) = some (bytes, rest) ∧
          h = ⟨(pairsOf count.toNat bytes).tail.map (·.1), (pairsOf count.toNat bytes).map (·.2)⟩ := by
  constructor
  · intro hdecode
    cases hcount : BigEndian.takeInt? 4 input with
    | none =>
        unfold decode at hdecode
        rw [hcount] at hdecode
        cases hdecode
    | some found =>
        obtain ⟨count, middle⟩ := found
        by_cases hrange : 2 ≤ count.toNat ∧ count.toNat ≤ maxBuckets
        · cases hsplit : middle.split? (16 * count.toNat) with
          | none =>
              unfold decode at hdecode
              rw [hcount] at hdecode
              dsimp only at hdecode
              rw [if_pos hrange, hsplit] at hdecode
              cases hdecode
          | some found =>
              obtain ⟨bytes, behind⟩ := found
              rw [decode_of_fields hcount hrange hsplit] at hdecode
              simp only [Except.ok.injEq, Prod.mk.injEq] at hdecode
              obtain ⟨rfl, rfl⟩ := hdecode
              exact ⟨count, middle, bytes, rfl, hrange, hsplit, rfl⟩
        · unfold decode at hdecode
          rw [hcount] at hdecode
          dsimp only at hdecode
          rw [if_neg hrange] at hdecode
          cases hdecode
  · rintro ⟨count, middle, bytes, hcount, hrange, hsplit, rfl⟩
    exact decode_of_fields hcount hrange hsplit

theorem decode_extend {input rest : Bytes} {h : Histogram} (hdecode : decode input = .ok (h, rest))
    (extra : Bytes) : decode (input ++ extra) = .ok (h, rest ++ extra) := by
  obtain ⟨count, middle, bytes, hcount, hrange, hsplit, rfl⟩ := decode_eq_ok_iff.mp hdecode
  exact decode_of_fields (BigEndian.takeInt?_extend hcount extra) hrange
    (Bytes.split?_extend hsplit extra)

theorem decode_pairBytes {listed : List (Nat × Nat)} (htwo : 2 ≤ listed.length) (hle : listed.length ≤ maxBuckets)
    (hlisted : ∀ p ∈ listed, p.1 < BigEndian.range 8 ∧ p.2 < BigEndian.range 8) (rest : Bytes) :
    decode (BigEndian.encode 4 listed.length ++ pairBytes listed ++ rest) = .ok (ofPairs listed, rest) := by
  have hmax : maxBuckets = 10000 := rfl
  have hwide : BigEndian.range 4 = 4294967296 := rfl
  have hcount : BigEndian.takeInt? 4 (BigEndian.encode 4 listed.length ++ pairBytes listed ++ rest) =
      some ((listed.length : Int), pairBytes listed ++ rest) := by
    rw [List.append_assoc, ← BigEndian.encodeInt_natCast (by omega)]
    exact BigEndian.takeInt?_encodeInt (BigEndian.fits_natCast (by omega)) _
  have hsplit : (pairBytes listed ++ rest).split? (16 * (listed.length : Int).toNat) =
      some (pairBytes listed, rest) := by
    apply Bytes.split?_eq_some_iff.mpr
    refine ⟨rfl, ?_⟩
    rw [length_pairBytes, Int.toNat_natCast]
  rw [decode_of_fields hcount (by omega) hsplit, Int.toNat_natCast, pairsOf_pairBytes hlisted, ofPairs]

theorem decode_encode {h : Histogram} (hs : h.Storable) (rest : Bytes) :
    decode (h.encode ++ rest) = .ok (h, rest) := by
  have hlength := hs.buckets_length
  have hpos := hs.offsets_pos
  have hle := hs.buckets_le
  have hpairs := length_pairs h
  rw [encode_eq, ← hpairs, decode_pairBytes (by omega) (by omega) (mem_pairs_lt hs), ofPairs, map_snd_pairs,
    map_fst_tail_pairs hlength]

theorem pairs_ofPairs (first second : Nat × Nat) (others : List (Nat × Nat)) :
    (ofPairs (first :: second :: others)).pairs = (second.1, first.2) :: second :: others := by
  apply List.ext_getElem
  · simp [pairs, ofPairs]
  · intro i hi hi'
    rcases i with - | - | i
    · simp [pairs, ofPairs]
    · simp [pairs, ofPairs]
    · have hother : i < others.length := by simpa using hi'
      simp [pairs, ofPairs, List.getD_eq_getElem?_getD, List.getElem?_eq_getElem hother]

theorem storable_ofPairs {listed : List (Nat × Nat)} (htwo : 2 ≤ listed.length) (hle : listed.length ≤ maxBuckets)
    (hlisted : ∀ p ∈ listed, p.1 < BigEndian.range 8 ∧ p.2 < BigEndian.range 8) : (ofPairs listed).Storable where
  buckets_length := by
    rw [ofPairs, List.length_map, List.length_map, List.length_tail]
    omega
  offsets_pos := by
    rw [ofPairs, List.length_map, List.length_tail]
    omega
  buckets_le := by rwa [ofPairs, List.length_map]
  offset_lt := by
    intro offset hoffset
    obtain ⟨p, hp, rfl⟩ := List.mem_map.mp hoffset
    exact (hlisted p (List.mem_of_mem_tail hp)).1
  count_lt := by
    intro n hn
    obtain ⟨p, hp, rfl⟩ := List.mem_map.mp hn
    exact (hlisted p hp).2

/-- What is read as a histogram is what is written of it, but that any eight bytes may stand for the first offset, where
the second is written once more. -/
theorem encode_of_decode {input rest : Bytes} {h : Histogram} (hread : decode input = .ok (h, rest)) :
    h.Storable ∧ ∃ count first n second others : Bytes,
      count.length = 4 ∧ first.length = 8 ∧ n.length = 8 ∧ second.length = 8 ∧
        input = count ++ (first ++ (n ++ (second ++ others))) ++ rest ∧
        h.encode = count ++ (second ++ (n ++ (second ++ others))) := by
  obtain ⟨count, middle, bytes, hcount, ⟨htwo, hle⟩, hsplit, hpairs⟩ := decode_eq_ok_iff.mp hread
  obtain ⟨-, rfl⟩ := BigEndian.takeInt?_eq_some_iff_fits.mp hcount
  obtain ⟨rfl, hlength⟩ := Bytes.split?_eq_some_iff.mp hsplit
  obtain ⟨listed, hlisted, hfields, rfl⟩ := exists_pairBytes hlength
  have hround := pairsOf_pairBytes hfields
  rw [hlisted] at hround
  rw [hround, ← ofPairs] at hpairs
  subst hpairs
  have hstorable := storable_ofPairs (by omega) (by omega) hfields
  -- The count is written as it was read, for it is not negative.
  have hcountBytes : BigEndian.encode 4 listed.length = BigEndian.encodeInt 4 count := by
    have hrange : BigEndian.range 4 = 4294967296 := rfl
    have hmax : maxBuckets = 10000 := rfl
    have hsame : ((listed.length : Nat) : Int) = count := by omega
    rw [← BigEndian.encodeInt_natCast (by omega), hsame]
  obtain ⟨first, second, others, rfl⟩ : ∃ first second others, listed = first :: second :: others := by
    rcases listed with - | ⟨first, - | ⟨second, others⟩⟩
    · rw [List.length_nil] at hlisted
      omega
    · rw [List.length_singleton] at hlisted
      omega
    · exact ⟨first, second, others, rfl⟩
  refine ⟨hstorable, BigEndian.encodeInt 4 count, BigEndian.encode 8 first.1, BigEndian.encode 8 first.2,
    BigEndian.encode 8 second.1, BigEndian.encode 8 second.2 ++ pairBytes others, BigEndian.length_encodeInt 4 _,
    BigEndian.length_encode 8 _, BigEndian.length_encode 8 _, BigEndian.length_encode 8 _, ?_, ?_⟩
  · simp only [pairBytes, List.flatMap_cons, List.append_assoc]
  · rw [encode_eq, pairs_ofPairs, ofPairs, List.length_map, hcountBytes]
    simp only [pairBytes, List.flatMap_cons, List.append_assoc]

end Histogram

namespace Reader

theorem decodeStatistics_eq_ok_iff {input : Bytes} {rowSizes columnCounts : Histogram} :
    decodeStatistics input = .ok (rowSizes, columnCounts) ↔
      ∃ middle rest, Histogram.decode input = .ok (rowSizes, middle) ∧
        Histogram.decode middle = .ok (columnCounts, rest) := by
  unfold decodeStatistics
  cases hfirst : Histogram.decode input with
  | error e => simp [bind, Except.bind]
  | ok found =>
      obtain ⟨first, middle⟩ := found
      cases hsecond : Histogram.decode middle with
      | error e =>
          simp only [bind, Except.bind, hsecond, reduceCtorEq, Except.ok.injEq, Prod.mk.injEq,
            false_iff, not_exists, not_and]
          rintro middle' rest ⟨rfl, rfl⟩ h
          rw [hsecond] at h
          cases h
      | ok found =>
          obtain ⟨second, rest⟩ := found
          simp only [bind, Except.bind, hsecond, pure, Except.pure, Except.ok.injEq, Prod.mk.injEq]
          constructor
          · rintro ⟨rfl, rfl⟩
            exact ⟨middle, rest, ⟨rfl, rfl⟩, hsecond⟩
          · rintro ⟨middle', rest', ⟨rfl, rfl⟩, h⟩
            rw [hsecond] at h
            cases h
            exact ⟨rfl, rfl⟩

theorem decodeStatistics_encode {rowSizes columnCounts : Histogram} (hrows : rowSizes.Storable)
    (hcolumns : columnCounts.Storable) :
    decodeStatistics (encodeStatistics rowSizes columnCounts) = .ok (rowSizes, columnCounts) := by
  have hsecond := Histogram.decode_encode hcolumns []
  rw [List.append_nil] at hsecond
  exact decodeStatistics_eq_ok_iff.mpr
    ⟨columnCounts.encode, [], Histogram.decode_encode hrows _, hsecond⟩

theorem isOk_decodeStatistics_of_isPrefix {rowSizes columnCounts : Histogram} {input : Bytes}
    (hrows : rowSizes.Storable) (hcolumns : columnCounts.Storable)
    (hbegins : input <+: encodeStatistics rowSizes columnCounts)
    (hcut : input ≠ encodeStatistics rowSizes columnCounts) :
    (decodeStatistics input).isOk = false := by
  cases hread : decodeStatistics input with
  | error e => rfl
  | ok found =>
      exfalso
      obtain ⟨first, second⟩ := found
      obtain ⟨extra, hextra⟩ := hbegins
      obtain ⟨middle, rest, hfirst, hsecond⟩ := decodeStatistics_eq_ok_iff.mp hread
      have hwhole := Histogram.decode_extend hfirst extra
      rw [hextra, encodeStatistics, Histogram.decode_encode hrows] at hwhole
      simp only [Except.ok.injEq, Prod.mk.injEq] at hwhole
      obtain ⟨-, hmiddle⟩ := hwhole
      have htail := Histogram.decode_extend hsecond extra
      have hcolumns' := Histogram.decode_encode hcolumns []
      rw [List.append_nil, hmiddle, htail] at hcolumns'
      simp only [Except.ok.injEq, Prod.mk.injEq] at hcolumns'
      have hnil : extra = [] := (List.append_eq_nil_iff.mp hcolumns'.2).2
      rw [hnil, List.append_nil] at hextra
      exact hcut hextra

/-- **The stored form of statistics.** Two histograms that are stored one behind the other are read back with what
follows them left over, and not both if the bytes are cut off anywhere. What is read as a histogram is what is written
of it, but that the first of the two fields for the first offset is not looked at and is written as the second. -/
theorem statistics_exact :
    (∀ rowSizes columnCounts : Histogram, rowSizes.Storable → columnCounts.Storable →
      (∀ rest, ∃ middle, Histogram.decode (encodeStatistics rowSizes columnCounts ++ rest) = .ok (rowSizes, middle) ∧
        Histogram.decode middle = .ok (columnCounts, rest)) ∧
      (∀ input, input <+: encodeStatistics rowSizes columnCounts → input ≠ encodeStatistics rowSizes columnCounts →
        (decodeStatistics input).isOk = false ∧
          ¬ ∃ first middle second rest, Histogram.decode input = .ok (first, middle) ∧
            Histogram.decode middle = .ok (second, rest))) ∧
    ∀ (input : Bytes) (h : Histogram) (rest : Bytes), Histogram.decode input = .ok (h, rest) →
      h.Storable ∧ ∃ count first n second others : Bytes,
        count.length = 4 ∧ first.length = 8 ∧ n.length = 8 ∧ second.length = 8 ∧
          input = count ++ (first ++ (n ++ (second ++ others))) ++ rest ∧
          h.encode = count ++ (second ++ (n ++ (second ++ others))) := by
  refine ⟨fun rowSizes columnCounts hrows hcolumns => ⟨fun rest => ?_, fun input hbegins hcut => ?_⟩,
    fun input h rest => Histogram.encode_of_decode⟩
  · refine ⟨columnCounts.encode ++ rest, ?_, Histogram.decode_encode hcolumns rest⟩
    rw [encodeStatistics, List.append_assoc]
    exact Histogram.decode_encode hrows _
  · have hrefused := isOk_decodeStatistics_of_isPrefix hrows hcolumns hbegins hcut
    refine ⟨hrefused, ?_⟩
    rintro ⟨first, middle, second, rest, hfirst, hsecond⟩
    rw [decodeStatistics_eq_ok_iff.mpr ⟨middle, rest, hfirst, hsecond⟩] at hrefused
    cases hrefused

/-- Two histograms over one and over two offsets, with a byte behind them and without the last byte, and the first of
them with another number where its offset stands first. -/
theorem statistics_exact_small :
    (∃ middle, Histogram.decode (encodeStatistics ⟨[5], [1, 2]⟩ ⟨[1, 8], [0, 3, 0]⟩ ++ [7]) =
        .ok (⟨[5], [1, 2]⟩, middle) ∧ Histogram.decode middle = .ok (⟨[1, 8], [0, 3, 0]⟩, [7])) ∧
      (decodeStatistics ((encodeStatistics ⟨[5], [1, 2]⟩ ⟨[1, 8], [0, 3, 0]⟩).take 87)).isOk = false ∧
      ∃ count first n second others : Bytes,
        count.length = 4 ∧ first.length = 8 ∧ n.length = 8 ∧ second.length = 8 ∧
          BigEndian.encode 4 2 ++ Histogram.pairBytes [(9, 1), (5, 2)] ++ [] =
            count ++ (first ++ (n ++ (second ++ others))) ++ [] ∧
          (⟨[5], [1, 2]⟩ : Histogram).encode = count ++ (second ++ (n ++ (second ++ others))) := by
  have hrows : (⟨[5], [1, 2]⟩ : Histogram).Storable := ⟨rfl, by decide, by decide, by decide, by decide⟩
  have hcolumns : (⟨[1, 8], [0, 3, 0]⟩ : Histogram).Storable := ⟨rfl, by decide, by decide, by decide, by decide⟩
  obtain ⟨hback, hcut⟩ := statistics_exact.1 _ _ hrows hcolumns
  have hread := Histogram.decode_pairBytes (show 2 ≤ [(9, 1), (5, 2)].length by decide) (by decide) (by decide) []
  exact ⟨hback [7], (hcut _ (List.take_prefix _ _) (by decide)).1, (statistics_exact.2 _ _ _ hread).2⟩

end Reader

namespace Histogram

theorem length_growing (count : Nat) (last : UInt64) : (growing count last).length = count := by
  induction count generalizing last with
  | zero => rfl
  | succ count ih => rw [growing, List.length_cons, ih]

theorem growing_lt (count : Nat) (last : UInt64) :
    ∀ offset ∈ growing count last, offset < BigEndian.range 8 := by
  induction count generalizing last with
  | zero => simp [growing]
  | succ count ih =>
      intro offset hoffset
      rw [growing, List.mem_cons] at hoffset
      rcases hoffset with rfl | hrest
      · exact last.toNat_lt
      · exact ih _ offset hrest

@[simp]
theorem offsets_add (h : Histogram) (value : Nat) : (h.add value).offsets = h.offsets := rfl

@[simp]
theorem length_buckets_add (h : Histogram) (value : Nat) :
    (h.add value).buckets.length = h.buckets.length := by
  simp [add]

end Histogram

end SortedTable
