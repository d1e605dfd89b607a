import SortedTable.Proofs.Grammar
import SortedTable.Proofs.RebuiltFiles

/-!
# Estimates of the number of rows

The rows at the front of a data file are sampled one by one, and their average size says how many rows a file of this
length holds. The estimate is exact where all rows have the same size, and no less than the number of rows where all of
them are sampled. A row that was cut in its body is sampled as if it were whole. Main statements:
`estimates_whole_rows`, `estimates_torn_rows`.
-/

namespace SortedTable

namespace Record

variable {width : LengthWidth} {rows : List (Bytes × Bytes)} {key body : Bytes} {n : Nat}

/-- All rows have the same size. -/
def Uniform (width : LengthWidth) (rows : List (Bytes × Bytes)) : Prop :=
  ∃ size, ∀ row ∈ rows, rowSize width row.1 row.2.length = size

theorem length_le_length_framing (width : LengthWidth) (rows : List (Bytes × Bytes)) :
    rows.length ≤ (framing width rows).length := by
  induction rows with
  | nil => exact Nat.zero_le _
  | cons row rest ih =>
      have hpos := rowSize_pos width row.1 row.2.length
      rw [length_framing_cons, List.length_cons]
      omega

theorem length_framing_of_uniform {size : Nat} (h : ∀ row ∈ rows, rowSize width row.1 row.2.length = size) :
    (framing width rows).length = rows.length * size := by
  induction rows with
  | nil => exact (Nat.zero_mul size).symm
  | cons row rest ih =>
      have hrest := ih fun row' hrow' => h row' (List.mem_cons_of_mem _ hrow')
      rw [length_framing_cons, h row List.mem_cons_self, hrest, List.length_cons, Nat.succ_mul, Nat.add_comm]

/-- A row that was cut before its body has no front. -/
theorem takeRowFront?_take_of_lt (hrow : Framable width key body) (hn : n < rowSize width key 0) :
    takeRowFront? width ((framed width key body).take n) = none := by
  have hbegins : (framed width key body).take n <+:
      short key ++ (BigEndian.encodeInt width.bytes body.length ++ body) := by
    rw [← List.append_assoc]
    exact List.take_prefix n _
  have hcut : ((framed width key body).take n).length < 2 + key.length + width.bytes := by
    rw [List.length_take]
    exact Nat.lt_of_le_of_lt (Nat.min_le_left _ _) hn
  exact takeRowFront?_eq_none_of_isPrefix hrow.key hbegins hcut

/-- A row that was cut in its body announces all of it. -/
theorem takeRowFront?_take_of_le (hrow : Framable width key body) (hn : rowSize width key 0 ≤ n) :
    takeRowFront? width ((framed width key body).take n) =
      some (key, (body.length : Int), body.take (n - rowSize width key 0)) := by
  rw [← length_front width key body.length] at hn ⊢
  rw [framed, Bytes.take_append_of_length_le hn]
  exact takeRowFront?_front width hrow.key hrow.body _

end Record

namespace Scanner

theorem headers_framing {width : LengthWidth} {rows : List (Bytes × Bytes)}
    (hrows : ∀ row ∈ rows, Record.Framable width row.1 row.2) (position : Nat) :
    ∃ headers, (reading width position (Record.framing width rows)).headers = (headers, none) ∧
      headers.map (·.key) = rows.map (·.1) := by
  induction rows generalizing position with
  | nil => exact ⟨[], headers_reading_nil width position, rfl⟩
  | cons row rest ih =>
      have hnext := nextHeader_framed (hrows row List.mem_cons_self) position (Record.framing width rest)
      obtain ⟨headers, hheaders, hkeys⟩ := ih (fun row' hrow' => hrows row' (List.mem_cons_of_mem _ hrow'))
        (position + Record.rowSize width row.1 row.2.length)
      rw [Record.framing_cons, headers_of_nextHeader hnext, hheaders]
      exact ⟨_, rfl, by rw [List.map_cons, List.map_cons, hkeys]⟩

end Scanner

namespace Estimate

variable {width : LengthWidth} {rows : List (Bytes × Bytes)} {key body : Bytes} {limit : Nat} {s : Sample}

/-- Rows within the limits are all sampled. -/
theorem sample_framing (hrows : ∀ row ∈ rows, Record.Framable width row.1 row.2) {samples : Nat}
    (hsamples : rows.length ≤ samples) (hlimit : s.position + (Record.framing width rows).length ≤ limit)
    (rest : Bytes) :
    sample width limit samples s (Record.framing width rows ++ rest) =
      sample width limit (samples - rows.length)
        ⟨s.rows + rows.length, s.position + (Record.framing width rows).length⟩ rest := by
  induction rows generalizing samples s with
  | nil => rfl
  | cons row more ih =>
      obtain ⟨samples, rfl⟩ := Nat.exists_eq_add_one.mpr (Nat.lt_of_lt_of_le (Nat.succ_pos more.length) hsamples)
      rw [Record.length_framing_cons] at hlimit ⊢
      have hpos := Record.rowSize_pos width row.1 row.2.length
      have hstart : s.position < limit := by omega
      have hmore : s.position + Record.rowSize width row.1 row.2.length + (Record.framing width more).length ≤
          limit := by
        rwa [Nat.add_assoc]
      have hrest := ih (fun row' hrow' => hrows row' (List.mem_cons_of_mem _ hrow'))
        (s := ⟨s.rows + 1, s.position + Record.rowSize width row.1 row.2.length⟩)
        (Nat.le_of_succ_le_succ hsamples) hmore
      rw [Record.framing_cons, List.append_assoc, sample_framed (hrows row List.mem_cons_self) hstart, hrest,
        List.length_cons, Nat.add_sub_add_right, Nat.add_assoc, Nat.add_assoc, Nat.add_comm 1]

/-- Whatever the limits, some rows at the front are sampled, and at least one if there is one within them. -/
theorem exists_sample_framing (hrows : ∀ row ∈ rows, Record.Framable width row.1 row.2) (limit samples : Nat)
    (s : Sample) :
    ∃ k ≤ rows.length, sample width limit samples s (Record.framing width rows) =
        .ok ⟨s.rows + k, s.position + (Record.framing width (rows.take k)).length⟩ ∧
      (rows ≠ [] → 0 < samples → s.position < limit → 0 < k) := by
  induction rows generalizing samples s with
  | nil =>
      exact ⟨0, Nat.le_refl 0, sample_of_cut (Record.takeRowFront?_nil width) limit samples s,
        fun hne => absurd rfl hne⟩
  | cons row more ih =>
      cases samples with
      | zero => exact ⟨0, Nat.zero_le _, rfl, fun _ hsamples => absurd hsamples (Nat.lt_irrefl 0)⟩
      | succ samples =>
          by_cases hlimit : limit ≤ s.position
          · exact ⟨0, Nat.zero_le _, sample_of_le hlimit _ _, fun _ _ hlt => absurd hlt (Nat.not_lt_of_le hlimit)⟩
          obtain ⟨k, hk, hsample, -⟩ := ih (fun row' hrow' => hrows row' (List.mem_cons_of_mem _ hrow')) samples
            ⟨s.rows + 1, s.position + Record.rowSize width row.1 row.2.length⟩
          refine ⟨k + 1, Nat.succ_le_succ hk, ?_, fun _ _ _ => Nat.succ_pos k⟩
          rw [Record.framing_cons, sample_framed (hrows row List.mem_cons_self) (Nat.lt_of_not_le hlimit), hsample,
            List.take_succ_cons, Record.length_framing_cons, Nat.add_assoc, Nat.add_assoc, Nat.add_comm 1]

theorem ofSample_uniform {n k size : Nat} (hk : 0 < k) (hsize : 0 < size) : ofSample (n * size) ⟨k, k * size⟩ = n := by
  have haverage : k * size / k = size := Nat.mul_div_cancel_left size hk
  calc ofSample (n * size) ⟨k, k * size⟩
      = n * size / max 1 (k * size / k) := if_neg (Nat.ne_of_gt hk)
    _ = n * size / size := by rw [haverage, max_eq_right hsize]
    _ = n := Nat.mul_div_cancel n hsize

/-- The average is rounded down, which makes for more rows. -/
theorem ofSample_whole {n length : Nat} (hn : 0 < n) (h : n ≤ length) :
    ofSample length ⟨n, length⟩ = n + length % n / (length / n) := by
  have haverage : 0 < length / n := Nat.div_pos h hn
  calc ofSample length ⟨n, length⟩
      = length / max 1 (length / n) := if_neg (Nat.ne_of_gt hn)
    _ = (length / n * n + length % n) / (length / n) := by rw [max_eq_right haverage, Nat.div_add_mod']
    _ = n + length % n / (length / n) := Nat.mul_add_div haverage n _

theorem estimateRows_of_uniform (hrows : ∀ row ∈ rows, Record.Framable width row.1 row.2)
    (huniform : Record.Uniform width rows) (position : Nat) :
    estimateRows width ⟨Record.framing width rows, position⟩ =
      (.ok rows.length, ⟨Record.framing width rows, 0⟩) := by
  obtain ⟨size, hsize⟩ := huniform
  by_cases hnil : rows = []
  · subst hnil
    exact estimateRows_of_sample (sample_of_cut (Record.takeRowFront?_nil width) _ _ _) position
  have hlength := Record.length_framing_of_uniform hsize
  have hpos : 0 < size := by
    obtain ⟨row, hrow⟩ := List.exists_mem_of_ne_nil rows hnil
    exact hsize row hrow ▸ Record.rowSize_pos width row.1 row.2.length
  have hlimit : 0 < min maxBytes (Record.framing width rows).length := by
    rw [hlength]
    exact Nat.lt_min.mpr ⟨by decide, Nat.mul_pos (List.length_pos_iff.mpr hnil) hpos⟩
  obtain ⟨k, hk, hsample, hsome⟩ := exists_sample_framing hrows
    (min maxBytes (Record.framing width rows).length) maxSamples ⟨0, 0⟩
  have hsampled : (Record.framing width (rows.take k)).length = k * size := by
    rw [Record.length_framing_of_uniform fun row hrow => hsize row (List.mem_of_mem_take hrow),
      List.length_take_of_le hk]
  rw [Nat.zero_add, Nat.zero_add, hsampled] at hsample
  rw [estimateRows_of_sample hsample position, hlength, ofSample_uniform (hsome hnil (by decide) hlimit) hpos]

/-- Where all whole rows are sampled, what comes behind them decides how the sample ends. -/
theorem estimateRows_of_rest (hrows : ∀ row ∈ rows, Record.Framable width row.1 row.2)
    (hsamples : rows.length ≤ maxSamples) (hbytes : (Record.framing width rows).length ≤ maxBytes) {rest : Bytes}
    (hrest : sample width (min maxBytes (Record.framing width rows ++ rest).length) (maxSamples - rows.length)
      ⟨rows.length, (Record.framing width rows).length⟩ rest = .ok s) (position : Nat) :
    estimateRows width ⟨Record.framing width rows ++ rest, position⟩ =
      (.ok (ofSample (Record.framing width rows ++ rest).length s), ⟨Record.framing width rows ++ rest, 0⟩) := by
  apply estimateRows_of_sample
  have hlimit : (⟨0, 0⟩ : Sample).position + (Record.framing width rows).length ≤
      min maxBytes (Record.framing width rows ++ rest).length := by
    rw [Nat.zero_add, List.length_append]
    exact Nat.le_min.mpr ⟨hbytes, Nat.le_add_right _ _⟩
  have hfront := sample_framing hrows hsamples hlimit rest
  rwa [Nat.zero_add, Nat.zero_add, hrest] at hfront

/-- Where all rows are sampled, the estimate exceeds their number by as many as the rest of the division makes for. -/
theorem exists_estimate (hrows : ∀ row ∈ rows, Record.Framable width row.1 row.2)
    (hsamples : rows.length ≤ maxSamples) (hbytes : (Record.framing width rows).length ≤ maxBytes) (position : Nat) :
    ∃ estimated, estimateRows width ⟨Record.framing width rows, position⟩ =
        (.ok estimated, ⟨Record.framing width rows, 0⟩) ∧
      (rows.length = 0 → estimated = 0) ∧
      (1 ≤ rows.length → rows.length ≤ estimated ∧
        estimated ≤ rows.length + (rows.length - 1) / ((Record.framing width rows).length / rows.length)) := by
  have hend := sample_of_cut (Record.takeRowFront?_nil width) (min maxBytes (Record.framing width rows ++ []).length)
    (maxSamples - rows.length) ⟨rows.length, (Record.framing width rows).length⟩
  have hestimate := estimateRows_of_rest hrows hsamples hbytes hend position
  rw [List.append_nil] at hestimate
  refine ⟨_, hestimate, fun hnone => if_pos hnone, fun hsome => ?_⟩
  rw [ofSample_whole hsome (Record.length_le_length_framing width rows)]
  have hrest := Nat.mod_lt (Record.framing width rows).length hsome
  constructor
  · exact Nat.le_add_right _ _
  · apply Nat.add_le_add_left
    exact Nat.div_le_div_right (Nat.le_sub_one_of_lt hrest)

/-- A filter that is rebuilt has room for as many keys as were estimated. -/
theorem read_filter_of_rebuild {d : Descriptor} {v : Volume} {config : Config} {estimated : Nat}
    (hrows : ∀ row ∈ rows, Record.Framable d.lengthWidth row.1 row.2)
    (hestimate : estimateRows d.lengthWidth ⟨Record.framing d.lengthWidth rows, 0⟩ =
      (.ok estimated, ⟨Record.framing d.lengthWidth rows, 0⟩))
    (hdisk : Recovery.Rebuildable d (Record.framing d.lengthWidth rows) v.disk) (hconfig : config.validate = .ok ())
    (partitioner : Partitioner) :
    ∃ v', (Recovery.rebuild partitioner config d).on v = (.ok (), v') ∧
      v'.disk.read (d.pathOf .filter) = .ok ((FilterBuilder.sized (max 1 estimated)
        config.falsePositiveRate).insertAll (rows.map (·.1))).build.encode := by
  obtain ⟨hlocated, hdata⟩ := hdisk.located
  obtain ⟨headers, hheaders, hkeys⟩ := Scanner.headers_framing hrows 0
  rw [← Scanner.start_eq_reading] at hheaders
  obtain ⟨v', hrun, hfiles, hframe⟩ :=
    hlocated.on_rebuild_headers hconfig hdata hestimate hheaders (.inl rfl) partitioner
  refine ⟨v', hrun, ?_⟩
  rw [Disk.read_eq_ok_iff ((hlocated.reaches .filter).mono hframe.keeps), hfiles .filter (by decide), ← hkeys]
  rfl

/-- The estimate for a file of whole rows. It is exact where all rows have the same size, and where all of them are
sampled it is no less than their number, and not much more. So no filter is rebuilt for fewer keys than there are. -/
theorem estimates_whole_rows (hrows : ∀ row ∈ rows, Record.Framable width row.1 row.2) (position : Nat) :
    (Record.Uniform width rows →
      estimateRows width ⟨Record.framing width rows, position⟩ =
        (.ok rows.length, ⟨Record.framing width rows, 0⟩)) ∧
    (rows.length ≤ maxSamples → (Record.framing width rows).length ≤ maxBytes →
      ∃ estimated, estimateRows width ⟨Record.framing width rows, position⟩ =
          (.ok estimated, ⟨Record.framing width rows, 0⟩) ∧
        (rows.length = 0 → estimated = 0) ∧
        (1 ≤ rows.length → rows.length ≤ estimated ∧
          estimated ≤ rows.length + (rows.length - 1) / ((Record.framing width rows).length / rows.length))) ∧
    (Record.Uniform width rows ∨
        rows.length ≤ maxSamples ∧ (Record.framing width rows).length ≤ maxBytes →
      ∀ (d : Descriptor) (v : Volume) (config : Config) (partitioner : Partitioner), d.lengthWidth = width →
        Recovery.Rebuildable d (Record.framing width rows) v.disk → config.validate = .ok () →
        ∃ keys v', rows.length ≤ keys ∧ (Recovery.rebuild partitioner config d).on v = (.ok (), v') ∧
          v'.disk.read (d.pathOf .filter) =
            .ok ((FilterBuilder.sized keys config.falsePositiveRate).insertAll (rows.map (·.1))).build.encode) := by
  refine ⟨fun huniform => estimateRows_of_uniform hrows huniform position,
    fun hsamples hbytes => exists_estimate hrows hsamples hbytes position, ?_⟩
  rintro hlimits d v config partitioner rfl hdisk hconfig
  obtain ⟨estimated, hestimate, hle⟩ : ∃ estimated,
      estimateRows d.lengthWidth ⟨Record.framing d.lengthWidth rows, 0⟩ =
        (.ok estimated, ⟨Record.framing d.lengthWidth rows, 0⟩) ∧ rows.length ≤ estimated := by
    rcases hlimits with huniform | ⟨hsamples, hbytes⟩
    · exact ⟨_, estimateRows_of_uniform hrows huniform 0, Nat.le_refl _⟩
    · obtain ⟨estimated, hestimate, -, hsome⟩ := exists_estimate hrows hsamples hbytes 0
      refine ⟨estimated, hestimate, ?_⟩
      rcases Nat.eq_zero_or_pos rows.length with hnone | hpos
      · exact hnone ▸ Nat.zero_le _
      · exact (hsome hpos).1
  obtain ⟨v', hrun, hread⟩ := read_filter_of_rebuild hrows hestimate hdisk hconfig partitioner
  exact ⟨max 1 estimated, v', Nat.le_trans hle (Nat.le_max_right _ _), hrun, hread⟩

/-- Seven rows of an old version, of which the last has a body. -/
def agedRows : List (Bytes × Bytes) := List.replicate 6 ([], []) ++ [([], [1, 2, 3, 4, 5, 6])]

def agedTable : Descriptor := { Store.usersSite.slot 0 with version := "a" }

def agedVolume : Volume :=
  Store.usersVolume.step ((Store.usersVolume.disk.addFile (agedTable.place .data)).write 0 0
    (Record.framing .short agedRows))

theorem rebuildable_aged : Recovery.Rebuildable agedTable (Record.framing .short agedRows) agedVolume.disk where
  data := rfl
  others c _ := by cases c <;> rfl

theorem estimates_whole_rows_aged :
    (∃ estimated, estimateRows .short ⟨Record.framing .short agedRows, 5⟩ =
        (.ok estimated, ⟨Record.framing .short agedRows, 0⟩) ∧ 7 ≤ estimated ∧ estimated ≤ 8) ∧
      ∃ keys v', 7 ≤ keys ∧ (Recovery.rebuild .byteOrdered .default agedTable).on agedVolume = (.ok (), v') ∧
        v'.disk.read (agedTable.pathOf .filter) =
          .ok ((FilterBuilder.sized keys Config.default.falsePositiveRate).insertAll
            (agedRows.map (·.1))).build.encode := by
  have hrows : ∀ row ∈ agedRows, Record.Framable .short row.1 row.2 := by
    intro row hrow
    rcases List.mem_append.mp hrow with hrow | hrow
    · rw [List.eq_of_mem_replicate hrow]
      exact ⟨by decide, by decide, by decide⟩
    · rw [List.mem_singleton.mp hrow]
      exact ⟨by decide, by decide, by decide⟩
  obtain ⟨-, hestimate, hrebuild⟩ := estimates_whole_rows hrows 5
  obtain ⟨estimated, hestimate, -, hbounds⟩ := hestimate (by decide) (by decide)
  exact ⟨⟨estimated, hestimate, hbounds (by decide)⟩, hrebuild (.inr ⟨by decide, by decide⟩) agedTable agedVolume
    .default .byteOrdered rfl rebuildable_aged (by decide)⟩

/-- Here the estimate is one too many, which is as much as the bound allows. -/
example : (estimateRows .short ⟨Record.framing .short agedRows, 5⟩).1 = .ok (7 + (7 - 1) / (48 / 7)) := by
  decide +kernel

/-- What is left of the row does not matter, as nothing is left behind what its front announces. -/
theorem sample_take_of_le (hrow : Record.Framable width key body) {n : Nat} (hn : Record.rowSize width key 0 ≤ n)
    (hlimit : s.position < limit) (samples : Nat) :
    sample width limit (samples + 1) s ((Record.framed width key body).take n) =
      .ok ⟨s.rows + 1, s.position + Record.rowSize width key body.length⟩ := by
  have hread := Record.takeRowFront?_take_of_le hrow hn
  have hover : (body.take (n - Record.rowSize width key 0)).drop body.length = [] :=
    List.drop_of_length_le (List.length_take_le' _ _)
  rw [sample_of_front hread (Int.natCast_nonneg _) hlimit, Int.toNat_natCast, hover]
  exact sample_of_cut (Record.takeRowFront?_nil width) _ _ _

/-- The estimate for a file that ends inside of a row. If the row was cut before its body it is left out, and otherwise
it counts as a row of the size that it was to have. -/
theorem estimates_torn_rows (hrows : ∀ row ∈ rows, Record.Framable width row.1 row.2)
    (hrow : Record.Framable width key body) (hsamples : rows.length < maxSamples)
    (hbytes : (Record.framing width rows).length < maxBytes) {n : Nat} {bytes : Bytes}
    (hwhole : bytes = Record.framing width rows ++ (Record.framed width key body).take n) (position : Nat) :
    estimateRows width ⟨bytes, position⟩ =
      (.ok (if n < Record.rowSize width key 0 then
          if rows.length = 0 then 0 else bytes.length / max 1 ((Record.framing width rows).length / rows.length)
        else
          bytes.length / max 1
            (((Record.framing width rows).length + Record.rowSize width key body.length) / (rows.length + 1))),
        ⟨bytes, 0⟩) := by
  subst hwhole
  by_cases hfront : n < Record.rowSize width key 0
  · have hend := sample_of_cut (Record.takeRowFront?_take_of_lt hrow hfront)
      (min maxBytes (Record.framing width rows ++ (Record.framed width key body).take n).length)
      (maxSamples - rows.length) ⟨rows.length, (Record.framing width rows).length⟩
    rw [if_pos hfront, estimateRows_of_rest hrows (Nat.le_of_lt hsamples) (Nat.le_of_lt hbytes) hend position]
    rfl
  -- The front is whole, so there is a byte of the row, and with it one more sample is taken.
  have hfront := Nat.le_of_not_lt hfront
  have hlimit : (Record.framing width rows).length <
      min maxBytes (Record.framing width rows ++ (Record.framed width key body).take n).length := by
    have hsome : 0 < ((Record.framed width key body).take n).length := by
      rw [List.length_take, Record.length_framed]
      exact Nat.lt_min.mpr ⟨Nat.lt_of_lt_of_le (Record.rowSize_pos width key 0) hfront, Record.rowSize_pos width key _⟩
    rw [List.length_append]
    exact Nat.lt_min.mpr ⟨hbytes, Nat.lt_add_of_pos_right hsome⟩
  obtain ⟨samples, hmore⟩ := Nat.exists_eq_add_one.mpr (Nat.sub_pos_of_lt hsamples)
  have hend := sample_take_of_le (s := ⟨rows.length, (Record.framing width rows).length⟩) hrow hfront hlimit samples
  rw [← hmore] at hend
  rw [if_neg (Nat.not_lt_of_le hfront), estimateRows_of_rest hrows (Nat.le_of_lt hsamples) (Nat.le_of_lt hbytes) hend
    position]
  rfl

/-- A row and the beginning of the next, of whose body five bytes are there. -/
def cutBytes : Bytes :=
  Record.framing .long [([97], [])] ++ (Record.framed .long [98] (List.replicate 100 120)).take 16

theorem estimates_torn_rows_cut :
    estimateRows .long ⟨cutBytes, 3⟩ = (.ok (27 / max 1 ((11 + 111) / 2)), ⟨cutBytes, 0⟩) := by
  have hrows : ∀ row ∈ ([([97], [])] : List (Bytes × Bytes)), Record.Framable .long row.1 row.2 := by
    intro row hrow
    rw [List.mem_singleton.mp hrow]
    exact ⟨by decide, by decide, by decide⟩
  exact estimates_torn_rows hrows ⟨by decide, by decide, by decide⟩ (by decide) (by decide) rfl 3

/-- The row before the one that was cut is as long as two fifths of the file, and yet no row is estimated. -/
theorem cut_body_outweighs : cutBytes.length / max 1 ((Record.framing .long [([97], [])]).length / 1) = 2 ∧
    estimateRows .long ⟨cutBytes, 0⟩ = (.ok 0, ⟨cutBytes, 0⟩) := by
  decide +kernel

end Estimate

end SortedTable
