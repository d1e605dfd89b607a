import Mathlib.Logic.Relation
import SortedTable.Proofs.Estimating

/-!
# Estimates of any bytes

The sample goes through any bytes in turns. A turn reads the front of a row and goes on behind the body that the front
announces, so that there are no more turns than the bytes have room for fronts. The sample ends at one of the two
limits, where no whole front begins, or at a negative length; only there the estimate fails, and only there the cursor
is not rewound. Main statement: `rewound_unless_negative`.
-/

namespace SortedTable

namespace Record

variable {width : LengthWidth} {key input : Bytes} {size : Int}

/-- A row begins here with this key and with this number in a whole length field. -/
structure Fronted (width : LengthWidth) (key : Bytes) (size : Int) (input : Bytes) : Prop where
  key_le : key.length ≤ maxShort
  fits : BigEndian.Fits width.bytes size
  begins : short key ++ BigEndian.encodeInt width.bytes size <+: input

theorem Fronted.takeRowFront? (h : Fronted width key size input) :
    takeRowFront? width input = some (key, size, input.drop (rowSize width key 0)) := by
  obtain ⟨tail, rfl⟩ := h.begins
  rw [takeRowFront?_front width h.key_le h.fits tail, ← length_front width key size, List.drop_left]

theorem fronted_of_takeRowFront? {tail : Bytes} (h : takeRowFront? width input = some (key, size, tail)) :
    Fronted width key size input := by
  obtain ⟨rfl, hkey, hfits⟩ := takeRowFront?_eq_some_iff.mp h
  exact ⟨hkey, hfits, tail, rfl⟩

theorem takeRowFront?_eq_none_iff : takeRowFront? width input = none ↔ ∀ key size, ¬ Fronted width key size input := by
  constructor
  · intro hnone key size h
    rw [h.takeRowFront?] at hnone
    cases hnone
  · intro hno
    rcases hfront : takeRowFront? width input with - | ⟨key, size, tail⟩
    · rfl
    · exact absurd (fronted_of_takeRowFront? hfront) (hno key size)

end Record

namespace Estimate

/-- Within both limits, the sample comes to a row with this key and this number in its length field. -/
structure Meets (width : LengthWidth) (bytes : Bytes) (s : Sample) (key : Bytes) (size : Int) : Prop where
  rows : s.rows < maxSamples
  position : s.position < min maxBytes bytes.length
  front : Record.Fronted width key size (bytes.drop s.position)

/-- One turn: the next row is sampled, whether its body is there or not. -/
inductive Turn (width : LengthWidth) (bytes : Bytes) : Sample → Sample → Prop where
  | row {s : Sample} {key : Bytes} {length : Nat} (h : Meets width bytes s key length) :
      Turn width bytes s ⟨s.rows + 1, s.position + Record.rowSize width key length⟩

/-- Some number of turns from the start of the bytes lead here. -/
def Sampled (width : LengthWidth) (bytes : Bytes) (s : Sample) : Prop :=
  Relation.ReflTransGen (Turn width bytes) ⟨0, 0⟩ s

/-- How the sample ends: at a limit, where no whole front begins, or at a negative length. -/
inductive Stop (width : LengthWidth) (bytes : Bytes) (s : Sample) : Except BadLength Sample → Prop where
  | rows (h : maxSamples ≤ s.rows) : Stop width bytes s (.ok s)
  | bytes (h : min maxBytes bytes.length ≤ s.position) : Stop width bytes s (.ok s)
  | cut (h : ∀ key size, ¬ Record.Fronted width key size (bytes.drop s.position)) : Stop width bytes s (.ok s)
  | negative {key : Bytes} {size : Int} (h : Meets width bytes s key size) (hsize : size < 0) :
      Stop width bytes s (.error ⟨size, s.position + Record.rowSize width key 0⟩)

/-- What becomes of a sample from here on. -/
def outcome (width : LengthWidth) (bytes : Bytes) (s : Sample) : Except BadLength Sample :=
  sample width (min maxBytes bytes.length) (maxSamples - s.rows) s (bytes.drop s.position)

/-- What an estimate answers by the outcome of its sample, and where it leaves the cursor. -/
def answer (bytes : Bytes) : Except BadLength Sample → Except DecodeError Nat × Cursor
  | .ok s => (.ok (ofSample bytes.length s), ⟨bytes, 0⟩)
  | .error e => (.error (.rowSize e.length), ⟨bytes, e.position⟩)

variable {width : LengthWidth} {bytes key : Bytes} {size : Int} {s t : Sample} {o : Except BadLength Sample}

/-- Each turn begins inside the bytes and goes on by at least the front of a row without a key. -/
theorem Turn.advances (h : Turn width bytes s t) :
    s.position < bytes.length ∧ s.position + (2 + width.bytes) ≤ t.position := by
  obtain ⟨hmeets⟩ := h
  constructor
  · exact Nat.lt_of_lt_of_le hmeets.position (Nat.min_le_right _ _)
  · unfold Record.rowSize
    dsimp only
    omega

theorem Turn.outcome_eq (h : Turn width bytes s t) : outcome width bytes s = outcome width bytes t := by
  obtain ⟨hmeets⟩ := h
  rename_i key length
  obtain ⟨samples, hsamples⟩ := Nat.exists_eq_add_one.mpr (Nat.sub_pos_of_lt hmeets.rows)
  have hmore : maxSamples - (s.rows + 1) = samples := by omega
  unfold outcome
  rw [hsamples, sample_of_front hmeets.front.takeRowFront? (Int.natCast_nonneg _) hmeets.position, Int.toNat_natCast,
    List.drop_drop, List.drop_drop, Record.rowSize_zero_add, hmore]

theorem Sampled.outcome_eq (h : Sampled width bytes s) : outcome width bytes ⟨0, 0⟩ = outcome width bytes s := by
  induction h with
  | refl => rfl
  | tail _ hturn ih => exact ih.trans hturn.outcome_eq

/-- The rows that were sampled have fronts, and these lie one behind the other. -/
theorem Sampled.rows_mul_le (h : Sampled width bytes s) : s.rows * (2 + width.bytes) ≤ s.position := by
  induction h with
  | refl => exact Nat.le_of_eq (Nat.zero_mul _)
  | @tail s t _ hturn ih =>
      have hrows : t.rows = s.rows + 1 := by
        cases hturn
        rfl
      rw [hrows, Nat.succ_mul]
      exact Nat.le_trans (Nat.add_le_add_right ih _) hturn.advances.2

theorem Sampled.rows_le (h : Sampled width bytes s) : s.rows ≤ bytes.length / (2 + width.bytes) + 1 := by
  rcases Relation.ReflTransGen.cases_tail h with rfl | ⟨s', hbefore, hturn⟩
  · exact Nat.zero_le _
  have hrows : s.rows = s'.rows + 1 := by
    cases hturn
    rfl
  rw [hrows]
  apply Nat.succ_le_succ
  rw [Nat.le_div_iff_mul_le (by omega)]
  exact Nat.le_trans (Sampled.rows_mul_le hbefore) (Nat.le_of_lt hturn.advances.1)

theorem Stop.outcome_eq (h : Stop width bytes s o) : outcome width bytes s = o := by
  unfold outcome
  cases h with
  | rows h =>
      rw [Nat.sub_eq_zero_of_le h]
      rfl
  | bytes h => exact sample_of_le h _ _
  | cut h => exact sample_of_cut (Record.takeRowFront?_eq_none_iff.mpr h) _ _ _
  | negative h hsize =>
      obtain ⟨samples, hsamples⟩ := Nat.exists_eq_add_one.mpr (Nat.sub_pos_of_lt h.rows)
      rw [hsamples, sample_of_negative h.front.takeRowFront? hsize h.position]

theorem stop_or_turn (width : LengthWidth) (bytes : Bytes) (s : Sample) :
    (∃ o, Stop width bytes s o) ∨ ∃ t, Turn width bytes s t := by
  by_cases hrows : maxSamples ≤ s.rows
  · exact .inl ⟨_, .rows hrows⟩
  by_cases hbytes : min maxBytes bytes.length ≤ s.position
  · exact .inl ⟨_, .bytes hbytes⟩
  by_cases hcut : ∀ key size, ¬ Record.Fronted width key size (bytes.drop s.position)
  · exact .inl ⟨_, .cut hcut⟩
  simp only [not_forall, not_not] at hcut
  obtain ⟨key, size, hfront⟩ := hcut
  have hmeets : Meets width bytes s key size := ⟨Nat.lt_of_not_le hrows, Nat.lt_of_not_le hbytes, hfront⟩
  by_cases hsize : size < 0
  · exact .inl ⟨_, .negative hmeets hsize⟩
  · obtain ⟨length, rfl⟩ := Int.eq_ofNat_of_zero_le (Int.not_lt.mp hsize)
    exact .inr ⟨_, .row hmeets⟩

/-- From every place the sample comes to an end, as every turn leaves fewer bytes. -/
theorem exists_stop_from (width : LengthWidth) (bytes : Bytes) (s : Sample) :
    ∃ t o, Relation.ReflTransGen (Turn width bytes) s t ∧ Stop width bytes t o := by
  induction hleft : bytes.length - s.position using Nat.strong_induction_on generalizing s with
  | _ left ih =>
      rcases stop_or_turn width bytes s with ⟨o, hstop⟩ | ⟨t, hturn⟩
      · exact ⟨s, o, .refl, hstop⟩
      · have hadvances := hturn.advances
        obtain ⟨u, o, hturns, hstop⟩ := ih (bytes.length - t.position) (by omega) t rfl
        exact ⟨u, o, .head hturn hturns, hstop⟩

theorem exists_stop (width : LengthWidth) (bytes : Bytes) :
    ∃ s, Sampled width bytes s ∧ Stop width bytes s (outcome width bytes ⟨0, 0⟩) := by
  obtain ⟨s, o, hsampled, hstop⟩ := exists_stop_from width bytes ⟨0, 0⟩
  have hend : outcome width bytes ⟨0, 0⟩ = o := by rw [Sampled.outcome_eq hsampled, hstop.outcome_eq]
  exact ⟨s, hsampled, hend ▸ hstop⟩

theorem outcome_eq_error_iff {e : BadLength} :
    outcome width bytes ⟨0, 0⟩ = .error e ↔
      ∃ s key, Sampled width bytes s ∧ Meets width bytes s key e.length ∧ e.length < 0 ∧
        e.position = s.position + Record.rowSize width key 0 := by
  constructor
  · intro herror
    obtain ⟨s, hsampled, hstop⟩ := exists_stop width bytes
    rw [herror] at hstop
    cases hstop with
    | negative hmeets hsize => exact ⟨s, _, hsampled, hmeets, hsize, rfl⟩
  · rintro ⟨s, key, hsampled, hmeets, hsize, hposition⟩
    rw [hsampled.outcome_eq, (Stop.negative hmeets hsize).outcome_eq, ← hposition]

theorem estimateRows_eq_answer (width : LengthWidth) (bytes : Bytes) (position : Nat) :
    estimateRows width ⟨bytes, position⟩ = answer bytes (outcome width bytes ⟨0, 0⟩) := by
  rcases houtcome : outcome width bytes ⟨0, 0⟩ with e | s
  · exact estimateRows_of_sample_error houtcome position
  · exact estimateRows_of_sample houtcome position

theorem exists_error_answer_iff : (∃ e, (answer bytes o).1 = .error e) ↔ ∃ e, o = .error e := by
  cases o with
  | ok s => simp [answer]
  | error e => exact iff_of_true ⟨_, rfl⟩ ⟨e, rfl⟩

/-- Any bytes have an estimate, or an error, wherever the cursor was. Every turn of the sample goes on by the front of
a row at least. There is an error just if the sample comes to a negative length, and the cursor is rewound just if
there is none. -/
theorem rewound_unless_negative (width : LengthWidth) (bytes : Bytes) (position : Nat) :
    (∀ position', estimateRows width ⟨bytes, position⟩ = estimateRows width ⟨bytes, position'⟩) ∧
    (∀ s t, Turn width bytes s t → s.position < bytes.length ∧ s.position + (2 + width.bytes) ≤ t.position) ∧
    (∃ s o, Sampled width bytes s ∧ s.rows ≤ bytes.length / (2 + width.bytes) + 1 ∧ Stop width bytes s o ∧
      estimateRows width ⟨bytes, position⟩ = answer bytes o) ∧
    ((∃ e, (estimateRows width ⟨bytes, position⟩).1 = .error e) ↔
      ∃ s key size, Sampled width bytes s ∧ Meets width bytes s key size ∧ size < 0) ∧
    ((estimateRows width ⟨bytes, position⟩).2 = ⟨bytes, 0⟩ ↔
      ¬ ∃ e, (estimateRows width ⟨bytes, position⟩).1 = .error e) := by
  refine ⟨fun position' => ?_, fun s t hturn => hturn.advances, ?_, ?_, ?_⟩
  · rw [estimateRows_eq_answer, estimateRows_eq_answer]
  · obtain ⟨s, hsampled, hstop⟩ := exists_stop width bytes
    exact ⟨s, _, hsampled, hsampled.rows_le, hstop, estimateRows_eq_answer width bytes position⟩
  · rw [estimateRows_eq_answer, exists_error_answer_iff]
    constructor
    · rintro ⟨e, herror⟩
      obtain ⟨s, key, hsampled, hmeets, hsize, -⟩ := outcome_eq_error_iff.mp herror
      exact ⟨s, key, _, hsampled, hmeets, hsize⟩
    · rintro ⟨s, key, size, hsampled, hmeets, hsize⟩
      exact ⟨⟨size, _⟩, outcome_eq_error_iff.mpr ⟨s, key, hsampled, hmeets, hsize, rfl⟩⟩
  · rw [estimateRows_eq_answer, exists_error_answer_iff]
    rcases houtcome : outcome width bytes ⟨0, 0⟩ with e | s
    · obtain ⟨s, key, -, -, -, hposition⟩ := outcome_eq_error_iff.mp houtcome
      have hpos := Record.rowSize_pos width key 0
      refine iff_of_false (fun hrewound => ?_) fun hnone => hnone ⟨e, rfl⟩
      have hzero : e.position = 0 := congrArg Cursor.position hrewound
      omega
    · exact iff_of_true rfl fun ⟨e, herror⟩ => nomatch herror

/-- A row without a body, and the front of a row of negative length. -/
def negativeBytes : Bytes :=
  Record.framed .long [97] [] ++ (Record.short [98] ++ BigEndian.encodeInt 8 (-1))

theorem rewound_unless_negative_second :
    (∃ s, Sampled .long negativeBytes s ∧ Meets .long negativeBytes s [98] (-1)) ∧
      (∃ e, (estimateRows .long ⟨negativeBytes, 5⟩).1 = .error e) ∧
      (estimateRows .long ⟨negativeBytes, 5⟩).2 ≠ ⟨negativeBytes, 0⟩ := by
  have hfirst : Meets .long negativeBytes ⟨0, 0⟩ [97] (0 : Nat) :=
    ⟨by decide, by decide, by decide, ⟨by decide, by decide⟩, by decide⟩
  have hsecond : Meets .long negativeBytes ⟨1, 11⟩ [98] (-1) :=
    ⟨by decide, by decide, by decide, ⟨by decide, by decide⟩, by decide⟩
  have hsampled : Sampled .long negativeBytes ⟨1, 11⟩ := .single (.row hfirst)
  obtain ⟨-, -, -, herror, hrewound⟩ := rewound_unless_negative .long negativeBytes 5
  have hfails := herror.mpr ⟨_, _, _, hsampled, hsecond, by decide⟩
  exact ⟨⟨_, hsampled, hsecond⟩, hfails, fun hstart => hrewound.mp hstart hfails⟩

/-- The cursor is left behind the negative length. -/
theorem negative_not_rewound :
    estimateRows .long ⟨negativeBytes, 0⟩ = (.error (.rowSize (-1)), ⟨negativeBytes, 22⟩) := by
  decide +kernel

end Estimate

end SortedTable
