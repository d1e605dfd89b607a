import Mathlib.Data.List.Chain
import SortedTable.Proofs.Segments

/-!
# How a file is cut into segments

Segments lie one behind the other from the start of a file to its end. In mapped mode each takes all the records that
fit in the maximum, no record lies in two of them, and only a single record makes one that is too long to be mapped.
Main statement: `on_complete_mapped`.
-/

namespace SortedTable

/-- The segments make up everything from one place to another, each starting where the one before it ends. -/
def Tiles (lo : Nat) : List Segment → Nat → Prop
  | [], hi => lo = hi
  | s :: rest, hi => s.start = lo ∧ Tiles (lo + s.length) rest hi

section Parted

variable {m s t c : Nat} {offers : List Nat}

/-- Two places offered so far, of which the second ends the segment that starts at the first. -/
structure Parted (m : Nat) (offers : List Nat) (s t : Nat) : Prop where
  lt : s < t
  offered : t ∈ offers
  alone : s + m < t → ∀ c ∈ offers, c ≤ s ∨ t ≤ c
  full : ∃ c ∈ offers, s + m < c
  greedy : ∀ c ∈ offers, t < c → s + m < c

theorem Parted.later (h : Parted m offers s t) (hc : ∀ d ∈ offers, d ≤ c) : Parted m (offers ++ [c]) s t := by
  obtain ⟨past, hpast, hfull⟩ := h.full
  have hcross : s + m < c := Nat.lt_of_lt_of_le hfull (hc past hpast)
  have hlast : t ≤ c := hc t h.offered
  refine ⟨h.lt, List.mem_append_left _ h.offered, fun hlong d hd => ?_,
    ⟨past, List.mem_append_left _ hpast, hfull⟩, fun d hd hbehind => ?_⟩
  · rcases List.mem_append.mp hd with hd | hd
    · exact h.alone hlong d hd
    · exact .inr ((List.mem_singleton.mp hd).symm ▸ hlast)
  · rcases List.mem_append.mp hd with hd | hd
    · exact h.greedy d hd hbehind
    · exact (List.mem_singleton.mp hd).symm ▸ hcross

/-- A segment that ends at the last place offered before one that is too far away. -/
theorem Parted.of_fits (hlt : s < t) (ht : t ∈ offers) (hfits : t ≤ s + m) (hlast : ∀ d ∈ offers, d ≤ t)
    (hfar : s + m < c) : Parted m (offers ++ [c]) s t := by
  refine ⟨hlt, List.mem_append_left _ ht, fun hlong => absurd hlong (Nat.not_lt_of_le hfits),
    ⟨c, List.mem_append_right _ (List.mem_singleton_self c), hfar⟩, fun d hd hbehind => ?_⟩
  rcases List.mem_append.mp hd with hd | hd
  · exact absurd hbehind (Nat.not_lt_of_le (hlast d hd))
  · exact (List.mem_singleton.mp hd).symm ▸ hfar

/-- A record that alone is longer than a segment may be. -/
theorem Parted.of_alone (hlast : ∀ d ∈ offers, d ≤ s) (hfar : s + m < c) : Parted m (offers ++ [c]) s c := by
  have hlt : s < c := Nat.lt_of_le_of_lt (Nat.le_add_right s m) hfar
  have hc : c ∈ offers ++ [c] := List.mem_append_right _ (List.mem_singleton_self c)
  refine ⟨hlt, hc, fun _ d hd => ?_, ⟨c, hc, hfar⟩, fun d hd hbehind => Nat.lt_trans hfar hbehind⟩
  rcases List.mem_append.mp hd with hd | hd
  · exact .inl (hlast d hd)
  · exact .inr (Nat.le_of_eq (List.mem_singleton.mp hd).symm)

end Parted

section Chosen

variable {m start t c : Nat} {offers boundaries : List Nat}

/-- The boundaries chosen so far, of which the last, or the start of the file, is the start of the current segment. -/
structure Chosen (m : Nat) (offers boundaries : List Nat) (start : Nat) : Prop where
  parted : (0 :: boundaries).IsChain (Parted m offers)
  last : (0 :: boundaries).getLast? = some start

theorem Chosen.later (h : Chosen m offers boundaries start) (hc : ∀ d ∈ offers, d ≤ c) :
    Chosen m (offers ++ [c]) boundaries start :=
  ⟨h.parted.imp fun _ _ hparted => hparted.later hc, h.last⟩

theorem Chosen.push (h : Chosen m offers boundaries start) (hparted : Parted m offers start t) :
    Chosen m offers (boundaries ++ [t]) t := by
  refine ⟨?_, ?_⟩
  · rw [← List.cons_append]
    refine h.parted.append (List.isChain_singleton t) fun s hs u hu => ?_
    rw [h.last, Option.mem_some_iff] at hs
    rw [List.head?_cons, Option.mem_some_iff] at hu
    exact hs ▸ hu ▸ hparted
  · rw [← List.cons_append, List.getLast?_concat]

theorem Chosen.ascending (h : Chosen m offers boundaries start) : (0 :: boundaries).Pairwise (· < ·) :=
  List.isChain_iff_pairwise.mp (h.parted.imp fun _ _ hparted => hparted.lt)

theorem Chosen.offered (h : Chosen m offers boundaries start) : ∀ s ∈ boundaries, s ∈ offers := by
  have hchain := h.parted
  clear h
  generalize 0 = first at hchain
  induction boundaries generalizing first with
  | nil => simp
  | cons s rest ih =>
      obtain ⟨hparted, hrest⟩ := List.isChain_cons_cons.mp hchain
      intro t ht
      rcases List.mem_cons.mp ht with rfl | ht
      · exact hparted.offered
      · exact ih _ hrest t ht

end Chosen

namespace SegmentBuilder

variable {b : SegmentBuilder} {m c : Nat} {offers : List Nat}

/-- A builder in mapped mode that was offered these places, in ascending order. -/
structure Cuts (m : Nat) (offers : List Nat) (b : SegmentBuilder) : Prop where
  mode : b.mode = .mapped
  maxSize : b.maxSize = m
  chosen : Chosen m offers b.boundaries b.currentStart
  reached : b.currentStart + b.currentSize ∈ 0 :: offers
  bound : ∀ c ∈ offers, c ≤ b.currentStart + b.currentSize
  fits : b.currentSize ≤ m

theorem cuts_empty (m : Nat) : (empty .mapped m).Cuts (max 1 m) [] where
  mode := rfl
  maxSize := rfl
  chosen := ⟨List.isChain_singleton 0, rfl⟩
  reached := List.mem_cons_self
  bound := fun _ hc => absurd hc List.not_mem_nil
  fits := Nat.zero_le _

theorem Cuts.end_le (h : b.Cuts m offers) (hc : ∀ d ∈ offers, d ≤ c) : b.currentStart + b.currentSize ≤ c := by
  rcases List.mem_cons.mp h.reached with hzero | hoffered
  · exact hzero ▸ Nat.zero_le c
  · exact hc _ hoffered

@[simp] theorem mode_close (b : SegmentBuilder) : b.close.mode = b.mode := by
  unfold SegmentBuilder.close
  split <;> rfl

@[simp] theorem maxSize_close (b : SegmentBuilder) : b.close.maxSize = b.maxSize := by
  unfold SegmentBuilder.close
  split <;> rfl

@[simp] theorem currentStart_close (b : SegmentBuilder) : b.close.currentStart = b.currentStart + b.currentSize := by
  unfold SegmentBuilder.close
  split
  · rfl
  · rename_i hzero
    rw [Nat.eq_zero_of_not_pos hzero, Nat.add_zero]

/-- A place that is too far away ends the current segment where the last one was offered. -/
theorem Cuts.close (h : b.Cuts m offers) (hc : ∀ d ∈ offers, d ≤ c) (hfar : b.currentStart + m < c) :
    Chosen m (offers ++ [c]) b.close.boundaries (b.currentStart + b.currentSize) := by
  unfold SegmentBuilder.close
  by_cases hsome : 0 < b.currentSize
  · rw [if_pos hsome]
    have hlt : b.currentStart < b.currentStart + b.currentSize := Nat.lt_add_of_pos_right hsome
    have hoffered : b.currentStart + b.currentSize ∈ offers := by
      rcases List.mem_cons.mp h.reached with hzero | hoffered
      · omega
      · exact hoffered
    exact (h.chosen.later hc).push (.of_fits hlt hoffered (Nat.add_le_add_left h.fits _) h.bound hfar)
  · rw [if_neg hsome, Nat.eq_zero_of_not_pos hsome]
    exact h.chosen.later hc

theorem Cuts.offer (h : b.Cuts m offers) (hc : ∀ d ∈ offers, d ≤ c) : (b.offer c).Cuts m (offers ++ [c]) := by
  have hend := h.end_le hc
  have hreached : ∀ {sum}, sum = c → sum ∈ 0 :: (offers ++ [c]) := by
    rintro sum rfl
    simp
  have hbound : ∀ {sum}, sum = c → ∀ d ∈ offers ++ [c], d ≤ sum := by
    rintro sum rfl d hd
    rcases List.mem_append.mp hd with hd | hd
    · exact hc d hd
    · exact Nat.le_of_eq (List.mem_singleton.mp hd)
  unfold SegmentBuilder.offer
  simp only [h.mode, maxSize_close, currentStart_close, h.maxSize]
  by_cases hfits : c - b.currentStart ≤ m
  · rw [if_pos hfits]
    have hsum : b.currentStart + (c - b.currentStart) = c := by omega
    exact
      { mode := rfl
        maxSize := rfl
        chosen := h.chosen.later hc
        reached := hreached hsum
        bound := hbound hsum
        fits := hfits }
  · rw [if_neg hfits]
    have hchosen := h.close hc (by omega)
    by_cases hlong : m < c - (b.currentStart + b.currentSize)
    · rw [if_pos hlong]
      exact
        { mode := b.mode_close.trans h.mode
          maxSize := rfl
          chosen := hchosen.push (.of_alone h.bound (by omega))
          reached := hreached (Nat.add_zero c)
          bound := hbound (Nat.add_zero c)
          fits := Nat.zero_le m }
    · rw [if_neg hlong]
      have hsum : b.currentStart + b.currentSize + (c - (b.currentStart + b.currentSize)) = c := by omega
      exact
        { mode := b.mode_close.trans h.mode
          maxSize := rfl
          chosen := hchosen
          reached := hreached hsum
          bound := hbound hsum
          fits := Nat.le_of_not_lt hlong }

theorem cuts_offers (m : Nat) (hasc : offers.Pairwise (· ≤ ·)) :
    (offers.foldl SegmentBuilder.offer (empty .mapped m)).Cuts (max 1 m) offers := by
  induction offers using List.reverseRecOn with
  | nil => exact cuts_empty m
  | append_singleton offers c ih =>
      obtain ⟨hbefore, -, hlast⟩ := List.pairwise_append.mp hasc
      rw [List.foldl_append, List.foldl_cons, List.foldl_nil]
      exact (ih hbefore).offer fun d hd => hlast d hd c (List.mem_singleton_self c)

end SegmentBuilder

section Ascending

variable {xs acc inside : List Nat} {n s : Nat}

theorem filter_lt_of_ascending (hasc : xs.Pairwise (· < ·)) (hle : ∀ x ∈ xs, x ≤ n) :
    xs.filter (· < n) = xs ∨ xs.filter (· < n) ++ [n] = xs := by
  induction xs using List.reverseRecOn with
  | nil => exact .inl rfl
  | append_singleton front last _ =>
      obtain ⟨-, -, hlast⟩ := List.pairwise_append.mp hasc
      have hlen : last ≤ n := hle last (by simp)
      have hfront : front.filter (· < n) = front := List.filter_eq_self.mpr fun x hx =>
        decide_eq_true (Nat.lt_of_lt_of_le (hlast x hx last (List.mem_singleton_self last)) hlen)
      rcases Nat.eq_or_lt_of_le hlen with rfl | hlt
      · right
        simp [List.filter_append, hfront]
      · left
        simp [List.filter_append, hfront, hlt]

/-- Ascending starts are never the same as the one before. -/
theorem foldl_starts (hasc : (s :: inside).Pairwise (· < ·)) (hlast : acc.getLast? = some s) :
    inside.foldl (fun starts s => if starts.getLast? = some s then starts else starts ++ [s]) acc = acc ++ inside := by
  induction inside generalizing acc s with
  | nil => rw [List.foldl_nil, List.append_nil]
  | cons t rest ih =>
      obtain ⟨hfirst, hrest⟩ := List.pairwise_cons.mp hasc
      have hne : acc.getLast? ≠ some t := by
        rw [hlast]
        exact fun heq => Nat.ne_of_lt (hfirst t List.mem_cons_self) (Option.some.inj heq)
      rw [List.foldl_cons, if_neg hne, ih hrest List.getLast?_concat, List.append_assoc, List.singleton_append]

end Ascending

namespace SegmentBuilder

section Starts

variable {b : SegmentBuilder} {m length start id : Nat} {offers rest starts : List Nat}

theorem starts_eq (hasc : (0 :: (b.offer length).boundaries).Pairwise (· < ·)) :
    b.starts length = 0 :: (b.offer length).boundaries.filter (· < length) := by
  have hinside : (b.offer length).boundaries.filter (fun s => 0 < s ∧ s < length) =
      (b.offer length).boundaries.filter (· < length) := by
    refine List.filter_congr fun s hs => ?_
    simp only [(List.pairwise_cons.mp hasc).1 s hs, true_and]
  unfold starts
  dsimp only
  rw [hinside, foldl_starts (hasc.sublist (List.filter_sublist.cons_cons 0)) rfl]
  rfl

theorem exists_starts (hasc : (0 :: (b.offer length).boundaries).Pairwise (· < ·)) :
    ∃ rest, b.starts length = 0 :: rest ∧ (0 :: rest).Pairwise (· < ·) ∧ (∀ s ∈ 0 :: rest, s ≤ length) ∧
      ∀ s ∈ rest, s ∈ (b.offer length).boundaries ∧ s < length := by
  have hinside : ∀ s ∈ (b.offer length).boundaries.filter (· < length),
      s ∈ (b.offer length).boundaries ∧ s < length := by
    intro s hs
    obtain ⟨hmem, hlt⟩ := List.mem_filter.mp hs
    exact ⟨hmem, of_decide_eq_true hlt⟩
  refine ⟨_, starts_eq hasc, hasc.sublist (List.filter_sublist.cons_cons 0), fun s hs => ?_, hinside⟩
  rcases List.mem_cons.mp hs with rfl | hs
  · exact Nat.zero_le length
  · exact Nat.le_of_lt (hinside s hs).2

theorem map_start_cut (b : SegmentBuilder) (id length : Nat) (starts : List Nat) :
    ((cut length starts).map (b.segmentOf id)).map Segment.start = starts := by
  fun_induction cut length starts with
  | case1 => rfl
  | case2 start => rfl
  | case3 start next rest ih =>
      rw [List.map_cons, List.map_cons, ih]
      rfl

theorem tiles_cut (b : SegmentBuilder) (id : Nat) (hasc : (start :: rest).Pairwise (· < ·))
    (hle : ∀ s ∈ start :: rest, s ≤ length) :
    Tiles start ((cut length (start :: rest)).map (b.segmentOf id)) length := by
  induction rest generalizing start with
  | nil => exact ⟨rfl, Nat.add_sub_cancel' (hle start List.mem_cons_self)⟩
  | cons next rest ih =>
      obtain ⟨hfirst, hrest⟩ := List.pairwise_cons.mp hasc
      have hnext : start + (next - start) = next := Nat.add_sub_cancel' (Nat.le_of_lt (hfirst next List.mem_cons_self))
      have htiles := ih hrest fun s hs => hle s (List.mem_cons_of_mem start hs)
      exact ⟨rfl, hnext.symm ▸ htiles⟩

theorem infix_of_mem_cut (hasc : (start :: rest).Pairwise (· < ·)) (hle : ∀ s ∈ start :: rest, s ≤ length)
    {range : Nat × Nat} (h : range ∈ cut length (start :: rest)) :
    [range.1, range.1 + range.2] <:+: start :: rest ++ [length] := by
  induction rest generalizing start with
  | nil =>
      obtain rfl := List.mem_singleton.mp h
      rw [Nat.add_sub_cancel' (hle start List.mem_cons_self)]
      exact List.infix_refl _
  | cons next rest ih =>
      obtain ⟨hfirst, hrest⟩ := List.pairwise_cons.mp hasc
      rcases List.mem_cons.mp h with rfl | h
      · rw [Nat.add_sub_cancel' (Nat.le_of_lt (hfirst next List.mem_cons_self))]
        exact ⟨[], rest ++ [length], rfl⟩
      · exact (ih hrest (fun s hs => hle s (List.mem_cons_of_mem start hs)) h).trans (List.suffix_cons start _).isInfix

end Starts

end SegmentBuilder

/-- Segments one behind the other, none of which starts inside a range, have one that holds the whole range. -/
theorem Tiles.exists_holding {segments : List Segment} {lo hi a b : Nat} (h : Tiles lo segments hi)
    (hsome : segments ≠ []) (hlo : lo ≤ a) (hhi : b ≤ hi) (hwhole : ∀ s ∈ segments, s.start ≤ a ∨ b ≤ s.start) :
    ∃ s ∈ segments, s.start ≤ a ∧ b ≤ s.start + s.length := by
  induction segments generalizing lo with
  | nil => exact absurd rfl hsome
  | cons s rest ih =>
      obtain ⟨rfl, hrest⟩ := h
      cases rest with
      | nil =>
          have hend : s.start + s.length = hi := hrest
          exact ⟨s, List.mem_cons_self, hlo, by omega⟩
      | cons t rest =>
          have hnext : t.start = s.start + s.length := hrest.1
          rcases hwhole t (by simp) with hbefore | hbehind
          · obtain ⟨u, hu, hholds⟩ := ih hrest (by simp) (hnext ▸ hbefore)
              fun u hu => hwhole u (List.mem_cons_of_mem s hu)
            exact ⟨u, List.mem_cons_of_mem s hu, hholds⟩
          · exact ⟨s, List.mem_cons_self, hlo, hnext ▸ hbehind⟩

/-- The ranges between consecutive places of an ascending list have none of the places inside. -/
theorem le_or_le_of_infix {places : List Nat} {a b c : Nat} (hasc : places.Pairwise (· ≤ ·))
    (hab : [a, b] <:+: places) (hc : c ∈ places) : c ≤ a ∨ b ≤ c := by
  obtain ⟨front, back, rfl⟩ := hab
  rw [List.append_assoc, List.pairwise_append] at hasc
  obtain ⟨-, hrest, hfront⟩ := hasc
  obtain ⟨-, htail⟩ := List.pairwise_cons.mp hrest
  simp only [List.mem_append, List.mem_cons, List.not_mem_nil, or_false] at hc
  rcases hc with (hc | rfl | rfl) | hc
  · exact .inl (hfront c hc a List.mem_cons_self)
  · exact .inl (Nat.le_refl c)
  · exact .inr (Nat.le_refl c)
  · exact .inr ((List.pairwise_cons.mp htail).1 c hc)

theorem pairwise_places {offers : List Nat} {length : Nat} (hasc : offers.Pairwise (· ≤ ·))
    (hle : ∀ c ∈ offers, c ≤ length) : (0 :: (offers ++ [length])).Pairwise (· ≤ ·) := by
  refine List.pairwise_cons.mpr ⟨fun c _ => Nat.zero_le c, List.pairwise_append.mpr
    ⟨hasc, List.pairwise_singleton _ length, fun c hc d hd => ?_⟩⟩
  exact (List.mem_singleton.mp hd).symm ▸ hle c hc

theorem le_of_mem_places {offers : List Nat} {length b : Nat} (hle : ∀ c ∈ offers, c ≤ length)
    (hb : b ∈ 0 :: (offers ++ [length])) : b ≤ length := by
  simp only [List.mem_cons, List.mem_append, List.not_mem_nil, or_false] at hb
  rcases hb with rfl | hb | rfl
  · exact Nat.zero_le length
  · exact hle b hb
  · exact Nat.le_refl b

/-- The segments of a file whose records start at the offered places, and of which at most `m` bytes are mapped at
once. -/
structure Segmented (m : Nat) (offers : List Nat) (length : Nat) (segments : List Segment) : Prop where
  tiles : Tiles 0 segments length
  ascending : (segments.map Segment.start).Pairwise (· < ·)
  offered : ∀ s ∈ segments, s.start = 0 ∨ s.start ∈ offers
  /-- A record, which lies between two of the places next to each other, lies in one segment. -/
  unsplit : ∀ a b, [a, b] <:+: 0 :: (offers ++ [length]) → ∃ s ∈ segments, s.start ≤ a ∧ b ≤ s.start + s.length
  mapped : ∀ s ∈ segments, s.isMapped ↔ 0 < s.length ∧ s.length ≤ m
  alone : ∀ s ∈ segments, m < s.length → ∀ c ∈ offers, c ≤ s.start ∨ s.start + s.length ≤ c
  /-- One more record would not have fit. -/
  greedy : ∀ s t, [s, t] <:+: segments → ∀ c ∈ offers ++ [length], t.start < c → s.start + m < c

namespace SegmentBuilder

variable {b : SegmentBuilder} {m length : Nat} {offers : List Nat}

/-- With the end of the file as the last place offered, the segments end where a record does. -/
theorem Cuts.parted_starts (h : (b.offer length).Cuts m (offers ++ [length])) (hle : ∀ c ∈ offers, c ≤ length) :
    (b.starts length).IsChain (Parted m (offers ++ [length])) ∧
      (b.starts length ++ [length]).IsChain fun s t =>
        s ≤ t ∧ (s + m < t → ∀ c ∈ offers ++ [length], c ≤ s ∨ t ≤ c) := by
  have hbound : ∀ s ∈ (b.offer length).boundaries, s ≤ length := by
    intro s hs
    rcases List.mem_append.mp (h.chosen.offered s hs) with hs | hs
    · exact hle s hs
    · exact Nat.le_of_eq (List.mem_singleton.mp hs)
  have hwhole := h.chosen.parted.imp fun s t hparted =>
    (⟨Nat.le_of_lt hparted.lt, hparted.alone⟩ : s ≤ t ∧ (s + m < t → ∀ c ∈ offers ++ [length], c ≤ s ∨ t ≤ c))
  rw [starts_eq h.chosen.ascending]
  rcases filter_lt_of_ascending (List.pairwise_cons.mp h.chosen.ascending).2 hbound with hinside | hend
  · -- The end was not chosen, so the last segment fits.
    rw [hinside]
    refine ⟨h.chosen.parted, hwhole.append (List.isChain_singleton length) fun s hs t ht => ?_⟩
    rw [h.chosen.last, Option.mem_some_iff] at hs
    rw [List.head?_cons, Option.mem_some_iff] at ht
    subst hs
    subst ht
    have hreach : length ≤ (b.offer length).currentStart + (b.offer length).currentSize := h.bound length (by simp)
    have hlast : (b.offer length).currentStart + (b.offer length).currentSize ≤ length := by
      refine h.end_le fun d hd => ?_
      rcases List.mem_append.mp hd with hd | hd
      · exact hle d hd
      · exact Nat.le_of_eq (List.mem_singleton.mp hd)
    have hfits := h.fits
    exact ⟨by omega, fun hlong => by omega⟩
  · have hparted := h.chosen.parted
    rw [← hend, ← List.cons_append] at hparted hwhole
    exact ⟨hparted.left_of_append, hwhole⟩

theorem isMapped_segmentOf (b : SegmentBuilder) (id : Nat) (range : Nat × Nat) :
    (b.segmentOf id range).isMapped = b.isMapped range.2 := by
  unfold segmentOf Segment.isMapped
  cases b.isMapped range.2 <;> rfl

theorem Cuts.isMapped_segmentOf_iff (h : b.Cuts m offers) (id : Nat) (range : Nat × Nat) :
    (b.segmentOf id range).isMapped ↔ 0 < range.2 ∧ range.2 ≤ m := by
  rw [isMapped_segmentOf, isMapped, h.mode, h.maxSize]
  simp only [decide_true, Bool.true_and, Bool.and_eq_true, decide_eq_true_eq]

/-- The end of the file is not the start of a segment, unless a record starts there. -/
theorem Cuts.start_offered (h : (b.offer length).Cuts m (offers ++ [length])) :
    ∀ s ∈ b.starts length, s = 0 ∨ s ∈ offers := by
  obtain ⟨rest, hstarts, -, -, hchosen⟩ := exists_starts h.chosen.ascending
  intro s hs
  rw [hstarts] at hs
  rcases List.mem_cons.mp hs with hzero | hlater
  · exact .inl hzero
  · obtain ⟨hboundary, hlt⟩ := hchosen s hlater
    rcases List.mem_append.mp (h.chosen.offered s hboundary) with hmem | hend
    · exact .inr hmem
    · exact absurd (List.mem_singleton.mp hend) (Nat.ne_of_lt hlt)

/-- The segments that a builder in mapped mode makes of a file. -/
theorem Cuts.segmented (h : b.Cuts m offers) (hasc : offers.Pairwise (· ≤ ·)) (hle : ∀ c ∈ offers, c ≤ length)
    (id : Nat) : Segmented m offers length ((cut length (b.starts length)).map (b.segmentOf id)) := by
  have hlast := h.offer hle
  obtain ⟨hparted, hwhole⟩ := hlast.parted_starts hle
  have hoffered := hlast.start_offered
  obtain ⟨rest, hstarts, hascending, hinside, -⟩ := exists_starts hlast.chosen.ascending
  rw [hstarts] at hparted hwhole hoffered ⊢
  have hmap := map_start_cut b id length (0 :: rest)
  have hstart : ∀ s ∈ (cut length (0 :: rest)).map (b.segmentOf id), s.start = 0 ∨ s.start ∈ offers :=
    fun s hs => hoffered _ (hmap ▸ List.mem_map_of_mem hs)
  have htiles := tiles_cut b id hascending hinside
  refine ⟨htiles, hmap.symm ▸ hascending, hstart, ?_, ?_, ?_, ?_⟩
  · intro a b' hab
    have hend := le_of_mem_places hle (hab.subset (List.mem_cons_of_mem a (List.mem_singleton_self b')))
    refine htiles.exists_holding (fun hnil => ?_) (Nat.zero_le a) hend fun s hs =>
      le_or_le_of_infix (pairwise_places hasc hle) hab ?_
    · rw [hnil] at hmap
      cases hmap
    · rcases hstart s hs with hzero | hmem
      · exact hzero ▸ List.mem_cons_self
      · exact List.mem_cons_of_mem 0 (List.mem_append_left [length] hmem)
  · intro s hs
    obtain ⟨range, -, rfl⟩ := List.mem_map.mp hs
    exact h.isMapped_segmentOf_iff id range
  · intro s hs hlong c hc
    obtain ⟨range, hmem, rfl⟩ := List.mem_map.mp hs
    have hrange := infix_of_mem_cut hascending hinside hmem
    have hpair := List.isChain_pair.mp <| List.IsChain.infix hwhole hrange
    have hlong : m < range.2 := hlong
    exact hpair.2 (by omega) c (List.mem_append_left _ hc)
  · intro s t hst c hc hbehind
    have hpair := List.isChain_pair.mp <| List.IsChain.infix hparted (hmap ▸ hst.map Segment.start)
    exact hpair.greedy c hc hbehind

/-- **Segments in mapped mode.** For every maximum, every ascending run of offered places and every file that reaches
to the last of them, the file is cut as `Segmented` says. -/
theorem on_complete_mapped {v : Volume} {path : Path} {bytes : Bytes} (hm : 1 ≤ m) (hasc : offers.Pairwise (· ≤ ·))
    (hread : v.disk.read path = .ok bytes) (hle : ∀ c ∈ offers, c ≤ bytes.length) :
    ∃ segments, ((offers.foldl SegmentBuilder.offer (empty .mapped m)).complete path).on v =
        (.ok ⟨path, bytes.length, .mapped, segments⟩, v) ∧ Segmented m offers bytes.length segments := by
  obtain ⟨id, hfind, rfl⟩ := Disk.find_of_read hread
  have hcuts := cuts_offers m hasc
  rw [Nat.max_eq_right hm] at hcuts
  have hrun := (offers.foldl SegmentBuilder.offer (empty .mapped m)).on_complete_of_find hfind
  rw [hcuts.mode] at hrun
  exact ⟨_, hrun, hcuts.segmented hasc hle id⟩

def recordsPath : Path := ⟨[114, 101, 99]⟩

/-- A disk with one file of 25 bytes. -/
def recordsVolume : Volume := ((Action.writeFile recordsPath (List.replicate 25 7)).on .new).2

theorem read_records : recordsVolume.disk.read recordsPath = .ok (List.replicate 25 7) := rfl

/-- Two records that are mapped together, one that is too long for it, and a last one. -/
theorem on_complete_mapped_records :
    ∃ segments, (([0, 3, 6, 20].foldl SegmentBuilder.offer (empty .mapped 7)).complete recordsPath).on recordsVolume =
      (.ok ⟨recordsPath, 25, .mapped, segments⟩, recordsVolume) ∧ Segmented 7 [0, 3, 6, 20] 25 segments :=
  on_complete_mapped (by decide) (by decide) read_records (by decide)

end SegmentBuilder

end SortedTable
