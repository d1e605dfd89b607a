import SortedTable.Proofs.Recovering

/-!
# Rows that were cut short

A row that is encoded on the way has a placeholder for its length until it is complete. A writer that is
interrupted inside of the row leaves a table that can be recovered if the placeholder was not written in full,
and one that cannot be recovered if it was. Main statement: `recover_of_torn_row`.
-/

namespace SortedTable.Recovery

open AppendedRow Writer

/-- What is written of a row before its length is known. -/
def unpatched (key body : Bytes) : Bytes :=
  Record.short key ++ BigEndian.encodeInt Record.rowSizeBytes Record.rowSizePlaceholder ++ body

def frontSize (key : Bytes) : Nat := Record.rowSize .long key 0

theorem takeRowFront?_torn {key body torn : Bytes} (hkey : key.length ≤ Record.maxShort)
    (htorn : torn <+: unpatched key body) (hcut : torn.length < frontSize key) :
    Record.takeRowFront? .long torn = none := by
  rw [unpatched, List.append_assoc] at htorn
  exact Record.takeRowFront?_eq_none_of_isPrefix hkey htorn hcut

theorem takeRowFront?_unpatched {key body torn : Bytes} (hkey : key.length ≤ Record.maxShort)
    (htorn : torn <+: unpatched key body) (hfull : frontSize key ≤ torn.length) :
    ∃ rest, Record.takeRowFront? .long torn = some (key, Record.rowSizePlaceholder, rest) := by
  have hfront : (Record.short key ++
      BigEndian.encodeInt Record.rowSizeBytes Record.rowSizePlaceholder).length = frontSize key := by
    rw [List.length_append, Record.length_short, BigEndian.length_encodeInt]
    rfl
  obtain ⟨rest, rfl⟩ := List.prefix_of_prefix_length_le (List.prefix_append _ body) htorn
    (by rw [hfront]; exact hfull)
  exact ⟨rest, Record.takeRowFront?_front .long hkey ⟨by decide, by decide⟩ rest⟩

/-- A writer that has written some bytes of a row when it is dropped. -/
def interrupt (w : Writer) (torn : Bytes) : Work Unit := do
  let data ← w.data.write torn
  ({ w with data } : Writer).drop

variable {t : Terms} {rows : List AppendedRow} {w w₀ : Writer} {v v₀ v₁ v₂ v₃ : Volume}
  {calls : List Call}

theorem on_interrupt (hd : t.descriptor.Valid) (h : w.Wrote t rows v.disk) (torn : Bytes) :
    ∃ v', Work.on (interrupt w torn) v = ((), v') ∧
      v'.disk.tree (t.descriptor.place .data) = some (.file (dataBytes rows ++ torn)) ∧
      v'.disk.tree (t.descriptor.place .primaryIndex) = some (.file (indexBytes rows)) ∧
      v.disk.SameBut t.places v'.disk := by
  have hne := data_ne_index hd
  obtain ⟨data, v₁, hwrite, hholds, hend, hsame⟩ := Output.on_write_end h.data h.dataEnd torn
  obtain ⟨v', hdrop, hdata, hindex, hsame'⟩ := (h.stacked.of_data hne hholds hend hsame).on_drop hne
  refine ⟨v', ?_, hdata, hindex, (hsame.of_mem (by simp [Terms.places])).trans hsame'⟩
  rw [interrupt, Work.on_bind_of hwrite, hdrop]

theorem on_append_refused (hd : t.descriptor.Valid) (h : w.Wrote t rows v.disk) {key : DecoratedKey}
    (hkey : w.rejection? key = none) {row : Encoding} {e : EncodeError} (houtcome : row.outcome = .error e) :
    ∃ w' v' v'', Work.on (w.append key row) v = ((.error (.io (.encode e)), w'), v') ∧
      Work.on w'.drop v' = ((), v'') ∧
      v''.disk.tree (t.descriptor.place .data) =
        some (.file (dataBytes rows ++ unpatched key.key row.written)) ∧
      v''.disk.tree (t.descriptor.place .primaryIndex) = some (.file (indexBytes rows)) ∧
      v.disk.SameBut t.places v''.disk := by
  have hne := data_ne_index hd
  obtain ⟨data, v₁, happend, hholds, hend, hsame⟩ := Writer.on_append_refused h.data h.dataEnd hkey houtcome
  obtain ⟨v', hdrop, hdata, hindex, hsame'⟩ := (h.stacked.of_data hne hholds hend hsame).on_drop hne
  exact ⟨_, v₁, v', happend, hdrop, hdata, hindex, (hsame.of_mem (by simp [Terms.places])).trans hsame'⟩

variable {torn : Bytes} {config : Config}

/-- A fresh table with some bytes behind its whole rows, and neither filter nor statistics. -/
structure Torn (t : Terms) (rows : List AppendedRow) (torn : Bytes) (disk : Disk) : Prop where
  workable : Workable t rows disk
  files : disk.Shows t.descriptor (partly (dataBytes rows ++ torn) (some (indexBytes rows)) none none)

theorem torn_of_sameBut (hcurrent : t.descriptor.isCurrent = true)
    (htemporary : t.descriptor.temporary = true) (hfresh : t.descriptor.Fresh v₀.disk)
    (hcreate : t.create.on v₀ = (.ok w₀, v₁)) (hcalls : Appends w₀ v₁ calls w v₂)
    (htotal : AppendedRow.total (calls.map Call.row) < Disk.maxOffset)
    (hsame : v₂.disk.SameBut t.places v₃.disk)
    (hdata : v₃.disk.tree (t.descriptor.place .data) =
      some (.file (dataBytes (calls.map Call.row) ++ torn)))
    (hindex : v₃.disk.tree (t.descriptor.place .primaryIndex) =
      some (.file (indexBytes (calls.map Call.row)))) :
    Torn t (calls.map Call.row) torn v₃.disk := by
  obtain ⟨hd, -, -, -, -, helsewhere⟩ := wrote_of_appends hcurrent hcreate hcalls
  have hhosts := hosts_of_fresh hcurrent hfresh hcreate
  have hapart : ∀ c, t.descriptor.published.place c ∉ t.places := by
    intro c
    have hne := Descriptor.published_place_ne hd htemporary c
    simp [Terms.places, hne]
  have hnone : ∀ c, t.descriptor.place c ∉ t.places → v₃.disk.tree (t.descriptor.place c) = none := by
    intro c hc
    rw [hsame.tree _ hc, helsewhere _ hc, hfresh.tree_eq_none hhosts]
  have hne : ∀ {c c' : Component}, c ≠ c' → t.descriptor.place c ≠ t.descriptor.place c' :=
    Descriptor.place_ne_place hd
  refine ⟨(Workable.of_appends hcurrent htemporary hfresh hcreate hcalls htotal).mono hsame.keeps
    fun c => hsame.tree _ (hapart c), fun c => ?_⟩
  cases c with
  | data => exact hdata
  | primaryIndex => exact hindex
  | filter => exact hnone .filter (by simp [Terms.places, hne])
  | statistics => exact hnone .statistics (by simp [Terms.places, hne])

theorem Torn.recovers (h : Torn t rows torn v.disk) (hcut : Record.takeRowFront? .long torn = none)
    (hconfig : config.validate = .ok ()) (metadata : TableMetadata) (partitioner : Partitioner) (opening : Config)
    (age : Nat) :
    ∃ r v', (recoverAndOpen t.descriptor (rebuild partitioner config) metadata partitioner opening age).on v =
        (.ok r, v') ∧
      v'.disk.read (t.descriptor.published.pathOf .primaryIndex) = .ok (indexBytes rows) ∧
      r.estimatedKeys = rows.length ∧ ∀ row ∈ rows, r.mayContain row.key = true := by
  have hwork := h.workable
  obtain ⟨estimated, r, v', hrun, hcompleted, -⟩ := on_recoverAndOpen_rebuilt hwork.valid hwork.temporary
    hwork.hosts h.files hwork.free rfl (intactFiles_eq_false (Or.inr (Or.inl rfl))) hwork.keys hwork.total
    (.of_cut hcut) hconfig metadata partitioner opening age
  refine ⟨r, v', hrun, ?_, hcompleted.reader.keyCount, fun row hrow => ?_⟩
  · exact hcompleted.permanent.reads (hcompleted.hosts.published hwork.valid) .primaryIndex
  · rw [Reader.mayContain, hcompleted.kept]
    exact mayContain_rebuiltFilter hrow

theorem Torn.fails (h : Torn t rows torn v.disk) {key rest : Bytes}
    (hfront : Record.takeRowFront? .long torn = some (key, Record.rowSizePlaceholder, rest))
    (hconfig : config.validate = .ok ()) (metadata : TableMetadata) (partitioner : Partitioner) (opening : Config)
    (age : Nat) :
    ∃ v', (recoverAndOpen t.descriptor (rebuild partitioner config) metadata partitioner opening age).on v =
      (.error (.io (.decode (.rowSize Record.rowSizePlaceholder))), v') := by
  have hwork := h.workable
  exact on_recoverAndOpen_negative hwork.valid hwork.hosts h.files rfl
    (intactFiles_eq_false (Or.inr (Or.inl rfl))) (fits_of_total_lt hwork.keys hwork.total) hfront
    (by decide) hconfig metadata partitioner opening age

/-- A row that was cut short is left out by a recovery if its front was not written in full. If the whole
placeholder was written, the recovery fails, however much of the body follows. -/
theorem recover_of_torn_row (hcurrent : t.descriptor.isCurrent = true)
    (htemporary : t.descriptor.temporary = true) (hfresh : t.descriptor.Fresh v₀.disk)
    (hcreate : t.create.on v₀ = (.ok w₀, v₁)) (hcalls : Appends w₀ v₁ calls w v₂)
    (htotal : AppendedRow.total (calls.map Call.row) < Disk.maxOffset) {key : DecoratedKey}
    (hkey : w.rejection? key = none) {body : Bytes} (htorn : torn <+: unpatched key.key body)
    (hinterrupt : Work.on (interrupt w torn) v₂ = ((), v₃)) :
    v₃.disk.read (t.descriptor.pathOf .data) = .ok (dataBytes (calls.map Call.row) ++ torn) ∧
      ∀ config, config.validate = .ok () → ∀ metadata partitioner opening age,
        (torn.length < frontSize key.key →
          ∃ r v', (recoverAndOpen t.descriptor (rebuild partitioner config) metadata partitioner opening age).on v₃ =
              (.ok r, v') ∧
            v'.disk.read (t.descriptor.published.pathOf .primaryIndex) =
              .ok (indexBytes (calls.map Call.row)) ∧
            r.estimatedKeys = calls.length ∧ ∀ c ∈ calls, r.mayContain c.row.key = true) ∧
        (frontSize key.key ≤ torn.length →
          ∃ v', (recoverAndOpen t.descriptor (rebuild partitioner config) metadata partitioner opening age).on v₃ =
            (.error (.io (.decode (.rowSize Record.rowSizePlaceholder))), v')) := by
  obtain ⟨hd, hwrote, hreach, -⟩ := wrote_of_appends hcurrent hcreate hcalls
  obtain ⟨v', hrun, hdata, hindex, hsame⟩ := on_interrupt hd hwrote torn
  rw [hinterrupt] at hrun
  cases hrun
  have htable := torn_of_sameBut hcurrent htemporary hfresh hcreate hcalls htotal hsame hdata hindex
  have hlong := (rejection?_eq_none_iff.mp hkey).2.1
  refine ⟨?_, fun config hconfig metadata partitioner opening age => ⟨fun hcut => ?_, fun hfull => ?_⟩⟩
  · rw [Disk.read_of_reaches (hreach.mono hsame.keeps), hdata]
  · obtain ⟨r, v', hrecover, hread, hkeys, hadmits⟩ :=
      htable.recovers (takeRowFront?_torn hlong htorn hcut) hconfig metadata partitioner opening age
    rw [List.length_map] at hkeys
    exact ⟨r, v', hrecover, hread, hkeys, fun c hc => hadmits c.row (List.mem_map_of_mem hc)⟩
  · obtain ⟨rest, hfront⟩ := takeRowFront?_unpatched hlong htorn hfull
    exact htable.fails hfront hconfig metadata partitioner opening age

theorem appends_user {v₁ : Volume} (h : Terms.users.create.on .new = (.ok (Terms.users.start 0 1), v₁)) :
    ∃ w v₂, Appends (Terms.users.start 0 1) v₁ [Call.user] w v₂ ∧
      w.rejection? (.byteOrdered [98]) = none := by
  obtain ⟨hd, hwrote, -⟩ := Terms.wrote_create h rfl
  obtain ⟨w, v₂, hcall, hwrote', -⟩ := hwrote.on_call hd (c := Call.user) (by decide)
    (List.cons_ne_nil _ _)
  refine ⟨w, v₂, .cons hcall (.nil w v₂), rejection?_eq_none_iff.mpr ⟨by decide, by decide, ?_⟩⟩
  intro last hlast
  rw [hwrote'.lastKey] at hlast
  cases hlast
  decide

theorem recover_of_torn_row_users :
    ∃ v₁ w v₂ v₃ v', Terms.users.create.on .new = (.ok (Terms.users.start 0 1), v₁) ∧
      Appends (Terms.users.start 0 1) v₁ [Call.user] w v₂ ∧
      Work.on (interrupt w (unpatched [98] [121])) v₂ = ((), v₃) ∧
      (recoverAndOpen Terms.users.descriptor (rebuild .byteOrdered .default) (.new "ks" "users")
        .byteOrdered .default 0).on v₃ =
          (.error (.io (.decode (.rowSize Record.rowSizePlaceholder))), v') := by
  obtain ⟨w, v₂, hcalls, hkey⟩ := appends_user Terms.create_users
  obtain ⟨hd, hwrote, -⟩ := wrote_of_appends rfl Terms.create_users hcalls
  obtain ⟨v₃, hinterrupt, -⟩ := on_interrupt hd hwrote (unpatched [98] [121])
  obtain ⟨-, hrecover⟩ := recover_of_torn_row rfl rfl Terms.fresh_users Terms.create_users hcalls (by decide) hkey
    (List.prefix_refl _) hinterrupt
  obtain ⟨-, hfull⟩ := hrecover .default rfl (.new "ks" "users") .byteOrdered .default 0
  obtain ⟨v', hfails⟩ := hfull (by decide)
  exact ⟨_, w, v₂, v₃, v', Terms.create_users, hcalls, hinterrupt, hfails⟩

/-- An encoder that gives up in the second row of a table leaves what cannot be recovered. -/
theorem refused_row_is_fatal :
    ∃ v₁ w v₂ w' v₃ v₄ v₅, Terms.users.create.on .new = (.ok (Terms.users.start 0 1), v₁) ∧
      Appends (Terms.users.start 0 1) v₁ [Call.user] w v₂ ∧
      Work.on (w.append (.byteOrdered [98]) ⟨[[121]], .error (.refused "stopped")⟩) v₂ =
        ((.error (.io (.encode (.refused "stopped"))), w'), v₃) ∧
      Work.on w'.drop v₃ = ((), v₄) ∧
      (recoverAndOpen Terms.users.descriptor (rebuild .byteOrdered .default) (.new "ks" "users")
        .byteOrdered .default 0).on v₄ = (.error (.io (.decode (.rowSize (-1)))), v₅) := by
  obtain ⟨w, v₂, hcalls, hkey⟩ := appends_user Terms.create_users
  obtain ⟨hd, hwrote, -⟩ := wrote_of_appends rfl Terms.create_users hcalls
  let row : Encoding := ⟨[[121]], .error (.refused "stopped")⟩
  have houtcome : row.outcome = .error (.refused "stopped") := rfl
  obtain ⟨w', v₃, v₄, happend, hdrop, hdata, hindex, hsame⟩ :=
    on_append_refused hd hwrote hkey houtcome
  have htable := torn_of_sameBut rfl rfl Terms.fresh_users Terms.create_users hcalls (by decide) hsame
    hdata hindex
  have hlong := (rejection?_eq_none_iff.mp hkey).2.1
  obtain ⟨rest, hfront⟩ := takeRowFront?_unpatched hlong (List.prefix_refl (unpatched [98] [121]))
    (by decide)
  have hvalid : Config.default.validate = .ok () := rfl
  obtain ⟨v₅, hfails⟩ := htable.fails hfront hvalid (.new "ks" "users") .byteOrdered .default 0
  exact ⟨_, w, v₂, w', v₃, v₄, v₅, Terms.create_users, hcalls, happend, hdrop, hfails⟩

end SortedTable.Recovery
