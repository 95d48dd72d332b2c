import CoreDB.Wal.Log

/-!
# Writing a log and reading it back

The writer numbers the records it appends with a 64-bit counter.  Whatever it appended
comes back with consecutive LSNs, the counter wrapping at 2⁶⁴, and the reader goes on
with what follows as if the file began there: `wal_round_trip`.
-/

namespace CoreDB

open ByteCodec

/-- What a caller of `Append` hands over. -/
structure WalInput where
  txnId : Nat
  type : WalRecordType
  rowId : Nat := 0
  row : Row := []
deriving DecidableEq, Repr

namespace WalInput

/-- The record that is appended with this LSN. -/
def record (input : WalInput) (lsn : Nat) : WalRecord :=
  { lsn, txnId := input.txnId, type := input.type, rowId := input.rowId, row := input.row }

/-- Its numbers are 64-bit, its type is one of the six, and its lengths fit: row, strings and
body. -/
def writable (input : WalInput) : Bool := (input.record 0).writable

end WalInput

/-- The writer and the file after a list of appends. -/
def WalWriter.appendAll (w : WalWriter) (file : Bytes) (inputs : List WalInput) : WalWriter × Bytes :=
  inputs.foldl (fun p input => p.1.append p.2 input.txnId input.type input.rowId input.row) (w, file)

/-- The appended records, numbered from `lsn` on by a 64-bit counter. -/
def numbered : Nat → List WalInput → List WalRecord
  | _, [] => []
  | lsn, input :: inputs => input.record (lsn % 2 ^ 64) :: numbered (lsn + 1) inputs

theorem length_encodeBody_record (input : WalInput) (a b : Nat) :
    (encodeBody (input.record a)).length = (encodeBody (input.record b)).length := by
  rw [length_encodeBody, length_encodeBody]
  rfl

theorem writable_record {input : WalInput} (h : input.writable = true) {lsn : Nat} (hlsn : lsn < 2 ^ 64) :
    (input.record lsn).writable = true := by
  unfold WalInput.writable WalRecord.writable WalRecord.fits at h
  unfold WalRecord.writable WalRecord.fits
  rw [length_encodeBody_record input lsn 0]
  simp only [Bool.and_eq_true, decide_eq_true_iff] at h ⊢
  exact ⟨⟨⟨⟨hlsn, h.1.1.1.2⟩, h.1.1.2⟩, h.1.2⟩, h.2⟩

/-- The counter's low 64 bits are what is written. -/
theorem frame_record_mod (input : WalInput) (lsn : Nat) :
    frame (input.record (lsn % 2 ^ 64)) = frame (input.record lsn) := by
  have hbody : encodeBody (input.record (lsn % 2 ^ 64)) = encodeBody (input.record lsn) := by
    unfold encodeBody
    rw [show leBytes 8 (input.record (lsn % 2 ^ 64)).lsn = leBytes 8 (input.record lsn).lsn from leBytes_mod 8 lsn]
    rfl
  unfold frame
  rw [hbody]

theorem appendAll_file (inputs : List WalInput) : ∀ (w : WalWriter) (file : Bytes),
    (w.appendAll file inputs).2 = file ++ logOf (numbered w.nextLsn inputs) := by
  induction inputs with
  | nil => intro w file; simp [WalWriter.appendAll, numbered, logOf]
  | cons input inputs ih =>
    intro w file
    have hstep : w.appendAll file (input :: inputs) = WalWriter.appendAll { w with nextLsn := w.nextLsn + 1 }
        (file ++ frame (input.record w.nextLsn)) inputs := rfl
    rw [hstep, ih, ← frame_record_mod]
    simp [numbered, logOf]

theorem writable_numbered {inputs : List WalInput} (h : ∀ i ∈ inputs, i.writable = true) : ∀ lsn,
    ∀ r ∈ numbered lsn inputs, r.writable = true := by
  induction inputs with
  | nil => intro lsn r hr; cases hr
  | cons input inputs ih =>
    intro lsn r hr
    rcases List.mem_cons.mp hr with rfl | hr
    · exact writable_record (h input List.mem_cons_self) (Nat.mod_lt _ (Nat.two_pow_pos 64))
    · exact ih (fun i hi => h i (List.mem_cons_of_mem _ hi)) _ r hr

/-- **Write, then read.**  What `WalWriter` appended, from any starting LSN, comes back in
order with consecutive LSNs, with the fields its type stores; the reader goes on with
`g` as if it stood alone.  An empty `g` sets no flag; part of a further frame is a
truncated tail and nothing else. -/
theorem wal_round_trip (startingLsn : Nat) (inputs : List WalInput) (h : ∀ i ∈ inputs, i.writable = true) (g : Bytes) :
    let frames := (WalWriter.appendAll { nextLsn := startingLsn } [] inputs).2
    let result := readAll (frames ++ g)
    let appended := (numbered startingLsn inputs).map WalRecord.stored
    result.records = appended ++ (readAll g).records ∧
      result.truncatedTail = (readAll g).truncatedTail ∧
      result.corruptRecord = (readAll g).corruptRecord ∧
      result.bytesRead = frames.length + (readAll g).bytesRead ∧
      (g = [] → result.truncatedTail = false ∧ result.corruptRecord = false) ∧
      (∀ (further : WalInput) (lsn n : Nat), further.writable = true → 0 < n → n < (frame (further.record lsn)).length →
        g = (frame (further.record lsn)).take n →
        result.records = appended ∧ result.truncatedTail = true ∧ result.corruptRecord = false) := by
  intro frames result appended
  have hframes : frames = logOf (numbered startingLsn inputs) := by
    show (WalWriter.appendAll { nextLsn := startingLsn } [] inputs).2 = _
    rw [appendAll_file, List.nil_append]
  have hread : result = (readOf (numbered startingLsn inputs)).append (readAll g) := by
    show readAll (frames ++ g) = _
    rw [hframes, readAll_log _ (writable_numbered h startingLsn)]
  refine ⟨by rw [hread]; rfl, by rw [hread]; exact Bool.false_or _, by rw [hread]; exact Bool.false_or _,
    by rw [hread, hframes]; rfl, ?_, ?_⟩
  · rintro rfl
    rw [hread, readAll_nil]
    exact ⟨rfl, rfl⟩
  · rintro further lsn n hw hpos hlt rfl
    rw [← frame_record_mod] at hlt
    have hcut := readFrame_take (writable_record hw (Nat.mod_lt lsn (Nat.two_pow_pos 64))) hpos hlt
    rw [frame_record_mod] at hcut
    rw [hread, readAll_of_truncated hcut]
    exact ⟨List.append_nil _, rfl, rfl⟩

/-- An insert and a commit, and one byte of a further frame. -/
theorem wal_round_trip_insertCommit :
    (readAll ((WalWriter.appendAll { nextLsn := 7 } []
        [⟨1, .insert, 5, [.int64 3, .null, .string [104, 105]]⟩, ⟨1, .commit, 0, []⟩]).2 ++
      (frame ((⟨2, .begin, 0, []⟩ : WalInput).record 9)).take 1)).records =
      (numbered 7 [⟨1, .insert, 5, [.int64 3, .null, .string [104, 105]]⟩, ⟨1, .commit, 0, []⟩]).map WalRecord.stored :=
  ((wal_round_trip 7 [⟨1, .insert, 5, [.int64 3, .null, .string [104, 105]]⟩, ⟨1, .commit, 0, []⟩]
    (by decide +kernel) _).2.2.2.2.2 ⟨2, .begin, 0, []⟩ 9 1 (by decide +kernel) (by decide) (by decide +kernel) rfl).1

end CoreDB
