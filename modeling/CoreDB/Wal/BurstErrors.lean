import CoreDB.Lib.Damage
import CoreDB.Wal.RoundTrip

/-!
# Short bursts in the log

Overwriting up to four consecutive bytes of a record's body changes its checksum, so the
reader stops in front of that frame: `wal_burst_detected`.  The frames up to there must
fit the 32-bit length field the writer casts their size to; behind a frame that does
not, the reader finds nothing (`oversized_frame_hides_next`).
-/

namespace CoreDB

open ByteCodec

/-- The two header words of a record's frame: length and checksum. -/
def frameHeader (r : WalRecord) : Bytes :=
  leBytes 4 (4 + (encodeBody r).length) ++ crcBytes (crc32c (encodeBody r))

theorem frame_eq (r : WalRecord) : frame r = frameHeader r ++ encodeBody r := by
  simp [frame, frameHeader]

theorem length_frameHeader (r : WalRecord) : (frameHeader r).length = 8 := by
  simp [frameHeader, crcBytes]

/-- Another body of the same length and another checksum under the old header is corrupt. -/
theorem readFrame_of_other_crc {r : WalRecord} (hlen : 4 + (encodeBody r).length < 2 ^ 32) {body : Bytes}
    (hbody : body.length = (encodeBody r).length) (hcrc : crc32c body ≠ crc32c (encodeBody r)) (rest : Bytes) :
    readFrame (frameHeader r ++ body ++ rest) = .corrupt := by
  have hdiff : (crc32c body).toNat ≠ (crc32c (encodeBody r)).toNat :=
    fun h => hcrc (BitVec.eq_of_toNat_eq h)
  rw [← hbody] at hlen
  rw [frameHeader, ← hbody, crcBytes, List.append_assoc (leBytes 4 _),
    readFrame_whole _ body rest hlen (crc32c (encodeBody r)).isLt, if_pos hdiff]

/-- Where the body of the frame behind those of `before` starts. -/
def bodyStart (startingLsn : Nat) (before : List WalInput) : Nat :=
  (WalWriter.appendAll { nextLsn := startingLsn } [] before).2.length + 8

theorem numbered_append (lsn : Nat) (a b : List WalInput) :
    numbered lsn (a ++ b) = numbered lsn a ++ numbered (lsn + a.length) b := by
  induction a generalizing lsn with
  | nil => rfl
  | cons input a ih =>
    rw [List.cons_append, numbered, ih, numbered, List.length_cons, List.cons_append]
    congr 3
    omega

/-- The record of `input` behind those of `before`. -/
def recordAt (startingLsn : Nat) (before : List WalInput) (input : WalInput) : WalRecord :=
  input.record ((startingLsn + before.length) % 2 ^ 64)

/-- The file, split at the body of one frame. -/
theorem appendAll_at (startingLsn : Nat) (before after : List WalInput) (input : WalInput) :
    (WalWriter.appendAll { nextLsn := startingLsn } [] (before ++ input :: after)).2 =
      logOf (numbered startingLsn before) ++ frameHeader (recordAt startingLsn before input) ++
        encodeBody (recordAt startingLsn before input) ++
        logOf (numbered (startingLsn + before.length + 1) after) := by
  rw [appendAll_file, numbered_append, numbered]
  simp [logOf, frame_eq, recordAt]

theorem bodyStart_eq (startingLsn : Nat) (before : List WalInput) (r : WalRecord) :
    bodyStart startingLsn before = (logOf (numbered startingLsn before) ++ frameHeader r).length := by
  rw [bodyStart, appendAll_file, List.nil_append, List.length_append, length_frameHeader]

/-- What a reader must return when the body behind the frames of `before` was overwritten at `k`
with `y`: the records before it, and the corruption flag. -/
def BurstDetected (startingLsn : Nat) (before : List WalInput) (input : WalInput) (after : List WalInput) (k : Nat)
    (y : Bytes) : Prop :=
  let file := (WalWriter.appendAll { nextLsn := startingLsn } [] (before ++ input :: after)).2
  let result := readAll (patch file (bodyStart startingLsn before + k) y)
  result.records = (numbered startingLsn before).map WalRecord.stored ∧
    result.corruptRecord = true ∧ result.truncatedTail = false

/-- **Short bursts are detected.**  Up to four consecutive bytes of the body of a frame are
overwritten and the file is no longer the same; this frame and those before it fit their length
fields.  Then the reader returns the records before it and reports corruption.  Behind it is a
property of the checksum at every length and position. -/
theorem wal_burst_detected (startingLsn : Nat) (before after : List WalInput) (input : WalInput)
    (hfit : ∀ i ∈ before ++ [input], i.writable = true) (k : Nat) (y : Bytes) (hy : y.length ≤ 4)
    (hin : k + y.length ≤ (encodeBody (recordAt startingLsn before input)).length)
    (hne : patch (WalWriter.appendAll { nextLsn := startingLsn } [] (before ++ input :: after)).2
        (bodyStart startingLsn before + k) y ≠
      (WalWriter.appendAll { nextLsn := startingLsn } [] (before ++ input :: after)).2) :
    BurstDetected startingLsn before input after k y ∧
      ∀ pre x z post : Bytes, x.length = z.length → x.length ≤ 4 → x ≠ z →
        crc32c (pre ++ x ++ post) ≠ crc32c (pre ++ z ++ post) := by
  refine ⟨?_, fun pre x z post hlen hx hxz => crc32cExtend_burst 0#32 pre x z post hlen hx hxz⟩
  have hwrite : (recordAt startingLsn before input).writable = true :=
    writable_record (hfit input (by simp)) (Nat.mod_lt _ (Nat.two_pow_pos 64))
  have hbefore := writable_numbered (fun i hi => hfit i (List.mem_append_left _ hi)) startingLsn
  rw [appendAll_at, bodyStart_eq startingLsn before (recordAt startingLsn before input),
    patch_append _ _ _ _ _ hin] at hne
  unfold BurstDetected
  dsimp only
  rw [appendAll_at, bodyStart_eq startingLsn before (recordAt startingLsn before input),
    patch_append _ _ _ _ _ hin]
  generalize recordAt startingLsn before input = r at hwrite hin hne
  obtain ⟨pre, x, post, hbody, hpatch, hlen⟩ := patch_split (encodeBody r) y k hin
  have hxy : y ≠ x := by
    rintro rfl
    exact hne (by rw [hpatch, ← hbody])
  have hcrc : crc32c (patch (encodeBody r) k y) ≠ crc32c (encodeBody r) := by
    rw [hpatch, hbody]
    exact crc32cExtend_burst 0#32 pre y x post hlen.symm hy hxy
  have hsize : 4 + (encodeBody r).length < 2 ^ 32 := by
    unfold WalRecord.writable at hwrite
    simp only [Bool.and_eq_true, decide_eq_true_iff] at hwrite
    exact hwrite.2
  have hcorrupt := fun rest => readFrame_of_other_crc hsize (length_patch _ _ _ hin) hcrc rest
  rw [List.append_assoc, List.append_assoc, readAll_log _ hbefore, ← List.append_assoc,
    readAll_of_corrupt (hcorrupt _)]
  exact ⟨List.append_nil _, rfl, rfl⟩

/-- The second of three records loses two bytes of its transaction id. -/
theorem wal_burst_detected_second :
    BurstDetected 1 [⟨1, .begin, 0, []⟩] ⟨1, .insert, 1, [.int64 7]⟩ [⟨1, .commit, 0, []⟩] 8 [255, 255] :=
  (wal_burst_detected 1 [⟨1, .begin, 0, []⟩] [⟨1, .commit, 0, []⟩] ⟨1, .insert, 1, [.int64 7]⟩
    (by decide +kernel) 8 [255, 255] (by decide) (by decide +kernel) (by decide +kernel)).1

/-! ## Frames too long for the length field -/

/-- Of a frame of 2³² bytes behind its length the reader sees the length 0. -/
theorem readFrame_of_wrapped {r : WalRecord} (hlen : 4 + (encodeBody r).length = 2 ^ 32) (rest : Bytes) :
    readFrame (frame r ++ rest) = .corrupt := by
  have hsplit : frame r ++ rest =
      leBytes 4 0 ++ (crcBytes (crc32c (encodeBody r)) ++ (encodeBody r ++ rest)) := by
    rw [frame, hlen]
    simp only [List.append_assoc]
    rfl
  have hne : leBytes 4 0 ++ (crcBytes (crc32c (encodeBody r)) ++ (encodeBody r ++ rest)) ≠ [] := by
    intro hnil
    have hz := congrArg List.length hnil
    simp at hz
  unfold readFrame
  rw [hsplit, if_neg hne, takeLE_leBytes 4 0 _ (by decide)]
  rfl

/-- An insert of one string. -/
def insertString (text : Bytes) : WalInput := ⟨1, .insert, 1, [.string text]⟩

theorem length_encodeBody_insertString (text : Bytes) (lsn : Nat) :
    (encodeBody ((insertString text).record lsn)).length = 34 + text.length := by
  rw [length_encodeBody]
  simp [insertString, WalInput.record, WalRecord.payload, appendValue]
  omega

/-- Behind a frame whose length wraps nothing is read, so a burst further on does not leave the
records before it. -/
theorem not_burstDetected_of_wrapped (text : Bytes) (htext : text.length = 2 ^ 32 - 38) (after : List WalInput)
    (input : WalInput) (k : Nat) (y : Bytes)
    (hin : k + y.length ≤ (encodeBody (recordAt 1 [insertString text] input)).length) :
    ¬ BurstDetected 1 [insertString text] input after k y := by
  intro h
  have hlen := length_encodeBody_insertString text 1
  have hlog : logOf (numbered 1 [insertString text]) = frame ((insertString text).record 1) := by
    simp [numbered, logOf]
  unfold BurstDetected at h
  dsimp only at h
  rw [appendAll_at, bodyStart_eq 1 _ (recordAt 1 [insertString text] input), patch_append _ _ _ _ _ hin, hlog,
    List.append_assoc, List.append_assoc, readAll_of_corrupt (readFrame_of_wrapped (by omega) _)] at h
  have hrecords := congrArg List.length h.1
  simp [numbered] at hrecords

/-- The low byte of the LSN of the second record is overwritten. -/
theorem patch_second_ne (text : Bytes) :
    patch (WalWriter.appendAll { nextLsn := 1 } [] ([insertString text] ++ [⟨2, .begin, 0, []⟩])).2
        (bodyStart 1 [insertString text] + 0) [0] ≠
      (WalWriter.appendAll { nextLsn := 1 } [] ([insertString text] ++ [⟨2, .begin, 0, []⟩])).2 := by
  have hrec : recordAt 1 [insertString text] ⟨2, .begin, 0, []⟩ = (⟨2, .begin, 0, []⟩ : WalInput).record 2 := rfl
  intro hsame
  rw [appendAll_at, bodyStart_eq 1 _ (recordAt 1 [insertString text] ⟨2, .begin, 0, []⟩), hrec,
    patch_append _ _ _ _ _ (by decide +kernel), List.append_cancel_right_eq, List.append_cancel_left_eq] at hsame
  exact absurd hsame (by decide +kernel)

/-- A record of 4 GiB in front of the damaged one. -/
theorem oversized_frame_hides_next : ∃ text : Bytes, text = List.replicate (2 ^ 32 - 38) 0 ∧
    patch (WalWriter.appendAll { nextLsn := 1 } [] ([insertString text] ++ [⟨2, .begin, 0, []⟩])).2
        (bodyStart 1 [insertString text] + 0) [0] ≠
      (WalWriter.appendAll { nextLsn := 1 } [] ([insertString text] ++ [⟨2, .begin, 0, []⟩])).2 ∧
    0 + [(0 : UInt8)].length ≤ (encodeBody (recordAt 1 [insertString text] ⟨2, .begin, 0, []⟩)).length ∧
    ¬ BurstDetected 1 [insertString text] ⟨2, .begin, 0, []⟩ [] 0 [0] := by
  refine ⟨_, rfl, ?_⟩
  generalize htext : List.replicate (2 ^ 32 - 38) (0 : UInt8) = text
  have hlen : text.length = 2 ^ 32 - 38 := by rw [← htext, List.length_replicate]
  have hin : 0 + [(0 : UInt8)].length ≤ (encodeBody (recordAt 1 [insertString text] ⟨2, .begin, 0, []⟩)).length := by
    rw [length_encodeBody, List.length_singleton]
    omega
  exact ⟨patch_second_ne text, hin, not_burstDetected_of_wrapped text hlen [] _ 0 [0] hin⟩

end CoreDB
