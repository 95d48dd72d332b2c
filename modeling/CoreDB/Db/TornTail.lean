import CoreDB.Db.History

/-!
# Writing behind a torn frame

A crash inside an append leaves a torn frame at the end of the log.  Recovery stops
in front of it, but the next session appends behind it: the writer opens the file in
append mode and nothing cuts the torn bytes off.  The next reader takes the torn
length for granted and reads the new frames as the missing bytes.  So what the
session commits is lost, unless its first frame happens to complete the torn one.
-/

namespace CoreDB

open ByteCodec

/-- A log of whole frames and one that was cut inside. -/
structure TornLog (rs : List WalRecord) (r : WalRecord) (n : Nat) : Prop where
  writable : ∀ q ∈ rs, q.writable = true
  increasing : rs.Pairwise fun a b => a.lsn < b.lsn
  last : r.writable = true
  pos : 0 < n
  torn : n < (frame r).length

/-- A crash inside the last append of a session leaves such a log. -/
theorem History.Inv.tornLog {h : History} (hi : h.Inv) {rs : List WalRecord} {r : WalRecord}
    (hlog : h.records = rs ++ [r]) {n : Nat} (hpos : 0 < n) (hn : n < (frame r).length) :
    TornLog rs r n ∧ h.disk.walBytes.take ((logOf rs).length + n) = logOf rs ++ (frame r).take n := by
  have hwritable := hi.writable
  have hinc := hi.increasing
  rw [hlog] at hwritable hinc
  refine ⟨⟨fun q hq => hwritable q (List.mem_append_left _ hq), (List.pairwise_append.mp hinc).1,
    hwritable r (by simp), hpos, hn⟩, ?_⟩
  have hbytes : h.disk.walBytes = logOf rs ++ frame r := by rw [hi.wal, hlog]; simp [logOf]
  rw [hbytes, List.take_length_add_append]

/-- The torn bytes and the frame of `b` read as one frame. -/
def CompletedBy (tail : Bytes) (b : WalRecord) : Prop := ∃ q len, readFrame (tail ++ frame b) = .record q len []

/-! ## Where a marked record can be read -/

section
variable {I : WalRecord} {v : UInt8} {marks : Bytes} (hty : I.type = .insert) (hrow : I.row = [.string marks])
  (hlen : marks.length = 200) (hmarks : ∀ i, i < 200 → marks[i]? = some v)
include hty hrow hlen

/-- The body of a record with one string of 200 marks. -/
theorem encodeBody_marks : ∃ pre, encodeBody I = pre ++ marks ∧ pre.length = 34 ∧ pre[33]? = some 0 := by
  refine ⟨leBytes 8 I.lsn ++ (leBytes 8 I.txnId ++ (leBytes 1 2 ++ (leBytes 8 I.rowId ++
    (leBytes 4 1 ++ (4 :: leBytes 4 200))))), ?_, by simp, ?_⟩
  · simp [encodeBody, WalRecord.payload, hty, hrow, hlen, appendValue, WalRecordType.code]
  · simp [leBytes]

include hmarks in
theorem marks_at {bs g : Bytes} {k : Nat} (h : bs.drop k = encodeBody I ++ g) {i : Nat} (hi : i < 200) :
    bs[k + 34 + i]? = some v := by
  obtain ⟨pre, henc, hpre, -⟩ := encodeBody_marks hty hrow hlen
  have hget : (bs.drop k)[34 + i]? = some v := by
    rw [h, henc, List.append_assoc, List.getElem?_append_right (by omega), hpre, Nat.add_sub_cancel_left,
      List.getElem?_append_left (by omega), hmarks i hi]
  rw [List.getElem?_drop, ← Nat.add_assoc] at hget
  exact hget

theorem length_frame_marks : (frame I).length = 242 := by
  have hbody := length_encodeBody I
  obtain ⟨pre, henc, hpre, -⟩ := encodeBody_marks hty hrow hlen
  rw [length_frame]
  rw [henc, List.length_append, hpre, hlen] at hbody
  omega

variable {b c : WalRecord} (hb : (frame b).length = 25) (hc : ∃ cs, frame c = 21 :: cs ∧ cs.length = 24)
include hb hc

/-- Around the marks: a zero in front, a frame length behind. -/
theorem around_marks : (frame b ++ (frame I ++ frame c))[66]? = some 0 ∧
    (frame b ++ (frame I ++ frame c))[267]? = some 21 ∧ (frame b ++ (frame I ++ frame c)).length = 292 := by
  obtain ⟨pre, henc, hpre, hzero⟩ := encodeBody_marks hty hrow hlen
  obtain ⟨cs, hcs, hclen⟩ := hc
  have hI := length_frame_marks hty hrow hlen
  refine ⟨?_, ?_, by simp [hb, hI, hcs, hclen]⟩
  · have hframe : frame I = (leBytes 4 (4 + (encodeBody I).length) ++ crcBytes (crc32c (encodeBody I))) ++
        (pre ++ marks) := by
      unfold frame
      rw [← henc, List.append_assoc]
    rw [List.getElem?_append_right (by omega), hb, List.getElem?_append_left (by omega), hframe,
      List.getElem?_append_right (by simp [crcBytes]), List.getElem?_append_left (by simp [crcBytes, hpre])]
    simpa [crcBytes] using hzero
  · rw [List.getElem?_append_right (by omega), hb, List.getElem?_append_right (by omega), hI, hcs]
    rfl

omit hty hrow hlen hb hc in
/-- The marks start at 67 and nowhere else. -/
theorem marks_start {F : Bytes} (hzero : F[66]? = some 0) (hnext : F[267]? = some 21) (hsize : F.length = 292)
    (hv0 : v ≠ 0) (hv21 : v ≠ 21) {k : Nat} (hmark : ∀ i, i < 200 → F[k + 42 + i]? = some v) : k = 25 := by
  apply Classical.byContradiction
  intro hne
  by_cases hlow : k < 25
  · have h0 := hmark (24 - k) (by omega)
    rw [show k + 42 + (24 - k) = 66 by omega, hzero] at h0
    exact hv0 (Option.some.inj h0).symm
  · by_cases hhigh : k ≤ 225
    · have h0 := hmark (225 - k) (by omega)
      rw [show k + 42 + (225 - k) = 267 by omega, hnext] at h0
      exact hv21 (Option.some.inj h0).symm
    · have h0 := hmark 199 (by omega)
      rw [List.getElem?_eq_none (by omega)] at h0
      cases h0

include hmarks in
/-- **A marked record is read behind a torn frame** only if the frame before it
completes the torn one. -/
theorem completed_of_mem {tail : Bytes} (ht : readFrame tail = .truncated) (hv0 : v ≠ 0) (hv21 : v ≠ 21)
    (hvt : tail[42]? ≠ some v) (hmem : I ∈ (readAll (tail ++ (frame b ++ (frame I ++ frame c)))).records) :
    CompletedBy tail b := by
  obtain ⟨hzero, hnext, hsize⟩ := around_marks hty hrow hlen hb hc
  generalize hF : frame b ++ (frame I ++ frame c) = F at hzero hnext hsize hmem
  have hFb : F.take 25 = frame b := by rw [← hF]; exact List.take_left' hb
  cases hf : readFrame (tail ++ F) with
  | record q len rest =>
    have hlt := lt_of_truncated ht hf
    rw [readAll_record hf] at hmem
    obtain ⟨used, heq, hused, hmin, ⟨g, hg⟩, hlocal⟩ := readFrame_record hf
    have hrest : rest = F.drop (len - tail.length) := by
      have hdrop := congrArg (List.drop len) heq
      rw [List.drop_left' hused, List.drop_append] at hdrop
      rw [List.drop_eq_nil_of_le (by omega), List.nil_append] at hdrop
      exact hdrop.symm
    simp only [WalReadResult.append, WalReadResult.push, List.nil_append, List.mem_append,
      List.mem_singleton] at hmem
    rcases hmem with rfl | hmem
    · -- the torn frame itself would hold the marks, but there is a zero among them
      exfalso
      have hmark : ∀ i, i < 200 → (tail ++ F)[8 + 34 + i]? = some v := fun i hi => by
        refine marks_at hty hrow hlen hmarks (g := g ++ rest) ?_ hi
        rw [heq, List.drop_append_of_le_length (by omega), hg, List.append_assoc]
      by_cases htl : 43 ≤ tail.length
      · have h0 := hmark 0 (by omega)
        rw [List.getElem?_append_left (by omega)] at h0
        exact hvt h0
      · have h0 := hmark (tail.length + 24) (by omega)
        rw [List.getElem?_append_right (by omega),
          show 8 + 34 + (tail.length + 24) - tail.length = 66 by omega, hzero] at h0
        exact hv0 (Option.some.inj h0).symm
    · obtain ⟨o, g', ho, hdrop⟩ := mem_readAll _ rest (Nat.le_refl _) hmem
      generalize hm : len - tail.length = m at hrest
      rw [hrest, List.drop_drop] at hdrop
      have hmark : ∀ i, i < 200 → F[m + o + 42 + i]? = some v := fun i hi => by
        rw [show m + o + 42 + i = m + (o + 8) + 34 + i by omega]
        exact marks_at hty hrow hlen hmarks hdrop hi
      have h25 := marks_start hzero hnext hsize hv0 hv21 hmark
      have hm25 : len = tail.length + 25 := by omega
      refine ⟨q, len, ?_⟩
      have husedeq : used = tail ++ frame b := by
        have htake := congrArg (List.take len) heq
        rw [List.take_left' hused, List.take_append, List.take_of_length_le (by omega), hm25,
          Nat.add_sub_cancel_left, hFb] at htake
        exact htake.symm
      have hl := hlocal []
      rwa [List.append_nil, husedeq] at hl
  | _ =>
    unfold readAll readLoop at hmem
    rw [hf] at hmem
    cases hmem

end

/-! ## Sessions behind a torn frame -/

/-- Whatever a session on `disk` commits, the next recovery replays it, and what this
one replayed. -/
def Durable (disk : Disk) (userSchema : Schema) : Prop :=
  ∀ ops s, .checkpoint ∉ ops → Runs.run Session.step (Session.openOn disk userSchema) ops = some s →
    (disk.replayed userSchema ++
      committedWrites (recordsFrom (Session.openOn disk userSchema).db.walWriter.nextLsn s.log)).Sublist
      (s.db.disk.replayed userSchema)

/-- Room for one more transaction in the 64-bit counters. -/
structure Session.Room (s : Session) : Prop where
  lsn : s.db.walWriter.nextLsn + 3 ≤ 2 ^ 64
  txn : s.db.table.txnMgr.nextId < 2 ^ 64
  row : s.db.table.nextRowId < 2 ^ 64

theorem writable_of_payload {r : WalRecord} (hl : r.lsn < 2 ^ 64) (ht : r.txnId < 2 ^ 64) (hr : r.rowId < 2 ^ 64)
    (hrow : r.row.length < 2 ^ 32) (hvals : r.row.all Value.fits = true) (hty : r.type.named = true)
    (hcode : r.type.code < 2 ^ 8) (hpay : r.payload.length < 2 ^ 31) : r.writable = true := by
  have hlen := length_encodeBody r
  unfold WalRecord.writable WalRecord.fits
  rw [decide_eq_true ⟨hl, ht, hr, hrow, hcode⟩, hvals, hty, decide_eq_true (by omega)]
  rfl

theorem writable_mark {lsn txnId : Nat} {type : WalRecordType} (hl : lsn < 2 ^ 64) (ht : txnId < 2 ^ 64)
    (hty : type = .begin ∨ type = .commit) :
    ({ lsn, txnId, type } : WalRecord).writable = true := by
  rcases hty with rfl | rfl
  · exact writable_of_payload hl ht (Nat.two_pow_pos 64) (Nat.two_pow_pos 32) rfl rfl
      (show 1 < 2 ^ 8 by decide) (Nat.two_pow_pos 31)
  · exact writable_of_payload hl ht (Nat.two_pow_pos 64) (Nat.two_pow_pos 32) rfl rfl
      (show 5 < 2 ^ 8 by decide) (Nat.two_pow_pos 31)

theorem writable_insert {lsn txnId rowId : Nat} {s : Bytes} (hl : lsn < 2 ^ 64) (ht : txnId < 2 ^ 64)
    (hr : rowId < 2 ^ 64) (hs : s.length = 200) :
    ({ lsn, txnId, type := .insert, rowId, row := [.string s] } : WalRecord).writable = true := by
  refine writable_of_payload hl ht hr (show 1 < 2 ^ 32 by decide) ?_ rfl (show 2 < 2 ^ 8 by decide) ?_
  · simp [Value.fits, hs]
  · simp [WalRecord.payload, appendValue, hs]

/-- One transaction that inserts a row of 200 bytes and commits. -/
theorem Session.run_insertOne (s : Session) (h : s.Room) {marks : Bytes} (hm : marks.length = 200) :
    ∃ s' ts, Runs.run Session.step s [.txn .begin, .insert s.db.table.txnMgr.nextId [.string marks],
        .txn (.commit s.db.table.txnMgr.nextId)] = some s' ∧
      s'.log = s.log ++ [.begin s.db.table.txnMgr.nextId,
        .write s.db.table.txnMgr.nextId s.db.table.nextRowId (.insert [.string marks]),
        .commit s.db.table.txnMgr.nextId ts] := by
  obtain ⟨hl, ht, hr⟩ := h
  -- the session after the begin, and after the insert
  let txn := s.db.begin.1
  let s1 : Session := { db := s.db.begin.2, handle := Function.update s.handle txn.txnId (some txn),
                        log := s.log ++ [.begin txn.txnId] }
  let s2 : Session := { db := (s1.db.insert txn [.string marks]).2, handle := s1.handle,
                        log := s1.log ++ [.write txn.txnId s.db.table.nextRowId (.insert [.string marks])] }
  have hact1 : s1.world.clients.active s.db.table.txnMgr.nextId = some txn :=
    Clients.active_eq_some.mpr ⟨Function.update_self .., rfl⟩
  have hact2 : s2.world.clients.active s.db.table.txnMgr.nextId = some txn := hact1
  have hstep1 : s.step (.txn .begin) = some s1 := if_pos (writable_mark (by omega) ht (Or.inl rfl))
  have hstep2 : s1.step (.insert s.db.table.txnMgr.nextId [.string marks]) = some s2 := by
    simp only [Session.step, hact1]
    exact if_pos (writable_insert (by show s.db.walWriter.nextLsn + 1 < _; omega) ht hr hm)
  refine ⟨{ db := (s2.db.commit txn).2, handle := Function.update s2.handle txn.txnId (some (s2.db.commit txn).1),
            log := s2.log ++ [.commit txn.txnId (s2.db.commit txn).1.commitTs] }, (s2.db.commit txn).1.commitTs,
    Runs.run_cons_eq_some.mpr ⟨s1, hstep1, Runs.run_cons_eq_some.mpr ⟨s2, hstep2,
      Runs.run_cons_eq_some.mpr ⟨_, ?_, rfl⟩⟩⟩, ?_⟩
  · simp only [Session.step, hact2]
    exact if_pos (writable_mark (by show s.db.walWriter.nextLsn + 1 + 1 < _; omega) ht (Or.inr rfl))
  · show s.log ++ _ ++ _ ++ _ = _
    simp only [List.append_assoc]
    rfl

/-- A session starts with a begin. -/
theorem Session.step_first {s s' : Session} {op : DbOp} (hno : ∀ t, s.handle t = none) (hop : op ≠ .checkpoint)
    (hs : s.step op = some s') : s'.log = s.log ++ [.begin s.db.table.txnMgr.nextId] := by
  rcases Session.step_of_no_handle hno hs with rfl | rfl
  · exact congrArg Session.log (Session.logged_eq_some hs).2
  · exact absurd rfl hop

/-- A mark that is not the byte at position 42 of the torn bytes. -/
theorem exists_mark (tail : Bytes) : ∃ v : UInt8, v ≠ 0 ∧ v ≠ 21 ∧ tail[42]? ≠ some v := by
  by_cases h : tail[42]? = some 255
  · refine ⟨254, by decide, by decide, ?_⟩
    rw [h]
    decide
  · exact ⟨255, by decide, by decide, h⟩

theorem frame_commit (lsn t ts : Nat) : ∃ cs, frame ((Event.commit t ts).record lsn) = 21 :: cs ∧ cs.length = 24 := by
  have hlen := length_frame ((Event.commit t ts).record lsn)
  have hbody : (encodeBody ((Event.commit t ts).record lsn)).length = 17 := length_encodeBody _
  unfold frame at hlen ⊢
  rw [hbody] at hlen ⊢
  refine ⟨_, rfl, ?_⟩
  exact Nat.succ.inj hlen

section
variable {disk : Disk} {userSchema : Schema} {rs : List WalRecord} {r : WalRecord} {n : Nat}
  (hwal : disk.wal = some (logOf rs ++ (frame r).take n)) (htorn : TornLog rs r n)
include hwal htorn

theorem TornLog.readAll_disk : (readAll disk.walBytes).records = rs.map WalRecord.stored := by
  rw [Disk.walBytes, hwal, Option.getD_some, readAll_log rs htorn.writable,
    readAll_of_truncated (readFrame_take htorn.last htorn.pos htorn.torn)]
  simp [WalReadResult.append, readOf]

/-- The writer starts behind every LSN of the log. -/
theorem TornLog.lt_nextLsn {p : Nat × List Segment} (hp : disk.checkpoint userSchema = .ok p) :
    p.1 < (Session.openOn disk userSchema).db.walWriter.nextLsn ∧
      ∀ q ∈ rs, q.lsn < (Session.openOn disk userSchema).db.walWriter.nextLsn := by
  have hnext : (Session.openOn disk userSchema).db.walWriter.nextLsn = max disk.readWal.lastValidLsn p.1 + 1 :=
    (Database.openOn_of_checkpoint hp).2
  have hlast : disk.readWal.lastValidLsn = (readOf rs).lastValidLsn := by
    rw [Disk.readWal_eq, Disk.walBytes, hwal, Option.getD_some, readAll_log rs htorn.writable,
      readAll_of_truncated (readFrame_take htorn.last htorn.pos htorn.torn)]
    rfl
  rw [hnext, hlast]
  refine ⟨by omega, fun q hq => ?_⟩
  have hle := le_lastValidLsn htorn.increasing hq
  omega

omit htorn in
/-- What the next recovery finds behind a session that took no checkpoint. -/
theorem torn_after {ops : List DbOp} {s : Session} (hno : .checkpoint ∉ ops)
    (hrun : Runs.run Session.step (Session.openOn disk userSchema) ops = some s) :
    s.db.disk.checkpoint userSchema = disk.checkpoint userSchema ∧
      s.db.disk.walBytes = logOf rs ++ ((frame r).take n ++
        logOf (recordsFrom (Session.openOn disk userSchema).db.walWriter.nextLsn s.log)) := by
  obtain ⟨es, happ, hfiles⟩ := Session.run_appended hrun
  have hlog : s.log = es := happ.log
  refine ⟨by rw [hfiles hno]; rfl, ?_⟩
  rw [happ.wal, hlog, ← List.append_assoc]
  show disk.wal.getD [] ++ _ = _
  rw [hwal]
  rfl

/-- What is durable behind a torn frame was completed by the begin before it. -/
theorem TornLog.completed_of_durable (hroom : (Session.openOn disk userSchema).Room) (h : Durable disk userSchema) :
    (∃ p, disk.checkpoint userSchema = .ok p) ∧ CompletedBy ((frame r).take n)
      ((Event.begin (Session.openOn disk userSchema).db.table.txnMgr.nextId).record
        (Session.openOn disk userSchema).db.walWriter.nextLsn) := by
  generalize htail : (frame r).take n = tail
  obtain ⟨v, hv0, hv21, hvt⟩ := exists_mark tail
  -- one transaction inserts a row of marks and commits
  obtain ⟨marks, hlen, hmarks⟩ : ∃ marks : Bytes, marks.length = 200 ∧ ∀ i, i < 200 → marks[i]? = some v :=
    ⟨List.replicate 200 v, List.length_replicate, fun i hi => List.getElem?_replicate_of_lt hi⟩
  obtain ⟨s, ts, hrun, hlog⟩ := Session.run_insertOne _ hroom hlen
  have hsub := h _ s (by simp) hrun
  obtain ⟨hck, hbytes⟩ := torn_after hwal (by simp) hrun
  rw [show (Session.openOn disk userSchema).log = [] from rfl, List.nil_append] at hlog
  rw [hlog] at hsub hbytes
  generalize hL : (Session.openOn disk userSchema).db.walWriter.nextLsn = lsn at hsub hbytes ⊢
  generalize (Session.openOn disk userSchema).db.table.txnMgr.nextId = t at hsub hbytes ⊢
  generalize (Session.openOn disk userSchema).db.table.nextRowId = x at hsub hbytes
  let I : WalRecord := (Event.write t x (.insert [.string marks])).record (lsn + 1)
  have hI : I ∈ s.db.disk.replayed userSchema := by
    refine hsub.subset (List.mem_append_right _ (mem_committedWrites.mpr ⟨?_, rfl, ?_⟩))
    · exact List.mem_cons_of_mem _ List.mem_cons_self
    · exact mem_committedTxnIds.mpr ⟨(Event.commit t ts).record (lsn + 1 + 1), by simp [recordsFrom], rfl, rfl⟩
  cases hp : disk.checkpoint userSchema with
  | error e =>
    rw [Disk.replayed, hck, hp] at hI
    cases hI
  | ok p =>
    refine ⟨⟨p, rfl⟩, ?_⟩
    rw [Disk.replayed_of_checkpoint (hck.trans hp), hbytes, readAll_log rs htorn.writable, htail] at hI
    obtain ⟨hI, -⟩ := mem_redoOps.mp hI
    simp only [WalReadResult.append, readOf, List.mem_append, List.mem_map] at hI
    rcases hI with ⟨q, hq, hqI⟩ | hI
    · -- the record is newer than all that the log held before
      exfalso
      have hlt := (htorn.lt_nextLsn hwal hp).2 q hq
      have hlsn : q.lsn = lsn + 1 := by rw [← stored_lsn, hqI]; rfl
      omega
    · refine completed_of_mem (I := I) rfl rfl hlen hmarks (by rw [length_frame]; rfl) (frame_commit (lsn + 1 + 1) t ts)
        ?_ hv0 hv21 hvt ?_
      · rw [← htail]
        exact readFrame_take htorn.last htorn.pos htorn.torn
      · simpa [logOf, recordsFrom] using hI

omit hwal htorn in
/-- Records that follow others are replayed in addition to them, if their LSNs are behind
the checkpoint's. -/
theorem redoOps_append_sublist {lsn : Nat} {old new : List WalRecord} {q : WalRecord} (hnew : ∀ z ∈ new, lsn < z.lsn) :
    (redoOps lsn old ++ committedWrites new).Sublist (redoOps lsn (old ++ q :: new)) := by
  have hids : ∀ t, t ∈ committedTxnIds old ∨ t ∈ committedTxnIds new → t ∈ committedTxnIds (old ++ q :: new) := by
    intro u hu
    rw [mem_committedTxnIds, mem_committedTxnIds] at hu
    rw [mem_committedTxnIds]
    rcases hu with ⟨z, hz, h⟩ | ⟨z, hz, h⟩
    · exact ⟨z, List.mem_append_left _ hz, h⟩
    · exact ⟨z, List.mem_append_right _ (List.mem_cons_of_mem _ hz), h⟩
  unfold redoOps
  rw [List.filter_append]
  refine List.Sublist.append (Keyed.filter_sublist_filter fun z _ hz => ?_) ?_
  · simp only [Bool.and_eq_true, List.contains_iff_mem] at hz ⊢
    exact ⟨hz.1, hids _ (Or.inl hz.2)⟩
  · refine List.Sublist.trans ?_ ((List.sublist_cons_self q _).filter _)
    refine Keyed.filter_sublist_filter fun z hz hsel => ?_
    have hmem := mem_committedWrites.mp (List.mem_filter.mpr ⟨hz, hsel⟩)
    simp only [Bool.and_eq_true, List.contains_iff_mem, decide_eq_true_iff]
    exact ⟨⟨hnew z hz, hmem.2.1⟩, hids _ (Or.inr hmem.2.2)⟩

/-- A completed frame gives the reader back all that follows. -/
theorem TornLog.durable_of_completed {p : Nat × List Segment} (hp : disk.checkpoint userSchema = .ok p)
    (hc : CompletedBy ((frame r).take n) ((Event.begin (Session.openOn disk userSchema).db.table.txnMgr.nextId).record
      (Session.openOn disk userSchema).db.walWriter.nextLsn)) : Durable disk userSchema := by
  intro ops s hno hrun
  obtain ⟨hck, hbytes⟩ := torn_after hwal hno hrun
  obtain ⟨es, happ, -⟩ := Session.run_appended hrun
  have hlog : s.log = es := happ.log
  have hwritable := happ.writable
  have hrs := htorn.readAll_disk hwal
  rw [Disk.replayed_of_checkpoint (hck.trans hp), Disk.replayed_of_checkpoint hp, hrs]
  cases ops with
  | nil =>
    cases hrun
    show (redoOps _ _ ++ []).Sublist (redoOps _ (readAll disk.walBytes).records)
    rw [hrs, List.append_nil]
  | cons op ops =>
    -- the first event is the begin that completes the torn frame
    obtain ⟨s1, hs1, hrest⟩ := Runs.run_cons_eq_some.mp hrun
    have hfirst := Session.step_first (fun _ => rfl) (fun heq => hno (by simp [heq])) hs1
    obtain ⟨es', happ', -⟩ := Session.run_appended hrest
    rw [happ'.log, hfirst, show (Session.openOn disk userSchema).log = [] from rfl, List.nil_append,
      List.singleton_append] at hlog
    rw [happ'.log, hfirst, show (Session.openOn disk userSchema).log = [] from rfl, List.nil_append,
      List.singleton_append] at hbytes ⊢
    rw [← hlog] at hwritable
    have hlt := (htorn.lt_nextLsn hwal hp).1
    generalize (Session.openOn disk userSchema).db.walWriter.nextLsn = lsn at hwritable hbytes hc hlt ⊢
    generalize (Session.openOn disk userSchema).db.table.txnMgr.nextId = t at hwritable hbytes hc ⊢
    obtain ⟨q, len, hq⟩ := hc
    obtain ⟨used, heq, -, -, -, hlocal⟩ := readFrame_record hq
    rw [List.append_nil] at heq
    have hread : (readAll s.db.disk.walBytes).records =
        rs.map WalRecord.stored ++ q :: recordsFrom (lsn + 1) es' := by
      have hsplit : (frame r).take n ++ logOf (recordsFrom lsn (.begin t :: es')) =
          used ++ logOf (recordsFrom (lsn + 1) es') := by
        rw [← heq]
        simp [logOf, recordsFrom]
      rw [hbytes, readAll_log rs htorn.writable, hsplit, readAll_record (hlocal _),
        readAll_logOf _ fun z hz => hwritable z (List.mem_cons_of_mem _ hz)]
      simp [WalReadResult.append, WalReadResult.push, readOf, stored_recordsFrom]
    have hbegin : committedWrites (recordsFrom lsn (.begin t :: es')) = committedWrites (recordsFrom (lsn + 1) es') := by
      have hne : (WalRecordType.begin == WalRecordType.commit) = false := rfl
      simp [committedWrites, recordsFrom, Event.record, WalRecordType.isData, hne]
    rw [hread, hbegin]
    refine redoOps_append_sublist fun z hz => ?_
    have hzlsn := (lsn_recordsFrom es' (lsn + 1) z hz).1
    omega

end

/-- **Durability behind a torn frame.**  What later sessions commit is replayed if and
only if the checkpoint, if there is one, loads and the begin of the session, 25 bytes,
happens to complete the torn frame. -/
theorem torn_tail_durable_iff {disk : Disk} {userSchema : Schema} {rs : List WalRecord} {r : WalRecord} {n : Nat}
    (hwal : disk.wal = some (logOf rs ++ (frame r).take n)) (htorn : TornLog rs r n)
    (hroom : (Session.openOn disk userSchema).Room) :
    Durable disk userSchema ↔ (∃ p, disk.checkpoint userSchema = .ok p) ∧ CompletedBy ((frame r).take n)
      ((Event.begin (Session.openOn disk userSchema).db.table.txnMgr.nextId).record
        (Session.openOn disk userSchema).db.walWriter.nextLsn) := by
  constructor
  · exact htorn.completed_of_durable hwal hroom
  · rintro ⟨⟨p, hp⟩, hc⟩
    exact htorn.durable_of_completed hwal hp hc

/-- The begin that the first session of a directory writes. -/
def firstBegin : WalRecord := { lsn := 1, txnId := 1, type := .begin }

/-- An insert of a string that ends in the frame of that begin. -/
def insertOfBegin : WalRecord := { lsn := 1, txnId := 1, type := .insert, rowId := 1, row := [.string (frame firstBegin)] }

/-- Torn just before the end of its string, that insert is completed. -/
theorem torn_tail_durable_completed :
    Durable { wal := some (logOf [] ++ (frame insertOfBegin).take 42) } [] := by
  refine (torn_tail_durable_iff rfl ?_ ?_).mpr ⟨⟨(0, []), rfl⟩, ?_⟩
  · exact ⟨by simp, List.Pairwise.nil, by decide +kernel, by decide, by decide +kernel⟩
  · exact ⟨by decide +kernel, by decide +kernel, by decide +kernel⟩
  · exact ⟨insertOfBegin, 67, by decide +kernel⟩

/-- **A commit behind a torn begin is lost**: three bytes of a begin, then a session
that inserts a row and commits. -/
theorem torn_tail_loses_commit :
    TornLog [] firstBegin 3 ∧ ¬ Durable { wal := some (logOf [] ++ (frame firstBegin).take 3) } [] := by
  refine ⟨⟨by simp, List.Pairwise.nil, by decide +kernel, by decide, by decide +kernel⟩, fun h => ?_⟩
  obtain ⟨s, hrun, hs⟩ := Runs.exists_of_any (o := Runs.run Session.step
      (Session.openOn { wal := some (logOf [] ++ (frame firstBegin).take 3) } [])
      [.txn .begin, .insert 1 [], .txn (.commit 1)])
    (p := fun s => decide (s.db.disk.replayed [] = [] ∧ (committedWrites (recordsFrom (Session.openOn
      { wal := some (logOf [] ++ (frame firstBegin).take 3) } []).db.walWriter.nextLsn s.log)).length = 1))
    (by decide +kernel)
  obtain ⟨hnone, hone⟩ := of_decide_eq_true hs
  have hsub := h _ s (by simp) hrun
  rw [hnone] at hsub
  have hnil := List.eq_nil_of_sublist_nil hsub
  rw [(List.append_eq_nil_iff.mp hnil).2] at hone
  cases hone

end CoreDB
