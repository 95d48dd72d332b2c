import CoreDB.Wal.Record
import CoreDB.Util.Crc32c

/-!
# The log file (`wal/wal_writer.cpp`, `wal/wal_reader.cpp`)

Each record is a frame: a 32-bit length, a checksum, and the body the checksum
covers.  `ReadAll` reads frame after frame and stops at the first one that is not
whole or not right.  `readLoop` is its loop; every frame takes bytes off the file,
so the file's length bounds the number of passes.  As in `decodeBody`, memory is taken as
granted; `readAllIn` in `Wal.LogMemory` is the reader in a given memory.

`readAll_log`: frames that the writer wrote are read back, and the reader goes on
behind them.  `readAll_take`: of a log that was cut somewhere, exactly the whole
frames survive.  `readFrame_record`: an accepted frame is accepted whatever comes
after it.
-/

namespace CoreDB

open ByteCodec

/-! ## Writing -/

/-- What `AppendRecord` writes. -/
def frame (r : WalRecord) : Bytes :=
  leBytes 4 (4 + (encodeBody r).length) ++ (crcBytes (crc32c (encodeBody r)) ++ encodeBody r)

/-- The frames of some records, one after the other. -/
def logOf (rs : List WalRecord) : Bytes := rs.flatMap frame

structure WalWriter where
  nextLsn : Nat := 1
deriving DecidableEq, Repr

namespace WalWriter

def lastLsn (w : WalWriter) : Nat := w.nextLsn - 1

/-- The record that the next `Append` writes. -/
def next (w : WalWriter) (txnId : Nat) (type : WalRecordType) (rowId : Nat := 0) (row : Row := []) : WalRecord :=
  { lsn := w.nextLsn, txnId, type, rowId, row }

/-- `Append`: the writer and the file after it. -/
def append (w : WalWriter) (file : Bytes) (txnId : Nat) (type : WalRecordType) (rowId : Nat := 0)
    (row : Row := []) : WalWriter × Bytes :=
  ({ w with nextLsn := w.nextLsn + 1 }, file ++ frame (w.next txnId type rowId row))

end WalWriter

/-- The record fits its fields, and its frame the 32-bit length. -/
def WalRecord.writable (r : WalRecord) : Bool :=
  r.fits && r.type.named && decide (4 + (encodeBody r).length < 2 ^ 32)

/-! ## Reading -/

/-- What the reader finds at a record boundary. -/
inductive FrameRead where
  | eof
  | truncated
  | corrupt
  | record (r : WalRecord) (len : Nat) (rest : Bytes)
deriving DecidableEq, Repr

/-- One pass of the loop in `ReadAll`. -/
def readFrame (bs : Bytes) : FrameRead :=
  if bs = [] then .eof
  else
    match takeLE 4 bs with
    | none => .truncated  -- fewer than four bytes of a length
    | some (totalLen, bs) =>
      match takeBytes totalLen bs with
      | none => .truncated  -- the declared length runs past the end
      | some (payload, rest) =>
        match takeLE 4 payload with
        | none => .corrupt  -- too short to hold a checksum
        | some (storedChecksum, body) =>
          if (crc32c body).toNat ≠ storedChecksum then .corrupt
          else
            match decodeBody body with
            | none => .corrupt
            | some r => .record r (4 + totalLen) rest

structure WalReadResult where
  records : List WalRecord := []
  truncatedTail : Bool := false
  corruptRecord : Bool := false
  bytesRead : Nat := 0
  lastValidLsn : Nat := 0
deriving DecidableEq, Repr

def WalReadResult.push (res : WalReadResult) (r : WalRecord) (len : Nat) : WalReadResult :=
  { res with
    lastValidLsn := r.lsn
    bytesRead := res.bytesRead + len
    records := res.records ++ [r] }

def readLoop : Nat → Bytes → WalReadResult → WalReadResult
  | 0, _, res => res
  | fuel + 1, bs, res =>
    match readFrame bs with
    | .eof => res
    | .truncated => { res with truncatedTail := true }
    | .corrupt => { res with corruptRecord := true }
    | .record r len rest => readLoop fuel rest (res.push r len)

/-- `ReadAll` on a file of these bytes. -/
def readAll (bs : Bytes) : WalReadResult := readLoop (bs.length + 1) bs {}

/-! ## One frame -/

theorem length_frame (r : WalRecord) : (frame r).length = 25 + r.payload.length := by
  simp [frame, crcBytes, length_encodeBody]
  omega

/-- What the reader does with a whole frame, whatever its checksum and body. -/
theorem readFrame_whole (crc : Nat) (body rest : Bytes) (hlen : 4 + body.length < 2 ^ 32) (hcrc : crc < 2 ^ 32) :
    readFrame (leBytes 4 (4 + body.length) ++ (leBytes 4 crc ++ body) ++ rest) =
      if (crc32c body).toNat ≠ crc then .corrupt
      else
        match decodeBody body with
        | none => .corrupt
        | some r => .record r (4 + (4 + body.length)) rest := by
  have hne : leBytes 4 (4 + body.length) ++ (leBytes 4 crc ++ body) ++ rest ≠ [] := by
    intro hnil
    have hz := congrArg List.length hnil
    simp at hz
  have hpay : takeBytes (4 + body.length) (leBytes 4 crc ++ body ++ rest) = some (leBytes 4 crc ++ body, rest) :=
    takeBytes_append_of_length _ _ _ (by simp)
  unfold readFrame
  rw [if_neg hne, List.append_assoc, takeLE_leBytes 4 _ _ hlen]
  simp only [hpay, takeLE_leBytes 4 _ _ hcrc]

/-- **A frame reads back.** -/
theorem readFrame_frame {r : WalRecord} (h : r.writable = true) (rest : Bytes) :
    readFrame (frame r ++ rest) = .record r.stored (frame r).length rest := by
  unfold WalRecord.writable at h
  simp only [Bool.and_eq_true, decide_eq_true_iff] at h
  obtain ⟨⟨hfits, hnamed⟩, hlen⟩ := h
  have hdec := decodeBody_encodeBody [] hfits hnamed
  rw [List.append_nil] at hdec
  have hsize : (frame r).length = 4 + (4 + (encodeBody r).length) := by
    simp [frame, crcBytes]
  rw [hsize]
  refine (readFrame_whole _ _ rest hlen (crc32c (encodeBody r)).isLt).trans ?_
  rw [if_neg (not_not_intro rfl), hdec]

/-- A frame that was cut is found truncated. -/
theorem readFrame_take {r : WalRecord} (h : r.writable = true) {n : Nat} (hpos : 0 < n)
    (hn : n < (frame r).length) : readFrame ((frame r).take n) = .truncated := by
  unfold WalRecord.writable at h
  simp only [Bool.and_eq_true, decide_eq_true_iff] at h
  have hlen := h.2
  have hsize : (frame r).length = 4 + (4 + (encodeBody r).length) := by simp [frame, crcBytes]
  have hne : (frame r).take n ≠ [] := by
    intro hnil
    have hz := congrArg List.length hnil
    rw [List.length_take] at hz
    simp only [List.length_nil] at hz
    omega
  unfold readFrame
  rw [if_neg hne]
  by_cases h4 : n < 4
  · rw [takeLE_eq_none 4 _ (by rw [List.length_take]; omega)]
  · have htake : (frame r).take n = leBytes 4 (4 + (encodeBody r).length) ++
        (crcBytes (crc32c (encodeBody r)) ++ encodeBody r).take (n - 4) := by
      unfold frame
      rw [List.take_append, length_leBytes, List.take_of_length_le (by simp; omega)]
    rw [htake, takeLE_leBytes 4 _ _ (by simpa using hlen)]
    have hshort : takeBytes (4 + (encodeBody r).length)
        ((crcBytes (crc32c (encodeBody r)) ++ encodeBody r).take (n - 4)) = none := by
      apply takeBytes_eq_none
      rw [List.length_take]
      simp [crcBytes]
      omega
    simp only [hshort]

/-- **Acceptance is local.**  An accepted frame is at least 25 bytes, begins with the
body of its record behind the two header words, and does not depend on the rest. -/
theorem readFrame_record {bs rest : Bytes} {r : WalRecord} {len : Nat}
    (h : readFrame bs = .record r len rest) :
    ∃ used, bs = used ++ rest ∧ used.length = len ∧ 25 ≤ len ∧ (∃ g, used.drop 8 = encodeBody r ++ g) ∧
      ∀ g, readFrame (used ++ g) = .record r len g := by
  unfold readFrame at h
  split at h
  · cases h
  · next hne =>
    split at h
    · cases h
    · next totalLen bs1 hlen =>
      split at h
      · cases h
      · next payload rest1 hpay =>
        split at h
        · cases h
        · next stored body hcrc =>
          split at h
          · cases h
          · next hsame =>
            split at h
            · cases h
            · next r' hdec =>
              cases h
              obtain ⟨rfl, hlt⟩ := takeLE_eq_some 4 _ _ _ hlen
              obtain ⟨rfl, hpl⟩ := takeBytes_eq_some _ _ _ _ hpay
              have hmin := length_decodeBody hdec
              obtain ⟨hpb, -⟩ := takeLE_eq_some 4 _ _ _ hcrc
              have hplen : payload.length = 4 + body.length := by rw [hpb]; simp
              refine ⟨leBytes 4 totalLen ++ payload, by simp, by simp [hpl], by omega, ?_, fun g => ?_⟩
              · obtain ⟨⟨g, hg⟩, -⟩ := decodeBody_eq_some hdec
                refine ⟨g, ?_⟩
                rw [← hg, hpb, ← List.append_assoc]
                exact List.drop_left' (by simp)
              · have hne' : leBytes 4 totalLen ++ payload ++ g ≠ [] := by
                  intro hnil
                  have hz := congrArg List.length hnil
                  simp at hz
                unfold readFrame
                rw [if_neg hne', List.append_assoc, takeLE_leBytes 4 _ _ hlt]
                simp only [takeBytes_append_of_length _ _ _ hpl, hcrc, hsame, if_false, hdec]

/-- A truncated end is accepted only together with bytes that follow it. -/
theorem lt_of_truncated {tail g rest : Bytes} {r : WalRecord} {len : Nat} (ht : readFrame tail = .truncated)
    (h : readFrame (tail ++ g) = .record r len rest) : tail.length < len := by
  obtain ⟨used, heq, hlen, -, -, hlocal⟩ := readFrame_record h
  apply Classical.byContradiction
  intro hle
  have hused : used = tail.take len := by
    have htake := congrArg (List.take len) heq
    rw [List.take_append_of_le_length (by omega), List.take_left' hlen] at htake
    exact htake.symm
  have hsplit : tail = used ++ tail.drop len := by rw [hused, List.take_append_drop]
  rw [hsplit, hlocal] at ht
  cases ht

/-! ## The loop -/

namespace WalReadResult

/-- Two stretches of a log, read one after the other. -/
def append (a b : WalReadResult) : WalReadResult where
  records := a.records ++ b.records
  truncatedTail := a.truncatedTail || b.truncatedTail
  corruptRecord := a.corruptRecord || b.corruptRecord
  bytesRead := a.bytesRead + b.bytesRead
  lastValidLsn := if b.records = [] then a.lastValidLsn else b.lastValidLsn

theorem push_append (a b : WalReadResult) (r : WalRecord) (len : Nat) :
    (a.push r len).append b = a.append ((({} : WalReadResult).push r len).append b) := by
  unfold push append
  by_cases hb : b.records = [] <;> simp [hb, Nat.add_assoc]

end WalReadResult

theorem readLoop_append (fuel : Nat) : ∀ (bs : Bytes) (res : WalReadResult),
    readLoop fuel bs res = res.append (readLoop fuel bs {}) := by
  induction fuel with
  | zero =>
    intro bs res
    simp [readLoop, WalReadResult.append]
  | succ fuel ih =>
    intro bs res
    unfold readLoop
    cases hf : readFrame bs with
    | eof => simp [WalReadResult.append]
    | truncated => simp [WalReadResult.append]
    | corrupt => simp [WalReadResult.append]
    | record r len rest =>
      dsimp only
      rw [ih, ih rest (WalReadResult.push {} r len), WalReadResult.push_append]

/-- More fuel than bytes changes nothing. -/
theorem readLoop_fuel (fuel : Nat) : ∀ (fuel' : Nat) (bs : Bytes) (res : WalReadResult), bs.length < fuel →
    bs.length < fuel' → readLoop fuel bs res = readLoop fuel' bs res := by
  induction fuel with
  | zero => intro fuel' bs res h; omega
  | succ fuel ih =>
    intro fuel' bs res h h'
    cases fuel' with
    | zero => omega
    | succ fuel' =>
      unfold readLoop
      cases hf : readFrame bs with
      | record r len rest =>
        obtain ⟨used, rfl, hlen, hmin, -⟩ := readFrame_record hf
        rw [List.length_append] at h h'
        exact ih fuel' rest _ (by omega) (by omega)
      | _ => rfl

theorem readAll_record {bs rest : Bytes} {r : WalRecord} {len : Nat} (h : readFrame bs = .record r len rest) :
    readAll bs = (({} : WalReadResult).push r len).append (readAll rest) := by
  obtain ⟨used, rfl, hlen, hmin, -⟩ := readFrame_record h
  have hfuel : readLoop (used ++ rest).length rest {} = readAll rest :=
    readLoop_fuel _ _ _ _ (by simp; omega) (by omega)
  rw [← hfuel, ← readLoop_append]
  conv => lhs; unfold readAll readLoop
  rw [h]

theorem readAll_nil : readAll [] = {} := rfl

theorem readAll_of_truncated {bs : Bytes} (h : readFrame bs = .truncated) :
    readAll bs = { truncatedTail := true } := by
  unfold readAll readLoop
  rw [h]

theorem readAll_of_corrupt {bs : Bytes} (h : readFrame bs = .corrupt) : readAll bs = { corruptRecord := true } := by
  unfold readAll readLoop
  rw [h]

theorem lastValidLsn_of_nil {bs : Bytes} (h : (readAll bs).records = []) : (readAll bs).lastValidLsn = 0 := by
  cases hf : readFrame bs with
  | record r len rest =>
    rw [readAll_record hf] at h
    simp [WalReadResult.append, WalReadResult.push] at h
  | _ =>
    unfold readAll readLoop
    rw [hf]

theorem nil_append_readAll (g : Bytes) : ({} : WalReadResult).append (readAll g) = readAll g := by
  have hlast : (if (readAll g).records = [] then 0 else (readAll g).lastValidLsn) = (readAll g).lastValidLsn := by
    split
    · next h => exact (lastValidLsn_of_nil h).symm
    · rfl
  simp [WalReadResult.append, hlast]

/-- What reading the frames of `rs` amounts to. -/
def readOf (rs : List WalRecord) : WalReadResult where
  records := rs.map WalRecord.stored
  bytesRead := (logOf rs).length
  lastValidLsn := (rs.getLast?.map (·.lsn)).getD 0

theorem stored_lsn (r : WalRecord) : r.stored.lsn = r.lsn := by
  unfold WalRecord.stored
  split <;> rfl

/-- **The log reads back**, and reading goes on behind it. -/
theorem readAll_log (rs : List WalRecord) (h : ∀ r ∈ rs, r.writable = true) (g : Bytes) :
    readAll (logOf rs ++ g) = (readOf rs).append (readAll g) := by
  induction rs with
  | nil => exact (nil_append_readAll g).symm
  | cons r rs ih =>
    have hsplit : logOf (r :: rs) ++ g = frame r ++ (logOf rs ++ g) := by simp [logOf]
    rw [hsplit, readAll_record (readFrame_frame (h r List.mem_cons_self) _),
      ih fun q hq => h q (List.mem_cons_of_mem _ hq)]
    unfold readOf WalReadResult.push WalReadResult.append logOf
    by_cases hg : (readAll g).records = []
    · cases rs with
      | nil => simp [hg, stored_lsn]
      | cons q rs => simp [hg, List.getLast?_cons]; omega
    · simp [hg]
      omega

theorem readAll_logOf (rs : List WalRecord) (h : ∀ r ∈ rs, r.writable = true) :
    readAll (logOf rs) = readOf rs := by
  have hread := readAll_log rs h []
  rw [List.append_nil] at hread
  rw [hread, readAll_nil]
  simp [WalReadResult.append, readOf]

/-- With increasing LSNs the last valid one is the greatest. -/
theorem le_lastValidLsn {rs : List WalRecord} (h : rs.Pairwise fun a b => a.lsn < b.lsn) {q : WalRecord} (hq : q ∈ rs) :
    q.lsn ≤ (readOf rs).lastValidLsn := by
  obtain ⟨l, z, rfl⟩ : ∃ l z, rs = l ++ [z] :=
    ⟨rs.dropLast, rs.getLast (List.ne_nil_of_mem hq), (List.dropLast_concat_getLast _).symm⟩
  have hlast : (readOf (l ++ [z])).lastValidLsn = z.lsn := by simp [readOf]
  rw [hlast]
  rw [List.pairwise_append] at h
  rcases List.mem_append.mp hq with hq | hq
  · exact Nat.le_of_lt (h.2.2 q hq z (by simp))
  · exact Nat.le_of_eq (by rw [List.mem_singleton.mp hq])

/-! ## Cut logs -/

/-- The records whose frames lie entirely in the first `n` bytes. -/
def survivors : List WalRecord → Nat → List WalRecord
  | [], _ => []
  | r :: rs, n => if (frame r).length ≤ n then r :: survivors rs (n - (frame r).length) else []

theorem isPrefix_survivors (rs : List WalRecord) : ∀ n, survivors rs n <+: rs := by
  induction rs with
  | nil => intro n; exact List.nil_prefix
  | cons r rs ih =>
    intro n
    unfold survivors
    split
    · exact (List.prefix_cons_inj r).mpr (ih _)
    · exact List.nil_prefix

theorem survivors_all (rs : List WalRecord) : ∀ n, (logOf rs).length ≤ n → survivors rs n = rs := by
  induction rs with
  | nil => intro n _; rfl
  | cons r rs ih =>
    intro n hn
    have hlen : (logOf (r :: rs)).length = (frame r).length + (logOf rs).length := by simp [logOf]
    unfold survivors
    rw [if_pos (by omega), ih _ (by omega)]

/-- **Of a cut log** the reader returns exactly the whole frames. -/
theorem readAll_take (rs : List WalRecord) (h : ∀ r ∈ rs, r.writable = true) : ∀ n,
    (readAll ((logOf rs).take n)).records = (survivors rs n).map WalRecord.stored := by
  induction rs with
  | nil => intro n; simp [logOf, survivors, readAll_nil]
  | cons r rs ih =>
    intro n
    have hr := h r List.mem_cons_self
    have hlog : logOf (r :: rs) = frame r ++ logOf rs := by simp [logOf]
    unfold survivors
    rw [hlog, List.take_append]
    split
    · next hle =>
      rw [List.take_of_length_le hle, readAll_record (readFrame_frame hr _)]
      simp [WalReadResult.append, WalReadResult.push, ih (fun q hq => h q (List.mem_cons_of_mem _ hq))]
    · next hgt =>
      rw [show n - (frame r).length = 0 by omega, List.take_zero, List.append_nil]
      by_cases h0 : n = 0
      · rw [h0, List.take_zero, readAll_nil]
        rfl
      · rw [readAll_of_truncated (readFrame_take hr (by omega) (by omega))]
        rfl

/-- A record that was returned has its body in the file, behind the header of a frame
that starts at the front or at least 25 bytes in. -/
theorem mem_readAll {I : WalRecord} : ∀ (n : Nat) (bs : Bytes), bs.length ≤ n → I ∈ (readAll bs).records →
    ∃ o g, (o = 0 ∨ 25 ≤ o) ∧ bs.drop (o + 8) = encodeBody I ++ g := by
  intro n
  induction n with
  | zero =>
    intro bs hlen hmem
    rw [List.length_eq_zero_iff.mp (Nat.le_zero.mp hlen), readAll_nil] at hmem
    cases hmem
  | succ n ih =>
    intro bs hlen hmem
    cases hf : readFrame bs with
    | record r len rest =>
      rw [readAll_record hf] at hmem
      obtain ⟨used, rfl, hused, hmin, ⟨g, hg⟩, -⟩ := readFrame_record hf
      simp only [WalReadResult.append, WalReadResult.push, List.nil_append, List.mem_append,
        List.mem_singleton] at hmem
      rcases hmem with rfl | hmem
      · refine ⟨0, g ++ rest, Or.inl rfl, ?_⟩
        rw [Nat.zero_add, List.drop_append_of_le_length (by omega), hg, List.append_assoc]
      · rw [List.length_append] at hlen
        obtain ⟨o, g', -, hdrop⟩ := ih rest (by omega) hmem
        refine ⟨len + o, g', Or.inr (by omega), ?_⟩
        rw [Nat.add_assoc, ← hused, List.drop_append]
        simp [hdrop]
    | _ =>
      unfold readAll readLoop at hmem
      rw [hf] at hmem
      cases hmem

end CoreDB
