import CoreDB.Wal.LogMemory

/-!
# What the reader makes of any file (`wal/wal_reader.cpp`)

A file need not be one that the writer wrote.  `WalFrame` is a frame that holds what it says;
a file is some frames and a rest that begins with none.  A frame of the right length and
checksum may declare more values than there is memory for (`LogFits`), and then the reader
throws.

- `readAll_longest_parse`: what `ReadAll` returns for any file, in any memory.
- `read_on`: what has been read is read again when the file grows, nothing is ever read
  behind a corrupt record, and a file cut off after what was read can be written on.
-/

namespace CoreDB

open ByteCodec Allocation

/-- A frame: its length, the checksum of its body, and a body that decodes. -/
structure WalFrame where
  body : Bytes
  record : WalRecord
  size : 4 + body.length < 2 ^ 32
  decodes : decodeBody body = some record

namespace WalFrame

def bytes (f : WalFrame) : Bytes := leBytes 4 (4 + f.body.length) ++ (crcBytes (crc32c f.body) ++ f.body)

theorem length_bytes (f : WalFrame) : f.bytes.length = 4 + (4 + f.body.length) := by
  simp [bytes, crcBytes]

/-- The frames one after the other. -/
def file (frames : List WalFrame) : Bytes := frames.flatMap bytes

theorem file_cons (f : WalFrame) (frames : List WalFrame) : file (f :: frames) = f.bytes ++ file frames := by
  simp [file]

/-- No frame begins here. -/
def NoneAt (bs : Bytes) : Prop := ∀ f : WalFrame, ∀ g, bs ≠ f.bytes ++ g

end WalFrame

/-- There is no room for a length, or for as many bytes as it says. -/
def unfinished (bs : Bytes) : Bool := decide (bs.length < 4 ∨ bs.length < 4 + leVal (bs.take 4))

/-- What reading `frames` and then failing at `rest` returns. -/
def parseResult (frames : List WalFrame) (rest : Bytes) : WalReadResult where
  records := frames.map (·.record)
  truncatedTail := !rest.isEmpty && unfinished rest
  corruptRecord := !rest.isEmpty && !unfinished rest
  bytesRead := (WalFrame.file frames).length
  lastValidLsn := (frames.getLast?.map (·.record.lsn)).getD 0

/-! ## One frame -/

theorem readFrame_bytes (f : WalFrame) (rest : Bytes) :
    readFrame (f.bytes ++ rest) = .record f.record f.bytes.length rest := by
  have hwhole := readFrame_whole (crc32c f.body).toNat f.body rest f.size (crc32c f.body).isLt
  rw [if_neg (not_not_intro rfl), f.decodes] at hwhole
  rw [f.length_bytes]
  exact hwhole

theorem unfinished_iff {n : Nat} (hn : n < 256 ^ 4) (tail : Bytes) :
    unfinished (leBytes 4 n ++ tail) = true ↔ tail.length < n := by
  unfold unfinished
  have htake : (leBytes 4 n ++ tail).take 4 = leBytes 4 n := List.take_left' (by simp)
  rw [htake, leVal_leBytes_of_lt 4 n hn]
  simp

/-- What the reader makes of a payload that is all there. -/
def readWhole (payload : Bytes) : Option WalRecord :=
  match takeLE 4 payload with
  | none => none
  | some (storedChecksum, body) => if (crc32c body).toNat ≠ storedChecksum then none else decodeBody body

theorem readFrame_payload {n : Nat} {payload : Bytes} (hn : n < 256 ^ 4) (hlen : payload.length = n) (rest : Bytes) :
    readFrame (leBytes 4 n ++ (payload ++ rest)) =
      match readWhole payload with
      | none => .corrupt
      | some r => .record r (4 + n) rest := by
  have hne : leBytes 4 n ++ (payload ++ rest) ≠ [] := by
    intro hnil
    have hz := congrArg List.length hnil
    simp at hz
  unfold readFrame readWhole
  rw [if_neg hne, takeLE_leBytes 4 _ _ hn]
  simp only [takeBytes_append_of_length _ _ _ hlen]
  cases takeLE 4 payload with
  | none => rfl
  | some p =>
    by_cases hcrc : (crc32c p.2).toNat ≠ p.1
    · simp [hcrc]
    · cases hbody : decodeBody p.2 <;> simp [hcrc, hbody]

/-- A payload that is accepted is that of a frame. -/
theorem exists_frame {n : Nat} {payload : Bytes} {r : WalRecord} (hn : n < 256 ^ 4) (hlen : payload.length = n)
    (h : readWhole payload = some r) : ∃ f : WalFrame, f.record = r ∧ f.bytes = leBytes 4 n ++ payload := by
  unfold readWhole at h
  split at h
  · cases h
  · next stored body hcrc =>
    split at h
    · cases h
    · next hsame =>
      obtain ⟨rfl, -⟩ := takeLE_eq_some 4 _ _ _ hcrc
      have hsize : 4 + body.length = n := by simpa using hlen
      subst hsize
      rw [not_not] at hsame
      refine ⟨⟨body, r, hn, h⟩, rfl, ?_⟩
      simp only [WalFrame.bytes, crcBytes, hsame]

/-- **What the reader finds** at the front of any bytes. -/
inductive Found (bs : Bytes) : FrameRead → Prop where
  | eof (nil : bs = []) : Found bs .eof
  | truncated (some : bs ≠ []) (cut : unfinished bs = true) : Found bs .truncated
  | corrupt (some : bs ≠ []) (whole : unfinished bs = false) (stays : ∀ g, readFrame (bs ++ g) = .corrupt) :
      Found bs .corrupt
  | record (f : WalFrame) (rest : Bytes) (split : bs = f.bytes ++ rest) :
      Found bs (.record f.record f.bytes.length rest)

theorem found_readFrame (bs : Bytes) : Found bs (readFrame bs) := by
  by_cases hnil : bs = []
  · subst hnil
    exact .eof rfl
  by_cases hshort : bs.length < 4
  · have hread : readFrame bs = .truncated := by
      unfold readFrame
      rw [if_neg hnil, takeLE_eq_none 4 bs hshort]
    rw [hread]
    exact .truncated hnil (by simp [unfinished, hshort])
  obtain ⟨n, tail, hn, rfl⟩ : ∃ n tail, n < 256 ^ 4 ∧ bs = leBytes 4 n ++ tail := by
    have hlen : (bs.take 4).length = 4 := List.length_take_of_le (by omega)
    have hlt := leVal_lt (bs.take 4)
    have hle := leBytes_leVal (bs.take 4)
    rw [hlen] at hlt hle
    exact ⟨leVal (bs.take 4), bs.drop 4, hlt, by rw [hle, List.take_append_drop]⟩
  by_cases hlen : tail.length < n
  · have hread : readFrame (leBytes 4 n ++ tail) = .truncated := by
      unfold readFrame
      rw [if_neg hnil, takeLE_leBytes 4 n tail hn]
      simp only [takeBytes_eq_none n tail hlen]
    rw [hread]
    exact .truncated hnil ((unfinished_iff hn tail).mpr hlen)
  have hwhole : unfinished (leBytes 4 n ++ tail) = false := by
    rw [Bool.eq_false_iff, Ne, unfinished_iff hn]
    exact hlen
  obtain ⟨payload, rest, rfl, hpay⟩ : ∃ payload rest, tail = payload ++ rest ∧ payload.length = n :=
    ⟨tail.take n, tail.drop n, (List.take_append_drop n tail).symm, List.length_take_of_le (by omega)⟩
  have hread := fun g => readFrame_payload hn hpay g
  cases hw : readWhole payload with
  | none =>
    simp only [hw] at hread
    rw [hread]
    refine .corrupt hnil hwhole fun g => ?_
    rw [List.append_assoc, List.append_assoc]
    exact hread (rest ++ g)
  | some r =>
    obtain ⟨f, rfl, hbytes⟩ := exists_frame hn hpay hw
    have hsplit : leBytes 4 n ++ (payload ++ rest) = f.bytes ++ rest := by rw [hbytes, List.append_assoc]
    rw [hsplit, readFrame_bytes]
    exact .record f rest rfl

/-! ## The file -/

/-- Where no frame begins, reading ends. -/
theorem readAll_rest {rest : Bytes} (h : WalFrame.NoneAt rest) : readAll rest = parseResult [] rest := by
  have hf := found_readFrame rest
  generalize hread : readFrame rest = fr at hf
  cases hf with
  | eof hnil =>
    subst hnil
    rfl
  | truncated hne hcut =>
    rw [readAll_of_truncated hread]
    simp [parseResult, WalFrame.file, hne, hcut]
  | corrupt hne hwhole stays =>
    rw [readAll_of_corrupt hread]
    simp [parseResult, WalFrame.file, hne, hwhole]
  | record f g hsplit => exact absurd hsplit (h f g)

/-- **Frames are read one after the other**, and then what follows them. -/
theorem readAll_file (frames : List WalFrame) (g : Bytes) :
    readAll (WalFrame.file frames ++ g) = (parseResult frames []).append (readAll g) := by
  induction frames with
  | nil => exact (nil_append_readAll g).symm
  | cons f frames ih =>
    rw [WalFrame.file_cons, List.append_assoc, readAll_record (readFrame_bytes f _), ih]
    unfold parseResult WalReadResult.push WalReadResult.append
    rw [WalFrame.file_cons]
    by_cases hg : (readAll g).records = []
    · cases frames with
      | nil => simp [hg]; omega
      | cons q frames => simp [hg, List.getLast?_cons]; omega
    · simp [hg]
      omega

theorem parseResult_append (frames : List WalFrame) (rest : Bytes) :
    (parseResult frames []).append (parseResult [] rest) = parseResult frames rest := by
  simp [parseResult, WalReadResult.append, WalFrame.file]

/-- Any bytes are some frames and a rest that begins with none. -/
theorem exists_parse : ∀ (n : Nat) (bs : Bytes), bs.length ≤ n →
    ∃ frames rest, bs = WalFrame.file frames ++ rest ∧ WalFrame.NoneAt rest := by
  intro n
  induction n with
  | zero =>
    intro bs hlen
    refine ⟨[], bs, rfl, fun f g hsplit => ?_⟩
    rw [hsplit, List.length_append, f.length_bytes] at hlen
    omega
  | succ n ih =>
    intro bs hlen
    by_cases h : ∃ f : WalFrame, ∃ g, bs = f.bytes ++ g
    · obtain ⟨f, g, rfl⟩ := h
      rw [List.length_append, f.length_bytes] at hlen
      obtain ⟨frames, rest, rfl, hnone⟩ := ih g (by omega)
      exact ⟨f :: frames, rest, by rw [WalFrame.file_cons, List.append_assoc], hnone⟩
    · exact ⟨[], bs, rfl, fun f g hsplit => h ⟨f, g, hsplit⟩⟩

theorem readAll_parse {frames : List WalFrame} {rest : Bytes} (h : WalFrame.NoneAt rest) :
    readAll (WalFrame.file frames ++ rest) = parseResult frames rest := by
  rw [readAll_file, readAll_rest h, parseResult_append]

/-! ## In a given memory -/

/-- Behind whole frames there is one whose body declares values. -/
def LogDeclares (bs : Bytes) (r : Request) : Prop :=
  ∃ frames rest, bs = WalFrame.file frames ++ rest ∧ FrameDeclares rest r

/-- Everything the file declares can be allocated. -/
def LogFits (mem : Memory) (bs : Bytes) : Prop := ∀ r, LogDeclares bs r → mem r = true

theorem logDeclares_iff {bs : Bytes} {r : Request} :
    LogDeclares bs r ↔ FrameDeclares bs r ∨ ∃ f : WalFrame, ∃ rest, bs = f.bytes ++ rest ∧ LogDeclares rest r := by
  constructor
  · rintro ⟨frames, rest, rfl, hr⟩
    cases frames with
    | nil => exact Or.inl hr
    | cons f frames =>
      refine Or.inr ⟨f, WalFrame.file frames ++ rest, ?_, frames, rest, rfl, hr⟩
      rw [WalFrame.file_cons, List.append_assoc]
  · rintro (hr | ⟨f, _, rfl, frames, rest, rfl, hr⟩)
    · exact ⟨[], bs, rfl, hr⟩
    · exact ⟨f :: frames, rest, by rw [WalFrame.file_cons, List.append_assoc], hr⟩

theorem logDeclares_step {bs : Bytes} {r : Request} :
    LogDeclares bs r ↔ FrameDeclares bs r ∨ ∃ rec len rest, readFrame bs = .record rec len rest ∧ LogDeclares rest r := by
  rw [logDeclares_iff]
  refine or_congr_right ⟨?_, ?_⟩
  · rintro ⟨f, rest, rfl, hr⟩
    exact ⟨_, _, rest, readFrame_bytes f rest, hr⟩
  · rintro ⟨rec, len, rest, hread, hr⟩
    have hf := found_readFrame bs
    rw [hread] at hf
    cases hf with
    | record f rest hsplit => exact ⟨f, rest, hsplit, hr⟩

/-- **The loop** asks for what the file declares. -/
theorem readLoopIn_asks (mem : Memory) (fuel : Nat) : ∀ (bs : Bytes) (res : WalReadResult), bs.length < fuel →
    Asks mem (readLoopIn mem fuel bs res) (.ok (readLoop fuel bs res)) (LogDeclares bs) := by
  induction fuel with
  | zero => intro bs res h; omega
  | succ fuel ih =>
    intro bs res hlen
    have hframe := readFrameIn_asks mem bs
    have hshort : ∀ {rec len rest}, readFrame bs = .record rec len rest → rest.length < fuel := by
      intro rec len rest hread
      obtain ⟨used, rfl, hused, hmin, -⟩ := readFrame_record hread
      rw [List.length_append] at hlen
      omega
    refine ⟨fun hall => ?_, fun r hr hno => ?_⟩
    · have hgranted := hframe.granted fun r hr => hall r (logDeclares_step.mpr (Or.inl hr))
      unfold readLoopIn readLoop
      rw [hgranted]
      cases hread : readFrame bs with
      | record rec len rest =>
        exact (ih rest (res.push rec len) (hshort hread)).granted fun r hr =>
          hall r (logDeclares_step.mpr (Or.inr ⟨rec, len, rest, hread, hr⟩))
      | _ => rfl
    · unfold readLoopIn
      rcases logDeclares_step.mp hr with hr | ⟨rec, len, rest, hread, hr⟩
      · rw [hframe.refused r hr hno]
        rfl
      · rcases hframe.cases with ⟨-, hgranted⟩ | ⟨-, hrefused⟩
        · rw [hgranted, hread]
          exact (ih rest (res.push rec len) (hshort hread)).refused r hr hno
        · rw [hrefused]
          rfl

theorem readAllIn_asks (mem : Memory) (bs : Bytes) :
    Asks mem (readAllIn mem bs) (.ok (readAll bs)) (LogDeclares bs) :=
  readLoopIn_asks mem (bs.length + 1) bs {} (Nat.lt_succ_self _)

theorem readAllIn_eq_ok_iff {mem : Memory} {bs : Bytes} {res : WalReadResult} :
    readAllIn mem bs = .ok res ↔ readAll bs = res ∧ LogFits mem bs := by
  rw [(readAllIn_asks mem bs).eq_ok_iff, Except.ok.injEq]
  rfl

/-- **The reader returns the longest parse.**  Any file is some frames and a rest that begins
with no frame; however it is cut like this, `ReadAll` returns the records of the frames and
says of the rest whether it is unfinished or corrupt, unless a count of values that it gets to
cannot be allocated, and then it throws. -/
theorem readAll_longest_parse (mem : Memory) (bs : Bytes) (outcome : Except (Failure Empty) WalReadResult) :
    readAllIn mem bs = outcome ↔ ∃ frames rest, bs = WalFrame.file frames ++ rest ∧ WalFrame.NoneAt rest ∧
      ((LogFits mem bs ∧ outcome = .ok (parseResult frames rest)) ∨
        (¬ LogFits mem bs ∧ outcome = .error .badAlloc)) := by
  have hends : ∀ frames rest, bs = WalFrame.file frames ++ rest → WalFrame.NoneAt rest →
      (LogFits mem bs ∧ readAllIn mem bs = .ok (parseResult frames rest)) ∨
        (¬ LogFits mem bs ∧ readAllIn mem bs = .error .badAlloc) := by
    rintro frames rest rfl hnone
    rcases (readAllIn_asks mem (WalFrame.file frames ++ rest)).cases with ⟨hfits, hok⟩ | ⟨⟨r, hr, hno⟩, hbad⟩
    · refine Or.inl ⟨hfits, ?_⟩
      rw [hok, readAll_parse hnone]
      rfl
    · refine Or.inr ⟨fun hfits => ?_, hbad⟩
      rw [hfits r hr] at hno
      cases hno
  constructor
  · rintro rfl
    obtain ⟨frames, rest, hbs, hnone⟩ := exists_parse bs.length bs (Nat.le_refl _)
    exact ⟨frames, rest, hbs, hnone, hends frames rest hbs hnone⟩
  · rintro ⟨frames, rest, hbs, hnone, hout⟩
    rcases hends frames rest hbs hnone with ⟨hfits, hok⟩ | ⟨hno, hbad⟩
    · rcases hout with ⟨-, rfl⟩ | ⟨hno, -⟩
      · exact hok
      · exact absurd hfits hno
    · rcases hout with ⟨hfits, -⟩ | ⟨-, rfl⟩
      · exact absurd hfits hno
      · exact hbad

/-! ## Files that grow -/

/-- The bytes that have been read are the frames. -/
theorem take_bytesRead {frames : List WalFrame} {rest : Bytes} (h : WalFrame.NoneAt rest) :
    (WalFrame.file frames ++ rest).take (readAll (WalFrame.file frames ++ rest)).bytesRead = WalFrame.file frames := by
  rw [readAll_parse h]
  exact List.take_left' rfl

/-- A corrupt rest stays one. -/
theorem readAll_corrupt_append {rest : Bytes} (h : (readAll rest).corruptRecord = true) (hnone : WalFrame.NoneAt rest)
    (g : Bytes) : readAll (rest ++ g) = readAll rest := by
  have hf := found_readFrame rest
  generalize hread : readFrame rest = fr at hf
  cases hf with
  | eof hnil =>
    subst hnil
    cases h
  | truncated hne hcut =>
    rw [readAll_of_truncated hread] at h
    cases h
  | corrupt hne hwhole stays => rw [readAll_of_corrupt hread, readAll_of_corrupt (stays g)]
  | record f g' hsplit => exact absurd hsplit (hnone f g')

/-- **Reading a file that has grown.**  In a memory with room for what the file then declares: the
records read before are read again, in front; behind a corrupt record nothing is ever read; and once
a file is cut off after the bytes that were read, records that are appended to it are read back. -/
theorem read_on {mem : Memory} {bs : Bytes} {res : WalReadResult} (h : readAllIn mem bs = .ok res) (mem' : Memory) :
    (∀ g, LogFits mem' (bs ++ g) → ∃ res', readAllIn mem' (bs ++ g) = .ok res' ∧ res.records <+: res'.records) ∧
    (res.corruptRecord = true → ∀ g, LogFits mem' (bs ++ g) → readAllIn mem' (bs ++ g) = .ok res) ∧
    ∀ rs : List WalRecord, (∀ r ∈ rs, r.writable = true) → LogFits mem' (bs.take res.bytesRead ++ logOf rs) →
      readAllIn mem' (bs.take res.bytesRead ++ logOf rs) =
        .ok (({ res with truncatedTail := false, corruptRecord := false } : WalReadResult).append (readOf rs)) := by
  obtain ⟨rfl, -⟩ := readAllIn_eq_ok_iff.mp h
  obtain ⟨frames, rest, rfl, hnone⟩ := exists_parse bs.length bs (Nat.le_refl _)
  have hread : readAll (WalFrame.file frames ++ rest) = parseResult frames rest := readAll_parse hnone
  refine ⟨fun g hfits => ?_, fun hcorrupt g hfits => ?_, fun rs hrs hfits => ?_⟩
  · refine ⟨_, readAllIn_eq_ok_iff.mpr ⟨rfl, hfits⟩, ?_⟩
    rw [hread, List.append_assoc, readAll_file]
    exact List.prefix_append _ _
  · refine readAllIn_eq_ok_iff.mpr ⟨?_, hfits⟩
    rw [List.append_assoc, readAll_file, readAll_file]
    have hrest : (readAll rest).corruptRecord = true := by
      rw [hread] at hcorrupt
      rw [readAll_rest hnone]
      exact hcorrupt
    rw [readAll_corrupt_append hrest hnone]
  · refine readAllIn_eq_ok_iff.mpr ⟨?_, hfits⟩
    rw [take_bytesRead hnone, readAll_file, readAll_logOf rs hrs, hread]
    rfl

/-- A begin record, three bytes of the next frame, and a commit record after these are gone. -/
theorem read_on_torn :
    readAllIn Memory.unbounded (frame { lsn := 1, txnId := 1, type := .begin } ++ [30, 0, 0]) =
      .ok { records := [{ lsn := 1, txnId := 1, type := .begin }], truncatedTail := true, bytesRead := 25
            lastValidLsn := 1 } ∧
    readAllIn Memory.unbounded ((frame { lsn := 1, txnId := 1, type := .begin } ++ [30, 0, 0]).take 25 ++
        logOf [{ lsn := 2, txnId := 1, type := .commit }]) =
      .ok { records := [{ lsn := 1, txnId := 1, type := .begin }, { lsn := 2, txnId := 1, type := .commit }]
            bytesRead := 50, lastValidLsn := 2 } := by
  have hread : readAllIn Memory.unbounded (frame { lsn := 1, txnId := 1, type := .begin } ++ [30, 0, 0]) =
      .ok { records := [{ lsn := 1, txnId := 1, type := .begin }], truncatedTail := true, bytesRead := 25
            lastValidLsn := 1 } := by decide +kernel
  refine ⟨hread, ((read_on hread Memory.unbounded).2.2 [{ lsn := 2, txnId := 1, type := .commit }] (by decide +kernel)
    fun _ _ => rfl).trans (by decide +kernel)⟩

end CoreDB
