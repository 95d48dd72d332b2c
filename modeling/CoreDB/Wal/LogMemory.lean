import CoreDB.Util.Memory
import CoreDB.Wal.Log

/-!
# Reading the log in a given memory

`DecodeBody` reserves room for as many values as an insert or update says it has, before it
reads the first of them: the count is compared with nothing.  (The length of a frame is
compared with the size of the file before a buffer is made for it.)  If the reservation fails,
`std::bad_alloc` leaves `DecodeBody` and `ReadAll`, and nothing is returned.

`decodeBodyIn_asks`: apart from memory this is `decodeBody`, and what it asks for is the count
in the body (`DeclaresValues`).
-/

namespace CoreDB

open ByteCodec Allocation

/-- `false` for a failed read. -/
def orFalse {α : Type} : Option α → Except Unit α
  | some a => .ok a
  | none => .error ()

/-! ## Bodies -/

/-- Row id, count and values; `out->row.reserve(num_values)` stands in front of the values. -/
def readRowIn (mem : Memory) (bs : Bytes) : Except (Failure Unit) (Nat × Row) := do
  let rowId ← lift (orFalse (takeLE 8 bs))
  let count ← lift (orFalse (takeLE 4 rowId.2))
  request mem ⟨.values count.1, count.2.length⟩
  let row ← lift (orFalse (readValues count.1 count.2))
  .ok (rowId.1, row.1)

def readPayloadIn (mem : Memory) (type : WalRecordType) (bs : Bytes) : Except (Failure Unit) (Nat × Row) :=
  match type with
  | .insert => readRowIn mem bs
  | .update => readRowIn mem bs
  | .delete => do
    let rowId ← lift (orFalse (takeLE 8 bs))
    .ok (rowId.1, [])
  | _ => .ok (0, [])

def decodeBodyIn (mem : Memory) (body : Bytes) : Except (Failure Unit) WalRecord := do
  let lsn ← lift (orFalse (takeLE 8 body))
  let txnId ← lift (orFalse (takeLE 8 lsn.2))
  let code ← lift (orFalse (takeLE 1 txnId.2))
  let payload ← readPayloadIn mem (.ofCode code.1) code.2
  .ok { lsn := lsn.1, txnId := txnId.1, type := .ofCode code.1, rowId := payload.1, row := payload.2 }

/-- The body is that of an insert or update, up to a count of values. -/
def DeclaresValues (body : Bytes) (r : Request) : Prop :=
  ∃ lsn txnId rowId count, ∃ type : WalRecordType, ∃ rest, lsn < 2 ^ 64 ∧ txnId < 2 ^ 64 ∧ rowId < 2 ^ 64 ∧
    count < 2 ^ 32 ∧ (type = .insert ∨ type = .update) ∧
    body = leBytes 8 lsn ++ (leBytes 8 txnId ++ (leBytes 1 type.code ++ (leBytes 8 rowId ++ (leBytes 4 count ++ rest)))) ∧
    r = ⟨.values count, rest.length⟩

/-! ## The file -/

/-- `more` bytes are left behind those in which the request is made. -/
def Request.behind (more : Nat) (r : Request) : Request := { r with unread := r.unread + more }

/-- One pass of the loop in `ReadAll`. -/
def readFrameIn (mem : Memory) (bs : Bytes) : Except (Failure Empty) FrameRead :=
  if bs = [] then .ok .eof
  else
    match takeLE 4 bs with
    | none => .ok .truncated
    | some (totalLen, bs) =>
      match takeBytes totalLen bs with
      | none => .ok .truncated
      | some (payload, rest) =>
        match takeLE 4 payload with
        | none => .ok .corrupt
        | some (storedChecksum, body) =>
          if (crc32c body).toNat ≠ storedChecksum then .ok .corrupt
          else
            settle (fun decoded =>
              match decoded with
              | .error _ => .corrupt
              | .ok r => .record r (4 + totalLen) rest)
              (decodeBodyIn (fun r => mem (r.behind rest.length)) body)

def readLoopIn (mem : Memory) : Nat → Bytes → WalReadResult → Except (Failure Empty) WalReadResult
  | 0, _, res => .ok res
  | fuel + 1, bs, res => do
    let found ← readFrameIn mem bs
    match found with
    | .eof => .ok res
    | .truncated => .ok { res with truncatedTail := true }
    | .corrupt => .ok { res with corruptRecord := true }
    | .record r len rest => readLoopIn mem fuel rest (res.push r len)

/-- `ReadAll` in a given memory. -/
def readAllIn (mem : Memory) (bs : Bytes) : Except (Failure Empty) WalReadResult :=
  readLoopIn mem (bs.length + 1) bs {}

/-- A frame with the right length and checksum around any body. -/
def framed (body : Bytes) : Bytes := leBytes 4 (4 + body.length) ++ (crcBytes (crc32c body) ++ body)

/-- A frame begins here whose body declares values. -/
def FrameDeclares (bs : Bytes) (r : Request) : Prop :=
  ∃ body rest r', 4 + body.length < 2 ^ 32 ∧ bs = framed body ++ rest ∧ DeclaresValues body r' ∧
    r = r'.behind rest.length

/-! ## What a body asks for -/

section
variable {α β : Type}

theorem orFalse_eq_ok {o : Option α} {a : α} : orFalse o = .ok a ↔ o = some a := by
  cases o <;> simp [orFalse]

theorem orFalse_eq_error {o : Option α} : orFalse o = .error () ↔ o = none := by
  cases o <;> simp [orFalse]

theorem orFalse_bind (o : Option α) (f : α → Option β) :
    orFalse (o.bind f) = orFalse o >>= fun a => orFalse (f a) := by
  cases o <;> rfl

theorem orFalse_map (o : Option α) (f : α → β) : orFalse (o.map f) = orFalse o >>= fun a => .ok (f a) := by
  cases o <;> rfl

end

section
variable (mem : Memory)

theorem readRowIn_asks (bs : Bytes) :
    Asks mem (readRowIn mem bs) (orFalse ((takeLE 8 bs).bind fun p => (takeLE 4 p.2).bind fun q =>
        (readValues q.1 q.2).map fun v => (p.1, v.1)))
      fun r => ∃ rowId count rest, rowId < 2 ^ 64 ∧ count < 2 ^ 32 ∧
        bs = leBytes 8 rowId ++ (leBytes 4 count ++ rest) ∧ r = ⟨.values count, rest.length⟩ := by
  unfold readRowIn
  simp only [orFalse_bind, orFalse_map]
  refine (asks_step fun rowId _ => asks_step fun count _ => asks_request_then
    ((asks_lift (orFalse (readValues count.1 count.2))).map fun row => (rowId.1, row.1))).congr fun r => ?_
  simp only [orFalse_eq_ok, or_false]
  constructor
  · rintro ⟨⟨rowId, bs1⟩, hid, ⟨count, rest⟩, hcount, rfl⟩
    obtain ⟨rfl, hilt⟩ := takeLE_eq_some 8 _ _ _ hid
    obtain ⟨rfl, hclt⟩ := takeLE_eq_some 4 _ _ _ hcount
    exact ⟨rowId, count, rest, hilt, hclt, rfl, rfl⟩
  · rintro ⟨rowId, count, rest, hilt, hclt, rfl, rfl⟩
    exact ⟨_, takeLE_leBytes 8 _ _ hilt, _, takeLE_leBytes 4 _ _ hclt, rfl⟩

theorem readPayloadIn_asks (type : WalRecordType) (bs : Bytes) :
    Asks mem (readPayloadIn mem type bs) (orFalse (readPayload type bs))
      fun r => (type = .insert ∨ type = .update) ∧ ∃ rowId count rest, rowId < 2 ^ 64 ∧ count < 2 ^ 32 ∧
        bs = leBytes 8 rowId ++ (leBytes 4 count ++ rest) ∧ r = ⟨.values count, rest.length⟩ := by
  unfold readPayloadIn readPayload
  cases type with
  | insert => exact (readRowIn_asks mem bs).congr fun r => by simp
  | update => exact (readRowIn_asks mem bs).congr fun r => by simp
  | delete =>
    simp only [orFalse_map]
    exact ((asks_lift (orFalse (takeLE 8 bs))).map fun rowId => (rowId.1, [])).congr fun r => by simp
  | _ => exact (asks_lift (.ok (0, []))).congr fun r => by simp

/-- **A body** asks for as many values as it declares. -/
theorem decodeBodyIn_asks (body : Bytes) :
    Asks mem (decodeBodyIn mem body) (orFalse (decodeBody body)) (DeclaresValues body) := by
  unfold decodeBodyIn decodeBody
  simp only [orFalse_bind, orFalse_map]
  refine (asks_step fun lsn _ => asks_step fun txnId _ => asks_step fun code _ =>
    (readPayloadIn_asks mem (.ofCode code.1) code.2).map fun payload =>
      ({ lsn := lsn.1, txnId := txnId.1, type := .ofCode code.1, rowId := payload.1, row := payload.2 } :
        WalRecord)).congr fun r => ?_
  simp only [orFalse_eq_ok]
  constructor
  · rintro ⟨⟨lsn, bs1⟩, hlsn, ⟨txnId, bs2⟩, htxn, ⟨code, bs3⟩, hcode, htype, rowId, count, rest, hilt, hclt, rfl, rfl⟩
    obtain ⟨rfl, hllt⟩ := takeLE_eq_some 8 _ _ _ hlsn
    obtain ⟨rfl, htlt⟩ := takeLE_eq_some 8 _ _ _ htxn
    obtain ⟨rfl, -⟩ := takeLE_eq_some 1 _ _ _ hcode
    exact ⟨lsn, txnId, rowId, count, _, rest, hllt, htlt, hilt, hclt, htype, by rw [WalRecordType.code_ofCode], rfl⟩
  · rintro ⟨lsn, txnId, rowId, count, type, rest, hllt, htlt, hilt, hclt, htype, rfl, rfl⟩
    have hcode : type.code < 256 ^ 1 := by rcases htype with rfl | rfl <;> decide
    have hback : WalRecordType.ofCode type.code = type := by rcases htype with rfl | rfl <;> rfl
    exact ⟨_, takeLE_leBytes 8 _ _ hllt, _, takeLE_leBytes 8 _ _ htlt, _, takeLE_leBytes 1 _ _ hcode,
      by rw [hback]; exact htype, rowId, count, rest, hilt, hclt, rfl, rfl⟩

/-! ## What a frame asks for -/

theorem framed_append_inj {body body' rest rest' : Bytes} (h : 4 + body.length < 2 ^ 32) (h' : 4 + body'.length < 2 ^ 32)
    (heq : framed body ++ rest = framed body' ++ rest') : body = body' ∧ rest = rest' := by
  simp only [framed, List.append_assoc] at heq
  have htake := congrArg (takeLE 4) heq
  rw [takeLE_leBytes 4 _ _ h, takeLE_leBytes 4 _ _ h', Option.some.injEq, Prod.mk.injEq] at htake
  obtain ⟨hlen, htail⟩ := htake
  exact List.append_inj (List.append_inj htail (by simp [crcBytes])).2 (by omega)

theorem readFrameIn_framed (body rest : Bytes) (h : 4 + body.length < 2 ^ 32) :
    readFrameIn mem (framed body ++ rest) =
      settle (fun decoded =>
        match decoded with
        | .error _ => .corrupt
        | .ok r => .record r (4 + (4 + body.length)) rest) (decodeBodyIn (fun r => mem (r.behind rest.length)) body) := by
  have hne : framed body ++ rest ≠ [] := by
    intro hnil
    have hz := congrArg List.length hnil
    simp [framed] at hz
  have hpay : takeBytes (4 + body.length) (crcBytes (crc32c body) ++ body ++ rest) =
      some (crcBytes (crc32c body) ++ body, rest) := takeBytes_append_of_length _ _ _ (by simp [crcBytes])
  have hcrc : takeLE 4 (crcBytes (crc32c body) ++ body) = some ((crc32c body).toNat, body) :=
    takeLE_leBytes 4 _ _ (crc32c body).isLt
  have hlen : takeLE 4 (framed body ++ rest) = some (4 + body.length, crcBytes (crc32c body) ++ body ++ rest) := by
    rw [framed, List.append_assoc]
    exact takeLE_leBytes 4 _ _ h
  unfold readFrameIn
  rw [if_neg hne]
  simp only [hlen, hpay, hcrc]
  rw [if_neg (not_not_intro rfl)]

/-- Where no frame with the right length and checksum begins, nothing is decoded. -/
theorem readFrameIn_of_not_framed {bs : Bytes}
    (h : ¬ ∃ body rest, 4 + body.length < 2 ^ 32 ∧ bs = framed body ++ rest) :
    readFrameIn mem bs = .ok (readFrame bs) := by
  unfold readFrameIn readFrame
  by_cases hnil : bs = []
  · rw [if_pos hnil, if_pos hnil]
  rw [if_neg hnil, if_neg hnil]
  cases hlen : takeLE 4 bs with
  | none => simp
  | some p =>
    obtain ⟨totalLen, tail⟩ := p
    cases hpay : takeBytes totalLen tail with
    | none => simp [hpay]
    | some q =>
      obtain ⟨payload, rest⟩ := q
      cases hcrc : takeLE 4 payload with
      | none => simp [hpay, hcrc]
      | some s =>
        obtain ⟨stored, body⟩ := s
        by_cases hsame : (crc32c body).toNat ≠ stored
        · simp [hpay, hcrc, hsame]
        · -- the frame would be one of those that are excluded
          refine absurd ⟨body, rest, ?_⟩ h
          rw [not_not] at hsame
          subst hsame
          obtain ⟨rfl, hlt⟩ := takeLE_eq_some 4 _ _ _ hlen
          obtain ⟨rfl, rfl⟩ := takeBytes_eq_some _ _ _ _ hpay
          obtain ⟨rfl, -⟩ := takeLE_eq_some 4 _ _ _ hcrc
          rw [List.length_append, length_leBytes] at hlt ⊢
          exact ⟨hlt, by simp [framed, crcBytes]⟩

theorem readFrameIn_asks (bs : Bytes) : Asks mem (readFrameIn mem bs) (.ok (readFrame bs)) (FrameDeclares bs) := by
  by_cases h : ∃ body rest, 4 + body.length < 2 ^ 32 ∧ bs = framed body ++ rest
  · obtain ⟨body, rest, hlen, rfl⟩ := h
    have hplain : readFrame (framed body ++ rest) =
        match orFalse (decodeBody body) with
        | .error _ => .corrupt
        | .ok r => .record r (4 + (4 + body.length)) rest := by
      refine (readFrame_whole _ body rest hlen (crc32c body).isLt).trans ?_
      rw [if_neg (not_not_intro rfl)]
      cases decodeBody body <;> rfl
    rw [hplain, readFrameIn_framed mem body rest hlen]
    refine ((decodeBodyIn_asks _ body).settle _).rename.congr fun r => ?_
    constructor
    · rintro ⟨r', hr, rfl⟩
      exact ⟨body, rest, r', hlen, rfl, hr, rfl⟩
    · rintro ⟨body', rest', r', hlen', heq, hr, rfl⟩
      obtain ⟨rfl, rfl⟩ := framed_append_inj hlen hlen' heq
      exact ⟨r', hr, rfl⟩
  · rw [readFrameIn_of_not_framed mem h]
    refine (asks_lift (.ok (readFrame bs))).congr fun r => iff_of_false id ?_
    rintro ⟨body, rest, r', hlen, rfl, -⟩
    exact h ⟨body, rest, hlen, rfl⟩

end

end CoreDB
