import CoreDB.Wal.LongestParse

/-!
# What `DecodeBody` accepts

A body is its fields and nothing else: 17 bytes, with a row id and values as the type
asks.  `DecodeBody` never looks at what follows its last field, it takes a type byte
without a name for a record without payload, and it reserves room for as many values as
the body declares before it knows whether they are there.  `decodeBody_grammar_iff`: those
three are all that goes wrong.
-/

namespace CoreDB

open ByteCodec Allocation

/-- `DecodeBody` returns: with a record of one of the six types whose body this is, or with false,
and then a reader that has room for what the log declares stops in front of a frame that holds it. -/
def AcceptsOnlyGrammar (mem : Memory) (body : Bytes) : Prop :=
  (∃ r : WalRecord, decodeBodyIn mem body = .ok r ∧ r.type.named = true ∧ encodeBody r = body) ∨
    (decodeBodyIn mem body = .error (.error ()) ∧
      ∀ (m : Memory) (rs : List WalRecord) (rest : Bytes), (∀ r ∈ rs, r.writable = true) → 4 + body.length < 2 ^ 32 →
        LogFits m (logOf rs ++ framed body ++ rest) →
          ∃ res, readAllIn m (logOf rs ++ framed body ++ rest) = .ok res ∧ res.records = rs.map WalRecord.stored ∧
            res.corruptRecord = true)

/-- As many values as the body declares can be allocated. -/
def CountFits (mem : Memory) (body : Bytes) : Prop := ∀ r, DeclaresValues body r → mem r = true

/-! ## Where the fields end -/

/-- Row id, count and as many values as the count says: they do not end before `bs` does. -/
def rowFillsBody (bs : Bytes) : Bool :=
  decide (bs.length < 12) ||
    (readValues (leVal ((bs.drop 8).take 4)) (bs.drop 12)).all fun p => p.2.isEmpty

/-- The fields the type asks for do not end before `bs` does. -/
def payloadFillsBody (type : WalRecordType) (bs : Bytes) : Bool :=
  match type with
  | .insert => rowFillsBody bs
  | .update => rowFillsBody bs
  | .delete => decide (bs.length ≤ 8)
  | .other _ => false
  | _ => bs.isEmpty

/-- The type byte has a name, and no byte follows the last field. -/
def nothingBehindFields (body : Bytes) : Bool :=
  decide (body.length < 17) || payloadFillsBody (.ofCode (body.getD 16 0).toNat) (body.drop 17)

/-- A body of at least 17 bytes, in pieces. -/
theorem body_split {body : Bytes} (h : 17 ≤ body.length) : ∃ lsn txnId rest,
    lsn < 256 ^ 8 ∧ txnId < 256 ^ 8 ∧
      body = leBytes 8 lsn ++ (leBytes 8 txnId ++ (leBytes 1 (body.getD 16 0).toNat ++ rest)) ∧
      body.drop 17 = rest := by
  have hl : (body.take 8).length = 8 := by rw [List.length_take]; omega
  have ht : ((body.drop 8).take 8).length = 8 := by rw [List.length_take, List.length_drop]; omega
  have hbyte : body.drop 16 = leBytes 1 (body.getD 16 0).toNat ++ body.drop 17 := by
    rw [List.drop_eq_getElem_cons (by omega : 16 < body.length), List.getD_eq_getElem?_getD,
      List.getElem?_eq_getElem (by omega)]
    simp [leBytes]
  refine ⟨leVal (body.take 8), leVal ((body.drop 8).take 8), body.drop 17, ?_, ?_, ?_, rfl⟩
  · have := leVal_lt (body.take 8)
    rwa [hl] at this
  · have := leVal_lt ((body.drop 8).take 8)
    rwa [ht] at this
  · have h1 := leBytes_leVal (body.take 8)
    have h2 := leBytes_leVal ((body.drop 8).take 8)
    rw [hl] at h1
    rw [ht] at h2
    rw [h1, h2, ← hbyte]
    have hdrop : body.drop 16 = (body.drop 8).drop 8 := by rw [List.drop_drop]
    rw [hdrop, List.take_append_drop, List.take_append_drop]

/-! ## The payload -/

/-- A row that was read is all of `bs` exactly when nothing is left behind its last value. -/
theorem rowFillsBody_iff (bs : Bytes) :
    (∀ rowId row, ((takeLE 8 bs).bind fun p => (takeLE 4 p.2).bind fun q =>
        (readValues q.1 q.2).map fun v => (p.1, v.1)) = some (rowId, row) →
      leBytes 8 rowId ++ (leBytes 4 row.length ++ row.flatMap appendValue) = bs) ↔
    rowFillsBody bs = true := by
  by_cases hshort : bs.length < 12
  · have hnone : ((takeLE 8 bs).bind fun p => (takeLE 4 p.2).bind fun q =>
        (readValues q.1 q.2).map fun v => (p.1, v.1)) = none := by
      by_cases h8 : bs.length < 8
      · rw [takeLE_eq_none 8 bs h8, Option.bind_none]
      · rw [takeLE, takeBytes, if_pos (by omega), Option.map_some, Option.bind_some,
          takeLE_eq_none 4 _ (by rw [List.length_drop]; omega), Option.bind_none]
    rw [hnone, rowFillsBody, decide_eq_true hshort, Bool.true_or]
    exact iff_of_true (by simp) rfl
  · have hid : takeLE 8 bs = some (leVal (bs.take 8), bs.drop 8) := by
      rw [takeLE, takeBytes, if_pos (by omega), Option.map_some]
    have hcount : takeLE 4 (bs.drop 8) = some (leVal ((bs.drop 8).take 4), bs.drop 12) := by
      rw [takeLE, takeBytes, if_pos (by rw [List.length_drop]; omega), Option.map_some, List.drop_drop]
    rw [rowFillsBody, decide_eq_false hshort, Bool.false_or, hid, Option.bind_some]
    dsimp only
    rw [hcount, Option.bind_some]
    dsimp only
    cases hvals : readValues (leVal ((bs.drop 8).take 4)) (bs.drop 12) with
    | none => simp
    | some p =>
      obtain ⟨row, tail⟩ := p
      obtain ⟨hbs8, -⟩ := takeLE_eq_some 8 _ _ _ hid
      obtain ⟨hbs4, -⟩ := takeLE_eq_some 4 _ _ _ hcount
      obtain ⟨hrow, hlen, -⟩ := readValues_eq_some _ hvals
      have hall : bs = leBytes 8 (leVal (bs.take 8)) ++
          (leBytes 4 row.length ++ row.flatMap appendValue) ++ tail := by
        rw [hlen, List.append_assoc, List.append_assoc, ← hrow, ← hbs4, ← hbs8]
      simp only [Option.map_some, Option.some.injEq, Prod.mk.injEq, Option.all_some, List.isEmpty_iff]
      constructor
      · intro h
        have hsame := h _ _ ⟨rfl, rfl⟩
        have hlength := congrArg List.length (hall.symm.trans hsame.symm)
        rw [List.length_append] at hlength
        exact List.length_eq_zero_iff.mp (by omega)
      · rintro rfl rowId row' ⟨rfl, rfl⟩
        rw [List.append_nil] at hall
        exact hall.symm

/-- The payload of the record that is read is all of `bs`, and its type has a name. -/
theorem payloadFillsBody_iff (type : WalRecordType) (bs : Bytes) (lsn txnId : Nat) :
    (∀ rowId row, readPayload type bs = some (rowId, row) →
      type.named = true ∧ ({ lsn, txnId, type, rowId, row } : WalRecord).payload = bs) ↔
    payloadFillsBody type bs = true := by
  cases type with
  | insert =>
    refine Iff.trans ?_ (rowFillsBody_iff bs)
    exact ⟨fun h rowId row hr => (h rowId row hr).2, fun h rowId row hr => ⟨rfl, h rowId row hr⟩⟩
  | update =>
    refine Iff.trans ?_ (rowFillsBody_iff bs)
    exact ⟨fun h rowId row hr => (h rowId row hr).2, fun h rowId row hr => ⟨rfl, h rowId row hr⟩⟩
  | delete =>
    rw [payloadFillsBody, decide_eq_true_iff]
    by_cases h8 : bs.length < 8
    · rw [readPayload, takeLE_eq_none 8 bs h8]
      exact iff_of_true (by simp) (by omega)
    · have hid : takeLE 8 bs = some (leVal (bs.take 8), bs.drop 8) := by
        rw [takeLE, takeBytes, if_pos (by omega), Option.map_some]
      obtain ⟨hbs, -⟩ := takeLE_eq_some 8 _ _ _ hid
      rw [readPayload, hid, Option.map_some]
      constructor
      · intro h
        have hlength := congrArg List.length (h _ _ rfl).2
        rw [WalRecord.payload, length_leBytes] at hlength
        omega
      · rintro hle rowId row heq
        cases heq
        rw [List.drop_eq_nil_of_le hle, List.append_nil] at hbs
        exact ⟨rfl, hbs.symm⟩
  | other c =>
    refine iff_of_false (fun h => ?_) Bool.false_ne_true
    exact absurd (h 0 [] rfl).1 Bool.false_ne_true
  | _ =>
    refine Iff.trans ?_ List.isEmpty_iff.symm
    constructor
    · intro h
      exact (h 0 [] rfl).2.symm
    · rintro rfl rowId row heq
      cases heq
      exact ⟨rfl, rfl⟩

/-! ## Whole bodies -/

theorem decodeBody_of_short {body : Bytes} (h : body.length < 17) : decodeBody body = none := by
  cases hdec : decodeBody body with
  | none => rfl
  | some r =>
    have := length_decodeBody hdec
    omega

/-- Decoding a body from its pieces. -/
theorem decodeBody_pieces {lsn txnId : Nat} (c : UInt8) (rest : Bytes) (hl : lsn < 256 ^ 8) (ht : txnId < 256 ^ 8) :
    decodeBody (leBytes 8 lsn ++ (leBytes 8 txnId ++ (leBytes 1 c.toNat ++ rest))) =
      (readPayload (.ofCode c.toNat) rest).map fun p =>
        { lsn, txnId, type := .ofCode c.toNat, rowId := p.1, row := p.2 } := by
  unfold decodeBody
  rw [takeLE_leBytes 8 _ _ hl, Option.bind_some, takeLE_leBytes 8 _ _ ht, Option.bind_some,
    takeLE_leBytes 1 _ _ c.toNat_lt, Option.bind_some]

theorem decodes_only_records_iff (body : Bytes) :
    (∀ r, decodeBody body = some r → r.type.named = true ∧ encodeBody r = body) ↔
      nothingBehindFields body = true := by
  by_cases hshort : body.length < 17
  · rw [decodeBody_of_short hshort, nothingBehindFields, decide_eq_true hshort, Bool.true_or]
    exact iff_of_true (by simp) rfl
  · obtain ⟨lsn, txnId, rest, hl, ht, hbody, hrest⟩ := body_split (Nat.le_of_not_lt hshort)
    rw [nothingBehindFields, decide_eq_false hshort, Bool.false_or, hrest,
      ← payloadFillsBody_iff _ rest lsn txnId]
    generalize body.getD 16 0 = c at hbody
    rw [hbody, decodeBody_pieces c rest hl ht]
    have hencode : ∀ rowId row, encodeBody { lsn, txnId, type := .ofCode c.toNat, rowId, row } =
        leBytes 8 lsn ++ (leBytes 8 txnId ++ (leBytes 1 c.toNat ++
          ({ lsn, txnId, type := .ofCode c.toNat, rowId, row } : WalRecord).payload)) := by
      intro rowId row
      rw [encodeBody, WalRecordType.code_ofCode]
    constructor
    · intro h rowId row hp
      obtain ⟨hnamed, henc⟩ := h _ (by rw [hp, Option.map_some])
      rw [hencode] at henc
      exact ⟨hnamed, List.append_cancel_left (List.append_cancel_left (List.append_cancel_left henc))⟩
    · intro h r hr
      obtain ⟨⟨rowId, row⟩, hp, rfl⟩ := Option.map_eq_some_iff.mp hr
      obtain ⟨hnamed, hpay⟩ := h rowId row hp
      exact ⟨hnamed, by rw [hencode, hpay]⟩

/-- A reader stops in front of a body that is not decoded. -/
theorem readAll_refused {body : Bytes} (h : decodeBody body = none) {rs : List WalRecord}
    (hrs : ∀ r ∈ rs, r.writable = true) (hlen : 4 + body.length < 2 ^ 32) (rest : Bytes) :
    (readAll (logOf rs ++ framed body ++ rest)).records = rs.map WalRecord.stored ∧
      (readAll (logOf rs ++ framed body ++ rest)).corruptRecord = true := by
  have hcorrupt : readFrame (framed body ++ rest) = .corrupt := by
    refine (readFrame_whole _ body rest hlen (crc32c body).isLt).trans ?_
    rw [if_neg (not_not_intro rfl), h]
  rw [List.append_assoc, readAll_log rs hrs, readAll_of_corrupt hcorrupt]
  exact ⟨List.append_nil _, rfl⟩

/-- **What `DecodeBody` lets through.**  It keeps to the grammar exactly on the bodies whose type
byte has a name, which end with their last field, and whose count of values can be allocated. -/
theorem decodeBody_grammar_iff (mem : Memory) (body : Bytes) :
    AcceptsOnlyGrammar mem body ↔ nothingBehindFields body = true ∧ CountFits mem body := by
  rw [← decodes_only_records_iff]
  have hasks := decodeBodyIn_asks mem body
  constructor
  · rintro (⟨r, hok, hnamed, henc⟩ | ⟨hfalse, -⟩)
    · obtain ⟨hdec, hfits⟩ := hasks.eq_ok_iff.mp hok
      rw [orFalse_eq_ok] at hdec
      refine ⟨fun r' hr' => ?_, hfits⟩
      rw [hdec, Option.some.injEq] at hr'
      subst hr'
      exact ⟨hnamed, henc⟩
    · obtain ⟨hdec, hfits⟩ := hasks.eq_error_iff.mp hfalse
      rw [orFalse_eq_error] at hdec
      refine ⟨fun r' hr' => ?_, hfits⟩
      rw [hdec] at hr'
      cases hr'
  · rintro ⟨h, hfits⟩
    cases hdec : decodeBody body with
    | some r => exact Or.inl ⟨r, hasks.eq_ok_iff.mpr ⟨orFalse_eq_ok.mpr hdec, hfits⟩, h r hdec⟩
    | none =>
      refine Or.inr ⟨hasks.eq_error_iff.mpr ⟨orFalse_eq_error.mpr hdec, hfits⟩, ?_⟩
      intro m rs rest hrs hlen hlog
      exact ⟨_, readAllIn_eq_ok_iff.mpr ⟨rfl, hlog⟩, readAll_refused hdec hrs hlen rest⟩

/-- An insert of 2³² - 1 values: 29 bytes, of which none is a value. -/
def hugeCount : Bytes :=
  leBytes 8 3 ++ (leBytes 8 1 ++ (leBytes 1 WalRecordType.insert.code ++ (leBytes 8 1 ++ leBytes 4 (2 ^ 32 - 1))))

/-- In 16 GiB.  A commit followed by one byte, and a type byte of 9: both are decoded, and passed on
by the reader.  An insert that declares 2³² - 1 values: neither `DecodeBody` nor the reader returns. -/
theorem decodeBody_leaves_grammar :
    ¬ AcceptsOnlyGrammar (Memory.upTo (2 ^ 34)) (encodeBody { lsn := 3, txnId := 1, type := .commit } ++ [0]) ∧
      ¬ AcceptsOnlyGrammar (Memory.upTo (2 ^ 34)) (encodeBody { lsn := 3, txnId := 1, type := .other 9 }) ∧
      (readAllIn (Memory.upTo (2 ^ 34)) (framed (encodeBody { lsn := 3, txnId := 1, type := .other 9 }))).toOption.map
        (·.records) = some [{ lsn := 3, txnId := 1, type := .other 9 }] ∧
      ¬ AcceptsOnlyGrammar (Memory.upTo (2 ^ 34)) hugeCount ∧
      readAllIn (Memory.upTo (2 ^ 34)) (framed hugeCount) = .error .badAlloc := by
  have hcommit : decodeBodyIn (Memory.upTo (2 ^ 34)) (encodeBody { lsn := 3, txnId := 1, type := .commit } ++ [0]) =
      .ok { lsn := 3, txnId := 1, type := .commit } := by decide +kernel
  have hother : decodeBodyIn (Memory.upTo (2 ^ 34)) (encodeBody { lsn := 3, txnId := 1, type := .other 9 }) =
      .ok { lsn := 3, txnId := 1, type := .other 9 } := by decide +kernel
  have hhuge : decodeBodyIn (Memory.upTo (2 ^ 34)) hugeCount = .error .badAlloc := by decide +kernel
  refine ⟨?_, ?_, by decide +kernel, ?_, by decide +kernel⟩
  · rintro (⟨r, hok, -, henc⟩ | ⟨hfalse, -⟩)
    · rw [hcommit, Except.ok.injEq] at hok
      subst hok
      exact absurd henc (by decide +kernel)
    · rw [hcommit] at hfalse
      cases hfalse
  · rintro (⟨r, hok, hnamed, -⟩ | ⟨hfalse, -⟩)
    · rw [hother, Except.ok.injEq] at hok
      subst hok
      cases hnamed
    · rw [hother] at hfalse
      cases hfalse
  · rintro (⟨r, hok, -⟩ | ⟨hfalse, -⟩)
    · rw [hhuge] at hok
      cases hok
    · rw [hhuge] at hfalse
      cases hfalse

end CoreDB
