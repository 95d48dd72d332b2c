import CoreDB.Storage.Types

/-!
# WAL records (`wal/record.h`, `wal/record.cpp`)

A record's body is its LSN, transaction id and type, then the row id and the row of
an insert or update, or the row id of a delete.  `DecodeBody` takes the pieces off
the front again; it ignores what follows them, and a type byte it does not know is
a record without payload.  Memory is taken as granted here: `DecodeBody` with the room it
reserves for the values is `decodeBodyIn` in `Wal.LogMemory`.

`decodeBody_encodeBody`: a body reads back as the record, less the fields its type
does not store.  `decodeBody_eq_some`: what decodes begins with the body of the
decoded record.
-/

namespace CoreDB

open ByteCodec

inductive WalRecordType where
  | begin
  | insert
  | update
  | delete
  | commit
  | abort
  /-- A type byte without a name. -/
  | other (code : Nat)
deriving DecidableEq, Repr

namespace WalRecordType

def code : WalRecordType → Nat
  | .begin => 1
  | .insert => 2
  | .update => 3
  | .delete => 4
  | .commit => 5
  | .abort => 6
  | .other c => c

/-- `static_cast<WalRecordType>`. -/
def ofCode : Nat → WalRecordType
  | 1 => .begin
  | 2 => .insert
  | 3 => .update
  | 4 => .delete
  | 5 => .commit
  | 6 => .abort
  | c => .other c

/-- One of the six types of the log. -/
def named : WalRecordType → Bool
  | .other _ => false
  | _ => true

/-- Insert, update or delete. -/
def isData : WalRecordType → Bool
  | .insert => true
  | .update => true
  | .delete => true
  | _ => false

theorem ofCode_code {t : WalRecordType} (h : t.named = true) : ofCode t.code = t := by
  cases t <;> first | rfl | cases h

theorem code_ofCode (c : Nat) : (ofCode c).code = c := by
  unfold ofCode
  split <;> rfl

end WalRecordType

/-- `row` is only meaningful for inserts and updates, `rowId` also for deletes. -/
structure WalRecord where
  lsn : Nat := 0
  txnId : Nat := 0
  type : WalRecordType := .begin
  rowId : Nat := 0
  row : Row := []
deriving DecidableEq, Repr

/-! ## Values -/

/-- The tag byte of a value, then its bytes; a string has its length in front. -/
def appendValue : Value → Bytes
  | .null => [0]
  | .int32 v => 1 :: leBytes 4 v.toNat
  | .int64 v => 2 :: leBytes 8 v.toNat
  | .double d => 3 :: leBytes 8 d.toNat
  | .string s => 4 :: (leBytes 4 s.length ++ s)

def readValue : Bytes → Option (Value × Bytes)
  | [] => none
  | tag :: bs =>
    match tag.toNat with
    | 0 => some (.null, bs)
    | 1 => (takeLE 4 bs).map fun p => (.int32 (BitVec.ofNat 32 p.1), p.2)
    | 2 => (takeLE 8 bs).map fun p => (.int64 (BitVec.ofNat 64 p.1), p.2)
    | 3 => (takeLE 8 bs).map fun p => (.double (BitVec.ofNat 64 p.1), p.2)
    | 4 => (takeString bs).map fun p => (.string p.1, p.2)
    | _ => none

def readValues : Nat → Bytes → Option (Row × Bytes)
  | 0, bs => some ([], bs)
  | n + 1, bs => (readValue bs).bind fun p => (readValues n p.2).map fun q => (p.1 :: q.1, q.2)

/-! ## Bodies -/

def WalRecord.payload (r : WalRecord) : Bytes :=
  match r.type with
  | .insert => leBytes 8 r.rowId ++ (leBytes 4 r.row.length ++ r.row.flatMap appendValue)
  | .update => leBytes 8 r.rowId ++ (leBytes 4 r.row.length ++ r.row.flatMap appendValue)
  | .delete => leBytes 8 r.rowId
  | _ => []

def encodeBody (r : WalRecord) : Bytes :=
  leBytes 8 r.lsn ++ (leBytes 8 r.txnId ++ (leBytes 1 r.type.code ++ r.payload))

/-- Row id and row, as the type has them. -/
def readPayload (type : WalRecordType) (bs : Bytes) : Option (Nat × Row) :=
  match type with
  | .insert => (takeLE 8 bs).bind fun p => (takeLE 4 p.2).bind fun q => (readValues q.1 q.2).map fun v => (p.1, v.1)
  | .update => (takeLE 8 bs).bind fun p => (takeLE 4 p.2).bind fun q => (readValues q.1 q.2).map fun v => (p.1, v.1)
  | .delete => (takeLE 8 bs).map fun p => (p.1, [])
  | _ => some (0, [])

/-- With room for as many values as the body declares, which the source reserves before it reads
the first (`decodeBodyIn`). -/
def decodeBody (body : Bytes) : Option WalRecord :=
  (takeLE 8 body).bind fun l => (takeLE 8 l.2).bind fun t => (takeLE 1 t.2).bind fun c =>
    (readPayload (.ofCode c.1) c.2).map fun p =>
      { lsn := l.1, txnId := t.1, type := .ofCode c.1, rowId := p.1, row := p.2 }

/-! ## What fits the fields -/

def Value.fits : Value → Bool
  | .string s => decide (s.length < 2 ^ 32)
  | _ => true

/-- The numbers fit their 64-bit fields, the lengths their 32-bit ones. -/
def WalRecord.fits (r : WalRecord) : Bool :=
  decide (r.lsn < 2 ^ 64 ∧ r.txnId < 2 ^ 64 ∧ r.rowId < 2 ^ 64 ∧ r.row.length < 2 ^ 32 ∧
    r.type.code < 2 ^ 8) && r.row.all Value.fits

/-- The record as its type stores it. -/
def WalRecord.stored (r : WalRecord) : WalRecord :=
  match r.type with
  | .insert => r
  | .update => r
  | .delete => { r with row := [] }
  | _ => { r with rowId := 0, row := [] }

/-! ## Reading back -/

theorem readValue_appendValue (v : Value) (rest : Bytes) (h : v.fits = true) :
    readValue (appendValue v ++ rest) = some (v, rest) := by
  cases v with
  | null => rfl
  | int32 v =>
    have hlt : v.toNat < 256 ^ 4 := v.isLt
    simp [appendValue, readValue, takeLE_leBytes 4 _ _ hlt]
  | int64 v =>
    have hlt : v.toNat < 256 ^ 8 := v.isLt
    simp [appendValue, readValue, takeLE_leBytes 8 _ _ hlt]
  | double d =>
    have hlt : d.toNat < 256 ^ 8 := d.isLt
    simp [appendValue, readValue, takeLE_leBytes 8 _ _ hlt]
  | string s =>
    have hs := takeString_append s rest (by simpa [Value.fits] using h)
    simp only [appendValue, List.cons_append, readValue, UInt8.reduceToNat, hs, Option.map_some]

/-- A fixed-width number that was read was written that way. -/
theorem takeLE_word {w n : Nat} {bs rest : Bytes} (h : takeLE n bs = some (w, rest)) (k : Nat)
    (hk : 256 ^ n = 2 ^ k) : bs = leBytes n (BitVec.ofNat k w).toNat ++ rest := by
  obtain ⟨hbs, hlt⟩ := takeLE_eq_some n w bs rest h
  rw [BitVec.toNat_ofNat, Nat.mod_eq_of_lt (by omega)]
  exact hbs

theorem readValue_eq_some {bs rest : Bytes} {v : Value} (h : readValue bs = some (v, rest)) :
    bs = appendValue v ++ rest ∧ v.fits = true := by
  cases bs with
  | nil => cases h
  | cons tag bs =>
    have htag : UInt8.ofNat tag.toNat = tag := UInt8.ofNat_toNat
    simp only [readValue] at h
    split at h
    · next ht =>
      cases h
      exact ⟨by rw [← htag, ht]; rfl, rfl⟩
    · next ht =>
      obtain ⟨⟨w, bs1⟩, hw, heq⟩ := Option.map_eq_some_iff.mp h
      cases heq
      exact ⟨by rw [takeLE_word hw 32 (by decide), ← htag, ht]; rfl, rfl⟩
    · next ht =>
      obtain ⟨⟨w, bs1⟩, hw, heq⟩ := Option.map_eq_some_iff.mp h
      cases heq
      exact ⟨by rw [takeLE_word hw 64 (by decide), ← htag, ht]; rfl, rfl⟩
    · next ht =>
      obtain ⟨⟨w, bs1⟩, hw, heq⟩ := Option.map_eq_some_iff.mp h
      cases heq
      exact ⟨by rw [takeLE_word hw 64 (by decide), ← htag, ht]; rfl, rfl⟩
    · next ht =>
      obtain ⟨⟨s, bs1⟩, hs, heq⟩ := Option.map_eq_some_iff.mp h
      cases heq
      obtain ⟨rfl, hlt⟩ := takeString_eq_some hs
      exact ⟨by rw [← htag, ht]; rfl, by simpa [Value.fits] using hlt⟩
    · cases h

theorem readValues_append (row : Row) (rest : Bytes) (h : row.all Value.fits = true) :
    readValues row.length (row.flatMap appendValue ++ rest) = some (row, rest) := by
  induction row with
  | nil => rfl
  | cons v row ih =>
    rw [List.all_cons, Bool.and_eq_true] at h
    simp [readValues, List.append_assoc, readValue_appendValue v _ h.1, ih h.2]

theorem readValues_eq_some : ∀ (n : Nat) {bs rest : Bytes} {row : Row}, readValues n bs = some (row, rest) →
    bs = row.flatMap appendValue ++ rest ∧ row.length = n ∧ row.all Value.fits = true
  | 0, bs, rest, row, h => by
    cases h
    exact ⟨rfl, rfl, rfl⟩
  | n + 1, bs, rest, row, h => by
    unfold readValues at h
    obtain ⟨⟨v, bs1⟩, hv, h⟩ := Option.bind_eq_some_iff.mp h
    obtain ⟨⟨vs, bs2⟩, hvs, heq⟩ := Option.map_eq_some_iff.mp h
    cases heq
    obtain ⟨rfl, hfit⟩ := readValue_eq_some hv
    obtain ⟨rfl, hlen, hfits⟩ := readValues_eq_some n hvs
    refine ⟨by simp, by simp [hlen], ?_⟩
    rw [List.all_cons, hfit, hfits]
    rfl

section
variable {r : WalRecord}

theorem readPayload_append (g : Bytes) (hf : r.fits = true) :
    readPayload r.type (r.payload ++ g) = some (r.stored.rowId, r.stored.row) := by
  unfold WalRecord.fits at hf
  rw [Bool.and_eq_true, decide_eq_true_iff] at hf
  obtain ⟨⟨-, -, hid, hlen, -⟩, hvals⟩ := hf
  have h8 : r.rowId < 256 ^ 8 := hid
  have h4 : r.row.length < 256 ^ 4 := hlen
  unfold readPayload WalRecord.payload WalRecord.stored
  cases r.type <;>
    simp [List.append_assoc, takeLE_leBytes 8 _ _ h8, takeLE_leBytes 4 _ _ h4, readValues_append _ _ hvals]

/-- **A body reads back**, whatever follows it. -/
theorem decodeBody_encodeBody (g : Bytes) (hf : r.fits = true) (hn : r.type.named = true) :
    decodeBody (encodeBody r ++ g) = some r.stored := by
  have hpay := readPayload_append g hf
  unfold WalRecord.fits at hf
  rw [Bool.and_eq_true, decide_eq_true_iff] at hf
  obtain ⟨⟨hlsn, htxn, -, -, hcode⟩, -⟩ := hf
  unfold decodeBody encodeBody
  simp only [List.append_assoc]
  rw [takeLE_leBytes 8 _ _ hlsn, Option.bind_some, takeLE_leBytes 8 _ _ htxn, Option.bind_some,
    takeLE_leBytes 1 _ _ hcode, Option.bind_some, WalRecordType.ofCode_code hn, hpay, Option.map_some]
  cases r with
  | mk lsn txnId type rowId row => cases type <;> rfl

end

theorem readPayload_eq_some {type : WalRecordType} {bs : Bytes} {rowId : Nat} {row : Row}
    (h : readPayload type bs = some (rowId, row)) (lsn txnId : Nat) :
    let r : WalRecord := { lsn, txnId, type, rowId, row }
    (∃ g, bs = r.payload ++ g) ∧ rowId < 2 ^ 64 ∧ row.length < 2 ^ 32 ∧ row.all Value.fits = true ∧ r.stored = r := by
  have hrow : ∀ bs : Bytes, ((takeLE 8 bs).bind fun p => (takeLE 4 p.2).bind fun q =>
      (readValues q.1 q.2).map fun v => (p.1, v.1)) = some (rowId, row) →
      (∃ g, bs = leBytes 8 rowId ++ (leBytes 4 row.length ++ row.flatMap appendValue) ++ g) ∧
        rowId < 2 ^ 64 ∧ row.length < 2 ^ 32 ∧ row.all Value.fits = true := by
    intro bs h
    obtain ⟨⟨x, bs1⟩, hx, h⟩ := Option.bind_eq_some_iff.mp h
    obtain ⟨⟨n, bs2⟩, hn, h⟩ := Option.bind_eq_some_iff.mp h
    obtain ⟨⟨vs, g⟩, hvs, heq⟩ := Option.map_eq_some_iff.mp h
    cases heq
    obtain ⟨rfl, hlt⟩ := takeLE_eq_some 8 _ _ _ hx
    obtain ⟨rfl, hnlt⟩ := takeLE_eq_some 4 _ _ _ hn
    obtain ⟨rfl, rfl, hfits⟩ := readValues_eq_some _ hvs
    exact ⟨⟨g, by simp⟩, hlt, hnlt, hfits⟩
  unfold readPayload at h
  cases type with
  | insert =>
    obtain ⟨hbs, hid, hlen, hfits⟩ := hrow bs h
    exact ⟨hbs, hid, hlen, hfits, rfl⟩
  | update =>
    obtain ⟨hbs, hid, hlen, hfits⟩ := hrow bs h
    exact ⟨hbs, hid, hlen, hfits, rfl⟩
  | delete =>
    obtain ⟨⟨x, g⟩, hx, heq⟩ := Option.map_eq_some_iff.mp h
    cases heq
    obtain ⟨rfl, hlt⟩ := takeLE_eq_some 8 _ _ _ hx
    exact ⟨⟨g, rfl⟩, hlt, by simp, rfl, rfl⟩
  | _ =>
    cases h
    exact ⟨⟨bs, rfl⟩, by simp, by simp, rfl, rfl⟩

/-- **What decodes** begins with the body of the record it decodes to. -/
theorem decodeBody_eq_some {body : Bytes} {r : WalRecord} (h : decodeBody body = some r) :
    (∃ g, body = encodeBody r ++ g) ∧ r.fits = true ∧ r.stored = r := by
  unfold decodeBody at h
  obtain ⟨⟨lsn, bs1⟩, hlsn, h⟩ := Option.bind_eq_some_iff.mp h
  obtain ⟨⟨txnId, bs2⟩, htxn, h⟩ := Option.bind_eq_some_iff.mp h
  obtain ⟨⟨c, bs3⟩, hc, h⟩ := Option.bind_eq_some_iff.mp h
  obtain ⟨⟨rowId, row⟩, hp, heq⟩ := Option.map_eq_some_iff.mp h
  obtain ⟨rfl, h1⟩ := takeLE_eq_some 8 _ _ _ hlsn
  obtain ⟨rfl, h2⟩ := takeLE_eq_some 8 _ _ _ htxn
  obtain ⟨rfl, h3⟩ := takeLE_eq_some 1 _ _ _ hc
  obtain ⟨⟨g, hg⟩, hid, hlen, hfits, hstored⟩ := readPayload_eq_some hp lsn txnId
  dsimp only at hg heq
  subst hg heq
  refine ⟨⟨g, by simp [encodeBody, WalRecordType.code_ofCode]⟩, ?_, hstored⟩
  unfold WalRecord.fits
  rw [Bool.and_eq_true, decide_eq_true_iff]
  exact ⟨⟨h1, h2, hid, hlen, by rw [WalRecordType.code_ofCode]; exact h3⟩, hfits⟩

theorem length_encodeBody (r : WalRecord) : (encodeBody r).length = 17 + r.payload.length := by
  simp [encodeBody]
  omega

theorem length_decodeBody {body : Bytes} {r : WalRecord} (h : decodeBody body = some r) : 17 ≤ body.length := by
  obtain ⟨⟨g, rfl⟩, -⟩ := decodeBody_eq_some h
  rw [List.length_append, length_encodeBody]
  omega

end CoreDB
