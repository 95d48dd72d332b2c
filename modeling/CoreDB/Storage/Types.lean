import CoreDB.Lib.Bytes

/-!
# Values, rows and schemas (`storage/types.h`, `storage/types.cpp`)

A `Value` is the variant of the table API: NULL, a 32- or 64-bit integer, a
double or a byte string.  Numbers compare by widening to double, as
`CompareValues` does; a double is its 64 bits, ordered by sign and magnitude,
and NaN compares false with everything.
-/

namespace CoreDB

open ByteCodec

inductive ColumnType where
  | int32
  | int64
  | double
  | string
deriving DecidableEq, Repr

structure ColumnSchema where
  name : String
  type : ColumnType
deriving DecidableEq, Repr

abbrev Schema := List ColumnSchema

inductive Value where
  | null
  | int32 (v : BitVec 32)
  | int64 (v : BitVec 64)
  | double (bits : BitVec 64)
  | string (s : Bytes)
deriving DecidableEq, Repr

abbrev Row := List Value

/-! ## Doubles -/

/-- Order key of a double: its magnitude bits with the sign, so that the keys of
ordered doubles are ordered (and `-0.0` and `0.0` share one); `none` for NaN. -/
def doubleKey (d : BitVec 64) : Option Int :=
  let mag : Nat := d.toNat % 2 ^ 63
  if 0x7FF0000000000000 < mag then none
  else some (if d.toNat < 2 ^ 63 then (mag : Int) else -(mag : Int))

/-- `a < b` on doubles. -/
def doubleLt (a b : BitVec 64) : Bool :=
  match doubleKey a, doubleKey b with
  | some x, some y => decide (x < y)
  | _, _ => false

/-- Magnitude bits of the double nearest to `m` (ties to the even significand). -/
def nearestDouble (m : Nat) : Nat :=
  if m = 0 then 0
  else
    let e := m.log2
    if e ≤ 52 then (e + 1023) * 2 ^ 52 + (m * 2 ^ (52 - e) - 2 ^ 52)
    else
      let s := e - 52
      let q := m / 2 ^ s
      let r := m % 2 ^ s
      let up := decide (2 ^ (s - 1) < r) || (r == 2 ^ (s - 1) && q % 2 == 1)
      (e + 1023) * 2 ^ 52 + (q - 2 ^ 52) + (if up then 1 else 0)

/-- `static_cast<double>` of an integer. -/
def intToDouble (n : Int) : BitVec 64 :=
  BitVec.ofNat 64 (nearestDouble n.natAbs + if n < 0 then 2 ^ 63 else 0)

/-! ## Comparison -/

/-- `none` is the thrown `std::logic_error`. -/
def asDouble : Value → Option (BitVec 64)
  | .int32 v => some (intToDouble v.toInt)
  | .int64 v => some (intToDouble v.toInt)
  | .double d => some d
  | _ => none

/-- Three-way comparison; `none` is the thrown `std::logic_error` (NULL or
incompatible operands). -/
def compareValues : Value → Value → Option Int
  | .string a, .string b => some (if a < b then -1 else if b < a then 1 else 0)
  | lhs, rhs =>
    match asDouble lhs, asDouble rhs with
    | some a, some b => some (if doubleLt a b then -1 else if doubleLt b a then 1 else 0)
    | _, _ => none

inductive PredicateOp where
  | eq
  | ne
  | lt
  | le
  | gt
  | ge
deriving DecidableEq, Repr

/-- NULL matches nothing; `none` is what `CompareValues` throws. -/
def evaluatePredicate (columnValue : Value) (op : PredicateOp) (literal : Value) : Option Bool :=
  if columnValue = .null then some false
  else
    (compareValues columnValue literal).map fun (cmp : Int) =>
      match op with
      | .eq => decide (cmp = 0)
      | .ne => decide (cmp ≠ 0)
      | .lt => decide (cmp < 0)
      | .le => decide (cmp ≤ 0)
      | .gt => decide (0 < cmp)
      | .ge => decide (0 ≤ cmp)

/-! ## Rows that conform to a schema -/

/-- NULL, or a value of the column's type. -/
def Value.conforms : ColumnType → Value → Bool
  | _, .null => true
  | .int32, .int32 _ => true
  | .int64, .int64 _ => true
  | .double, .double _ => true
  | .string, .string _ => true
  | _, _ => false

def rowConforms : Schema → Row → Bool
  | [], [] => true
  | c :: cs, v :: vs => v.conforms c.type && rowConforms cs vs
  | _, _ => false

theorem rowConforms_length : ∀ (schema : Schema) (row : Row),
    rowConforms schema row = true → row.length = schema.length
  | [], [], _ => rfl
  | [], _ :: _, h => by simp [rowConforms] at h
  | _ :: _, [], h => by simp [rowConforms] at h
  | _ :: cs, _ :: vs, h => by
    simp only [rowConforms, Bool.and_eq_true] at h
    simp [rowConforms_length cs vs h.2]

theorem rowConforms_getElem : ∀ (schema : Schema) (row : Row), rowConforms schema row = true →
    ∀ (c : Nat) (hc : c < schema.length) (hr : c < row.length), (row[c]).conforms (schema[c]).type = true
  | [], _, _, c, hc, _ => by simp at hc
  | _ :: _, [], _, c, _, hr => by simp at hr
  | _ :: cs, _ :: vs, h, c, hc, hr => by
    simp only [rowConforms, Bool.and_eq_true] at h
    cases c with
    | zero => exact h.1
    | succ c => exact rowConforms_getElem cs vs h.2 c (by simpa using hc) (by simpa using hr)

/-- Two values of one column type always compare. -/
theorem compareValues_conforms (t : ColumnType) (a b : Value) (ha : a.conforms t = true)
    (hb : b.conforms t = true) (hna : a ≠ .null) (hnb : b ≠ .null) :
    ∃ c, compareValues a b = some c := by
  cases t <;> cases a <;> cases b <;>
    simp_all [Value.conforms, compareValues, asDouble]

end CoreDB
