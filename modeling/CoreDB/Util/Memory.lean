import CoreDB.Lib.Allocation
import Mathlib.Data.List.Basic

/-!
# Memory that a file asks for

The readers of segments and of the log size some of their buffers by numbers they have just
read, before they know whether that many bytes follow: `std::string::resize`, the bitmap and
the data block of a column, `std::vector<std::string> values(dict_size)` and
`row.reserve(num_values)`.  Such a request may fail, and then `std::bad_alloc` is thrown.
Memory in proportion to bytes that have been read, or to the schema, is taken as granted.
-/

namespace CoreDB

open Allocation

/-- What is allocated at once. -/
inductive Buffer where
  | bytes (size : Nat)
  | strings (count : Nat)
  | values (count : Nat)
deriving DecidableEq, Repr

/-- A buffer, and how much of the input is unread when it is asked for. -/
structure Request where
  buffer : Buffer
  unread : Nat
deriving DecidableEq, Repr

/-- Which requests the allocator grants.  No two requests of one load have as much left to
read, so that the answer may depend on all that was allocated before. -/
abbrev Memory := Request → Bool

/-- Every request is granted. -/
def Memory.unbounded : Memory := fun _ => true

/-- No buffer is larger than `limit` bytes; a string object has 32 bytes and a value 40. -/
def Memory.upTo (limit : Nat) : Memory := fun r =>
  match r.buffer with
  | .bytes size => decide (size ≤ limit)
  | .strings count => decide (32 * count ≤ limit)
  | .values count => decide (40 * count ≤ limit)

end CoreDB
