import CoreDB.Lib.Ir
import CoreDB.Jit.QueryJit

/-!
# The code of the compiled query (`jit/query_jit.cpp`)

`buildModule` is the function that `BuildModule` builds, instruction by instruction, before
the optimizer sees it.  `compiled_query_correct`: it terminates without undefined behaviour
and leaves memory as it was, but for the two results.
-/

namespace CoreDB

open Ir

/-- The named values of `coredb_filter_gt_sum`. -/
inductive JitValue where
  | pred | out | n | threshold | outCount | outSum
  | iAddr | sumAddr | countAddr
  | iVal | loopCond
  | predElemPtr | predVal | matched | outElemPtr | outVal | maskedVal | sumCur | sumNew
  | maskedOne | countCur | countNew | iNext
  | countFinal | sumFinal
deriving DecidableEq, Repr

inductive JitBlock where
  | entry | loopHeader | loopBody | exit
deriving DecidableEq, Repr

namespace QueryJit

def entryBlock : Block JitValue JitBlock where
  instrs := [
    .alloca .iAddr,
    .alloca .sumAddr,
    .alloca .countAddr,
    .store (.int64 0#64) (.value .iAddr),
    .store (.int64 0#64) (.value .sumAddr),
    .store (.int64 0#64) (.value .countAddr)]
  terminator := .br .loopHeader

def loopHeaderBlock : Block JitValue JitBlock where
  instrs := [
    .load .iVal (.value .iAddr),
    .icmp .loopCond .ult (.value .iVal) (.value .n)]
  terminator := .condBr (.value .loopCond) .loopBody .exit

def loopBodyBlock : Block JitValue JitBlock where
  instrs := [
    .gep .predElemPtr (.value .pred) (.value .iVal),
    .load .predVal (.value .predElemPtr),
    .icmp .matched .sgt (.value .predVal) (.value .threshold),
    .gep .outElemPtr (.value .out) (.value .iVal),
    .load .outVal (.value .outElemPtr),
    .select .maskedVal (.value .matched) (.value .outVal) (.int64 0#64),
    .load .sumCur (.value .sumAddr),
    .add .sumNew (.value .sumCur) (.value .maskedVal),
    .store (.value .sumNew) (.value .sumAddr),
    .select .maskedOne (.value .matched) (.int64 1#64) (.int64 0#64),
    .load .countCur (.value .countAddr),
    .add .countNew (.value .countCur) (.value .maskedOne),
    .store (.value .countNew) (.value .countAddr),
    .add .iNext (.value .iVal) (.int64 1#64),
    .store (.value .iNext) (.value .iAddr)]
  terminator := .br .loopHeader

def exitBlock : Block JitValue JitBlock where
  instrs := [
    .load .countFinal (.value .countAddr),
    .store (.value .countFinal) (.value .outCount),
    .load .sumFinal (.value .sumAddr),
    .store (.value .sumFinal) (.value .outSum)]
  terminator := .retVoid

def buildModule : Func JitValue JitBlock where
  params := [.pred, .out, .n, .threshold, .outCount, .outSum]
  entry := .entry
  block
    | .entry => entryBlock
    | .loopHeader => loopHeaderBlock
    | .loopBody => loopBodyBlock
    | .exit => exitBlock

/-! ## Frames of a run -/

/-- The `i64`s at `a` are `data`. -/
def Holds (m : Memory) (a : Addr) (data : List (BitVec 64)) : Prop :=
  ∀ i < data.length, m.load (a.element (BitVec.ofNat 64 i)) = data[i]?

/-- What a call is given. -/
structure Args where
  pred : Addr
  out : Addr
  n : BitVec 64
  threshold : BitVec 64
  outCount : Addr
  outSum : Addr

def Args.values (a : Args) : List Value :=
  [.ptr a.pred, .ptr a.out, .i64 a.n, .i64 a.threshold, .ptr a.outCount, .ptr a.outSum]

/-- The value of every parameter and the address of every cell. -/
structure Bound (a : Args) (base : Nat) (value : JitValue → Option Value) : Prop where
  pred : value .pred = some (.ptr a.pred)
  out : value .out = some (.ptr a.out)
  n : value .n = some (.i64 a.n)
  threshold : value .threshold = some (.i64 a.threshold)
  outCount : value .outCount = some (.ptr a.outCount)
  outSum : value .outSum = some (.ptr a.outSum)
  iAddr : value .iAddr = some (.ptr ⟨base, 0#64⟩)
  sumAddr : value .sumAddr = some (.ptr ⟨base + 1, 0#64⟩)
  countAddr : value .countAddr = some (.ptr ⟨base + 2, 0#64⟩)

/-- The cells hold `j`, and the rest of memory is as at the call. -/
structure Cells (mem0 : Memory) (j : JitFrame) (mem : Memory) : Prop where
  i : mem.load ⟨mem0.next, 0#64⟩ = some j.i
  sum : mem.load ⟨mem0.next + 1, 0#64⟩ = some j.sum
  count : mem.load ⟨mem0.next + 2, 0#64⟩ = some j.count
  others : ∀ a : Addr, a.object < mem0.next → mem.word a = mem0.word a

/-- Before the header, with `j` in the cells. -/
def AtHeader (a : Args) (mem0 : Memory) (j : JitFrame) (s : State JitValue JitBlock) : Prop :=
  ∃ fr, s = .at .loopHeader fr ∧ Bound a mem0.next fr.value ∧ Cells mem0 j fr.mem

/-- The values that a run never sets again. -/
def settled : List JitValue := [.pred, .out, .n, .threshold, .outCount, .outSum, .iAddr, .sumAddr, .countAddr]

theorem Bound.set {a : Args} {base : Nat} {fr : Frame JitValue} (h : Bound a base fr.value) {r : JitValue}
    (hr : r ∉ settled) (v : Value) : Bound a base (fr.set r v).value := by
  have hkeep : ∀ q ∈ settled, (fr.set r v).value q = fr.value q := by
    intro q hq
    rw [Frame.set_value, if_neg]
    rintro rfl
    exact hr hq
  constructor
  · rw [hkeep _ (by decide), h.pred]
  · rw [hkeep _ (by decide), h.out]
  · rw [hkeep _ (by decide), h.n]
  · rw [hkeep _ (by decide), h.threshold]
  · rw [hkeep _ (by decide), h.outCount]
  · rw [hkeep _ (by decide), h.outSum]
  · rw [hkeep _ (by decide), h.iAddr]
  · rw [hkeep _ (by decide), h.sumAddr]
  · rw [hkeep _ (by decide), h.countAddr]

section
variable {mem0 mem : Memory} {j : JitFrame} (h : Cells mem0 j mem) (v : BitVec 64)
include h

theorem Cells.putI : Cells mem0 { j with i := v } (mem.put ⟨mem0.next, 0#64⟩ v) := by
  have ha := Memory.allocated_of_load h.i
  refine ⟨by simp [Memory.load_put ha], by simp [Memory.load_put ha, h.sum], by simp [Memory.load_put ha, h.count],
    fun b hb => ?_⟩
  rw [Memory.word_put_of_ne, h.others b hb]
  rintro rfl
  exact Nat.lt_irrefl _ hb

theorem Cells.putSum : Cells mem0 { j with sum := v } (mem.put ⟨mem0.next + 1, 0#64⟩ v) := by
  have ha := Memory.allocated_of_load h.sum
  refine ⟨by simp [Memory.load_put ha, h.i], by simp [Memory.load_put ha], by simp [Memory.load_put ha, h.count],
    fun b hb => ?_⟩
  rw [Memory.word_put_of_ne, h.others b hb]
  rintro rfl
  exact absurd hb (by simp)

theorem Cells.putCount : Cells mem0 { j with count := v } (mem.put ⟨mem0.next + 2, 0#64⟩ v) := by
  have ha := Memory.allocated_of_load h.count
  refine ⟨by simp [Memory.load_put ha, h.i], by simp [Memory.load_put ha, h.sum], by simp [Memory.load_put ha],
    fun b hb => ?_⟩
  rw [Memory.word_put_of_ne, h.others b hb]
  rintro rfl
  exact absurd hb (by simp)

omit v in
/-- An element of an array of the caller. -/
theorem Cells.load_element {p : Addr} {data : List (BitVec 64)} (hp : Holds mem0 p data) {i : BitVec 64}
    (hi : i.toNat < data.length) : mem.load (p.element i) = some (data.getD i.toNat 0#64) := by
  have hload := hp i.toNat hi
  rw [BitVec.ofNat_toNat, BitVec.setWidth_eq, List.getElem?_eq_getElem hi] at hload
  have hold := h.others _ (Memory.allocated_of_load hload).lt_next
  rw [Memory.load, hold, List.getD_eq_getElem?_getD, List.getElem?_eq_getElem hi, Option.getD_some]
  exact hload

end

/-! ## The blocks -/

theorem bound_entry (a : Args) (base : Nat) (mem : Memory) :
    Bound a base (((((⟨buildModule.bind a.values, mem⟩ : Frame JitValue).set .iAddr (.ptr ⟨base, 0#64⟩)).set .sumAddr
      (.ptr ⟨base + 1, 0#64⟩)).set .countAddr (.ptr ⟨base + 2, 0#64⟩))).value := by
  constructor <;> simp [Func.bind, buildModule, Args.values]

theorem entry_spec (a : Args) (mem0 : Memory) :
    ∃ s, buildModule.step (.at .entry ⟨buildModule.bind a.values, mem0⟩) = some s ∧ AtHeader a mem0 entry s := by
  have hi : mem0.alloca.alloca.alloca.Allocated ⟨mem0.next, 0#64⟩ := Memory.allocated_alloca.alloca.alloca
  have hsum : mem0.alloca.alloca.alloca.Allocated ⟨mem0.next + 1, 0#64⟩ :=
    (Memory.allocated_alloca (m := mem0.alloca)).alloca
  have hcount : mem0.alloca.alloca.alloca.Allocated ⟨mem0.next + 2, 0#64⟩ :=
    Memory.allocated_alloca (m := mem0.alloca.alloca)
  have hbound := bound_entry a mem0.next mem0
  refine Func.step_at (achieves_alloca (achieves_alloca (achieves_alloca ?_)))
  refine achieves_store (v := 0#64) rfl hbound.iAddr hi ?_
  refine achieves_store (v := 0#64) rfl hbound.sumAddr (Memory.allocated_put.mpr hsum) ?_
  refine achieves_store (v := 0#64) rfl hbound.countAddr
    (Memory.allocated_put.mpr (Memory.allocated_put.mpr hcount)) ?_
  refine achieves_nil ⟨_, rfl, _, rfl, hbound, ?_, ?_, ?_, fun b hb => ?_⟩
  · simp [Memory.load_put, hi, hsum, hcount, entry]
  · simp [Memory.load_put, hsum, hcount, entry]
  · simp [Memory.load_put, hcount, entry]
  · have hold : mem0.alloca.alloca.alloca.word b = mem0.word b := by
      rw [Memory.word_alloca_of_lt (show b.object < mem0.next + 1 + 1 by omega),
        Memory.word_alloca_of_lt (show b.object < mem0.next + 1 by omega), Memory.word_alloca_of_lt hb]
    have hne : ∀ d, b ≠ ⟨mem0.next + d, 0#64⟩ := by
      rintro d rfl
      exact absurd hb (by simp)
    refine Eq.trans ?_ hold
    exact (Memory.word_put_of_ne (hne 2)).trans ((Memory.word_put_of_ne (hne 1)).trans (Memory.word_put_of_ne (hne 0)))

theorem header_spec {a : Args} {mem0 : Memory} {j : JitFrame} {fr : Frame JitValue}
    (hb : Bound a mem0.next fr.value) (hc : Cells mem0 j fr.mem) :
    ∃ fr', buildModule.step (.at .loopHeader fr) = some (.at (if j.i.ult a.n then .loopBody else .exit) fr') ∧
      Bound a mem0.next fr'.value ∧ Cells mem0 j fr'.mem ∧ fr'.value .iVal = some (.i64 j.i) := by
  refine ⟨(fr.set .iVal (.i64 j.i)).set .loopCond (.i1 (j.i.ult a.n)), ?_, ?_, hc, by simp⟩
  · simp [Func.step, buildModule, loopHeaderBlock, execInstrs, Instr.exec, Terminator.exec, Frame.i64, Frame.i1, Frame.ptr,
      Frame.operand, hb.iAddr, hb.n, hc.i, IntPredicate.holds]
  · exact (hb.set (by decide) _).set (by decide) _

theorem body_spec {a : Args} {mem0 : Memory} {pred out : List (BitVec 64)} (hpred : Holds mem0 a.pred pred)
    (hout : Holds mem0 a.out out) {j : JitFrame} {fr : Frame JitValue} (hb : Bound a mem0.next fr.value)
    (hc : Cells mem0 j fr.mem) (hi : fr.value .iVal = some (.i64 j.i)) (hp : j.i.toNat < pred.length)
    (ho : j.i.toNat < out.length) :
    ∃ s, buildModule.step (.at .loopBody fr) = some s ∧ AtHeader a mem0 (loopBody pred out a.threshold j) s := by
  have hx := hc.load_element hpred hp
  have hy := hc.load_element hout ho
  unfold loopBody
  generalize pred.getD j.i.toNat 0#64 = x at hx
  generalize out.getD j.i.toNat 0#64 = y at hy
  refine Func.step_at ?_
  refine achieves_gep hb.pred (Frame.i64_value hi) ?_
  refine achieves_load (by simp) hx ?_
  refine achieves_icmp (a := x) (b := a.threshold) (Frame.i64_value (by simp)) (Frame.i64_value (by simp [hb.threshold])) ?_
  refine achieves_gep (a := a.out) (i := j.i) (by simp [hb.out]) (Frame.i64_value (by simp [hi])) ?_
  refine achieves_load (by simp) hy ?_
  refine achieves_select (c := a.threshold.slt x) (a := y) (b := 0#64) (Frame.i1_value (by simp [IntPredicate.holds]))
    (Frame.i64_value (by simp)) rfl ?_
  generalize hval : (if a.threshold.slt x then y else 0#64) = val
  refine achieves_load (by simp [hb.sumAddr]) hc.sum ?_
  refine achieves_add (a := j.sum) (b := val) (Frame.i64_value (by simp)) (Frame.i64_value (by simp)) ?_
  refine achieves_store (v := j.sum + val) (Frame.i64_value (by simp)) (by simp [hb.sumAddr])
    (Memory.allocated_of_load hc.sum) ?_
  have hc1 := hc.putSum (j.sum + val)
  refine achieves_select (c := a.threshold.slt x) (a := 1#64) (b := 0#64) (Frame.i1_value (by simp [IntPredicate.holds]))
    rfl rfl ?_
  generalize hone : (if a.threshold.slt x then 1#64 else 0#64) = one
  refine achieves_load (by simp [hb.countAddr]) hc1.count ?_
  refine achieves_add (a := j.count) (b := one) (Frame.i64_value (by simp)) (Frame.i64_value (by simp)) ?_
  refine achieves_store (v := j.count + one) (Frame.i64_value (by simp)) (by simp [hb.countAddr])
    (Memory.allocated_of_load hc1.count) ?_
  have hc2 := hc1.putCount (j.count + one)
  refine achieves_add (a := j.i) (b := 1#64) (Frame.i64_value (by simp [hi])) rfl ?_
  refine achieves_store (v := j.i + 1#64) (Frame.i64_value (by simp)) (by simp [hb.iAddr])
    (Memory.allocated_of_load hc2.i) ?_
  subst hval hone
  refine achieves_nil ⟨_, rfl, _, rfl, ?_, hc2.putI (j.i + 1#64)⟩
  -- none of the names set by the block is settled
  have hset : ∀ {fr : Frame JitValue}, Bound a mem0.next fr.value → ∀ r ∉ settled, ∀ v, Bound a mem0.next (fr.set r v).value :=
    fun h _ hr v => h.set hr v
  exact hset (hset (hset (hset (hset (hset (hset (hset (hset (hset (hset (hset hb
    .predElemPtr (by decide) _) .predVal (by decide) _) .matched (by decide) _) .outElemPtr (by decide) _)
    .outVal (by decide) _) .maskedVal (by decide) _) .sumCur (by decide) _) .sumNew (by decide) _)
    .maskedOne (by decide) _) .countCur (by decide) _) .countNew (by decide) _) .iNext (by decide) _

/-- The exit stores the two results and nothing else. -/
theorem exit_spec {a : Args} {mem0 : Memory} (hcount : mem0.Allocated a.outCount) (hsum : mem0.Allocated a.outSum)
    {j : JitFrame} {fr : Frame JitValue} (hb : Bound a mem0.next fr.value) (hc : Cells mem0 j fr.mem) :
    ∃ mem, buildModule.step (.at .exit fr) = some (.returned mem) ∧
      mem.release mem0.next = (mem0.put a.outCount j.count).put a.outSum j.sum := by
  have hsame : ∀ {b : Addr}, mem0.Allocated b → fr.mem.Allocated b := by
    intro b hal
    unfold Memory.Allocated
    rw [hc.others b hal.lt_next]
    exact hal
  have hsumcell : (fr.mem.put a.outCount j.count).load ⟨mem0.next + 1, 0#64⟩ = some j.sum := by
    rw [Memory.load_put (hsame hcount), if_neg, hc.sum]
    intro heq
    have hlt := hcount.lt_next
    rw [← heq] at hlt
    exact absurd hlt (by simp)
  refine ⟨(fr.mem.put a.outCount j.count).put a.outSum j.sum, ?_, Memory.ext (funext fun b => ?_) rfl⟩
  · obtain ⟨s, hs, rfl⟩ : ∃ s, buildModule.step (.at .exit fr) = some s ∧
        s = .returned ((fr.mem.put a.outCount j.count).put a.outSum j.sum) := by
      refine Func.step_at ?_
      refine achieves_load hb.countAddr hc.count ?_
      refine achieves_store (v := j.count) (Frame.i64_value (by simp)) (by simp [hb.outCount]) (hsame hcount) ?_
      refine achieves_load (by simp [hb.sumAddr]) hsumcell ?_
      refine achieves_store (v := j.sum) (Frame.i64_value (by simp)) (by simp [hb.outSum])
        (Memory.allocated_put.mpr (hsame hsum)) ?_
      exact achieves_nil ⟨_, rfl, rfl⟩
    exact hs
  · by_cases hlt : b.object < mem0.next
    · show (if b.object < mem0.next then _ else none) = _
      rw [if_pos hlt, Memory.word_put (Memory.allocated_put.mpr (hsame hsum)), Memory.word_put (hsame hcount),
        Memory.word_put (Memory.allocated_put.mpr hsum), Memory.word_put hcount, hc.others b hlt]
    · rw [((mem0.put a.outCount j.count).put a.outSum j.sum).fresh b (Nat.le_of_not_lt hlt)]
      exact if_neg hlt

/-! ## The call -/

theorem loopHeader_eq_iterate (pred out : List (BitVec 64)) (n threshold : BitVec 64) : ∀ (k : Nat) (j : JitFrame),
    n.toNat - j.i.toNat = k → loopHeader pred out n threshold j = (loopBody pred out threshold)^[k] j := by
  intro k
  induction k with
  | zero =>
    intro j hk
    rw [loopHeader, if_neg (by simp [BitVec.ult]; omega)]
    rfl
  | succ k ih =>
    intro j hk
    have hnext : (loopBody pred out threshold j).i.toNat = j.i.toNat + 1 :=
      toNat_next (show j.i.toNat < n.toNat by omega)
    rw [loopHeader, if_pos (by simp [BitVec.ult]; omega), ih _ (by omega)]
    rfl

theorem run_eq_iterate (pred out : List (BitVec 64)) (n threshold : BitVec 64) :
    total ((loopBody pred out threshold)^[n.toNat] entry) = filterGtSumScalar pred out n.toNat threshold := by
  have hloop := loopHeader_eq_iterate pred out n threshold n.toNat entry (Nat.sub_zero _)
  rw [← hloop, filterGtSumScalar_eq, ← queryJit_run_eq pred out n.isLt threshold, run, BitVec.ofNat_toNat,
    BitVec.setWidth_eq]
  rfl

section
variable {mem : Memory} {a : Args} {pred out : List (BitVec 64)} (hpred : Holds mem a.pred pred)
  (hout : Holds mem a.out out) (hp : a.n.toNat ≤ pred.length) (ho : a.n.toNat ≤ out.length)
include hpred hout hp ho

/-- One turn of the loop. -/
theorem turn_spec {j : JitFrame} {s : State JitValue JitBlock} (h : AtHeader a mem j s)
    (hleft : 0 < a.n.toNat - j.i.toNat) :
    ∃ s', buildModule.steps 2 s = some s' ∧ AtHeader a mem (loopBody pred out a.threshold j) s' := by
  obtain ⟨fr, rfl, hb, hc⟩ := h
  obtain ⟨fr1, hstep1, hb1, hc1, hi1⟩ := header_spec hb hc
  rw [if_pos (by simp [BitVec.ult]; omega)] at hstep1
  obtain ⟨s', hstep2, hs'⟩ := body_spec hpred hout hb1 hc1 hi1 (by omega) (by omega)
  exact ⟨s', Func.steps_trans (Func.steps_one hstep1) (Func.steps_one hstep2), hs'⟩

theorem steps_spec (hcount : mem.Allocated a.outCount) (hsum : mem.Allocated a.outSum) :
    ∃ mem', buildModule.steps (2 * a.n.toNat + 3) (.at .entry ⟨buildModule.bind a.values, mem⟩) =
        some (.returned mem') ∧
      mem'.release mem.next =
        (mem.put a.outCount (filterGtSumScalar pred out a.n.toNat a.threshold).matchedCount).put a.outSum
          (filterGtSumScalar pred out a.n.toNat a.threshold).sum := by
  have hleft : ∀ j : JitFrame, 0 < a.n.toNat - j.i.toNat →
      a.n.toNat - (loopBody pred out a.threshold j).i.toNat = a.n.toNat - j.i.toNat - 1 := by
    intro j hj
    have hnext : (loopBody pred out a.threshold j).i.toNat = j.i.toNat + 1 :=
      toNat_next (show j.i.toNat < a.n.toNat by omega)
    omega
  obtain ⟨s0, hs0, h0⟩ := entry_spec a mem
  have hn : a.n.toNat - entry.i.toNat = a.n.toNat := Nat.sub_zero _
  obtain ⟨s1, hs1, ⟨fr, rfl, hb, hc⟩, hdone⟩ :=
    Func.steps_loop (fun j s h hj => turn_spec hpred hout hp ho h hj) hleft a.n.toNat hn h0
  obtain ⟨fr1, hstep1, hb1, hc1, -⟩ := header_spec hb hc
  rw [if_neg (by simp [BitVec.ult]; omega)] at hstep1
  obtain ⟨mem', hstep2, hmem⟩ := exit_spec hcount hsum hb1 hc1
  refine ⟨mem', ?_, ?_⟩
  · rw [show 2 * a.n.toNat + 3 = 1 + (a.n.toNat * 2 + (1 + 1)) by omega]
    exact Func.steps_trans (Func.steps_one hs0)
      (Func.steps_trans hs1 (Func.steps_trans (Func.steps_one hstep1) (Func.steps_one hstep2)))
  · rw [hmem, ← run_eq_iterate]
    rfl

end

/-- **The compiled query terminates without undefined behaviour** within `2 n + 3` blocks, and
all it has done to memory is to store the result of the scalar kernel. -/
theorem compiled_query_correct (mem : Memory) (a : Args) (pred out : List (BitVec 64)) (hpred : Holds mem a.pred pred)
    (hout : Holds mem a.out out) (hp : a.n.toNat ≤ pred.length) (ho : a.n.toNat ≤ out.length)
    (hcount : mem.Allocated a.outCount) (hsum : mem.Allocated a.outSum) (k : Nat) (hk : 2 * a.n.toNat + 3 ≤ k) :
    ∃ mem1 mem2, mem.store a.outCount (filterGtSumScalar pred out a.n.toNat a.threshold).matchedCount = some mem1 ∧
      mem1.store a.outSum (filterGtSumScalar pred out a.n.toNat a.threshold).sum = some mem2 ∧
      buildModule.call k a.values mem = some mem2 := by
  obtain ⟨mem', hsteps, hmem⟩ := steps_spec hpred hout hp ho hcount hsum
  refine ⟨_, _, Memory.store_of_allocated hcount, Memory.store_of_allocated (Memory.allocated_put.mpr hsum), ?_⟩
  obtain ⟨d, rfl⟩ := Nat.exists_eq_add_of_le hk
  have hall := Func.steps_trans hsteps (Func.steps_returned d mem')
  unfold Func.call
  rw [show buildModule.entry = .entry from rfl, hall, ← hmem]

/-- Two columns of three values and a result that has not been stored to. -/
def sampleMemory : Memory :=
  .ofObjects [[some 5#64, some 20#64, some 30#64], [some 1#64, some 2#64, some 4#64], [none, none]]

def sampleArgs : Args := ⟨⟨0, 0#64⟩, ⟨1, 0#64⟩, 3#64, 10#64, ⟨2, 0#64⟩, ⟨2, 8#64⟩⟩

theorem compiled_query_correct_sample : ∃ mem', buildModule.call 9 sampleArgs.values sampleMemory = some mem' ∧
    mem'.load ⟨2, 0#64⟩ = some 2#64 ∧ mem'.load ⟨2, 8#64⟩ = some 6#64 := by
  obtain ⟨mem1, mem2, h1, h2, hcall⟩ := compiled_query_correct sampleMemory sampleArgs [5#64, 20#64, 30#64]
    [1#64, 2#64, 4#64] (by unfold Holds; decide) (by unfold Holds; decide) (by decide) (by decide) (by decide)
    (by decide) 9 (by decide)
  have hstores : mem2 = (sampleMemory.put ⟨2, 0#64⟩ 2#64).put ⟨2, 8#64⟩ 6#64 := by
    rw [Memory.store_of_allocated (by decide)] at h1
    obtain rfl := Option.some.inj h1
    rw [Memory.store_of_allocated (by decide)] at h2
    exact (Option.some.inj h2).symm
  subst hstores
  exact ⟨_, hcall, by decide, by decide⟩

end QueryJit

end CoreDB
