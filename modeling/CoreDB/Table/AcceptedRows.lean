import CoreDB.Table.Quiescent
import CoreDB.Table.SnapshotProtection

/-!
# Rows a write accepts, and rows `Compact` can store

`Insert` and `Update` put any row into the delta, and a scan returns it as it is.  The
schema matters only when `Compact` promotes the row and `Segment::Build` reads it
column by column: a row that is too short, or has a value of another type, makes
`Build` throw, and values behind the last column are dropped.
`accepted_rows_compact_iff`: after any run of writes `Compact` returns and loses
nothing exactly if the rows it promotes conform to the schema.
-/

namespace CoreDB

namespace Table

/-- What a transaction that begins now sees, each row with its id. -/
def newReaderKeyed (t : Table) : Option (List (Nat × Row)) :=
  materializeKeyed t.txnMgr.begin.2 (t.snapshotForScan t.txnMgr.begin.1)

/-- `Compact` returns, and a new reader sees every row that one saw before, unchanged. -/
def SurvivesCompact (t : Table) : Prop :=
  ∃ t' before after, t.compact = some t' ∧ t.newReaderKeyed = some before ∧ t'.newReaderKeyed = some after ∧
    ∀ p ∈ before, p ∈ after

/-- A `Compact` that promotes something leaves one segment, built from the rows it kept. -/
theorem compactUnder_builds {t t' : Table} {obs : Nat → TransactionManager}
    (h : ∀ seg ∈ t.baseSegments, seg.Sound t.userSchema) (hc : t.compactUnder obs = some t')
    (hne : (compactLoop obs t.txnMgr.oldestActiveSnapshot t.delta).liveStableRows ≠ []) :
    t'.delta = (compactLoop obs t.txnMgr.oldestActiveSnapshot t.delta).retained ∧ ∃ segmentId seg,
      Segment.build segmentId t.fullSchema (((compactLoop obs t.txnMgr.oldestActiveSnapshot t.delta).rebase
        (basePairs t.baseSegments)).map fullRow) = some seg ∧ t'.baseSegments = [seg] := by
  obtain ⟨⟨hdelta, -⟩, hcase⟩ := compactUnder_cases rfl hc
  rcases hcase with ⟨hno, -⟩ | ⟨-, rows, seg, hrows, hseg, hbase, -⟩
  · exact absurd (Or.inl hne) hno
  · rw [mergedRows_eq h, Option.some.injEq] at hrows
    subst hrows
    exact ⟨hdelta, _, seg, hseg, hbase⟩

end Table

namespace World

/-- Every row that `Compact` would promote has a value for each column, of its type, and
no value more. -/
def RipeRowsConform (w : World) : Prop :=
  ∀ x a, (w.row x).records.getLast? = some a → w.ripe x = true → rowConforms w.table.userSchema a.row = true

/-- What `Compact` finds if nothing happens meanwhile. -/
def compactState (w : World) : CompactState :=
  compactLoop (fun _ => w.table.txnMgr) w.table.txnMgr.oldestActiveSnapshot w.table.delta

/-- The records of row `x` with what that `Compact` does to them. -/
def acts (w : World) (x : Nat) : List (DeltaRecord × Action) :=
  actsOf (fun _ => w.table.txnMgr) w.table.txnMgr.oldestActiveSnapshot w.table.delta x

theorem records_eq_acts (w : World) (x : Nat) : (w.row x).records = (w.acts x).map (·.1) :=
  (map_fst_actsOf ..).symm

section
variable {w : World} (h : w.Inv)
include h

theorem judged_acts (x : Nat) : Judged w.clients w.begun.clients (w.acts x) := by
  obtain ⟨hc', hl, -⟩ := h.begun
  have hwin : Window w.clients w.begun.clients fun _ => w.table.txnMgr :=
    fun _ => ⟨w.clients, rfl, h.clients, Clients.Later.refl _, hl⟩
  exact judged_actsOf h.clients hc' hwin (fun a ha => h.recordOk ha) x

/-- The newest record of a row, with its action. -/
theorem acts_of_last {x : Nat} {a : DeltaRecord} (ha : (w.row x).records.getLast? = some a) :
    ∃ init act, w.acts x = init ++ [(a, act)] ∧ (w.ripe x = true ↔ act = .promote) := by
  obtain ⟨hc', hl, -⟩ := h.begun
  have hj := judged_acts h x
  have hrec := w.records_eq_acts x
  rcases List.eq_nil_or_concat (w.acts x) with hnil | ⟨init, ⟨hd, act⟩, heq⟩
  · rw [hrec, hnil] at ha
    cases ha
  · rw [List.concat_eq_append] at heq
    rw [heq] at hj hrec
    rw [hrec, List.map_append, List.map_singleton, List.getLast?_concat] at ha
    obtain rfl := Option.some.inj ha
    exact ⟨init, act, heq, ripe_iff h.clients hc' hl hj hrec⟩

/-- **The promoted rows** are those of the ripe row ids. -/
theorem mem_liveStableRows_iff (x : Nat) (row : Row) : (x, row) ∈ w.compactState.liveStableRows ↔
    ∃ a, (w.row x).records.getLast? = some a ∧ w.ripe x = true ∧ a.row = row := by
  obtain ⟨hnodup, -, hfind⟩ := gather_promoted
    (classified (fun _ => w.table.txnMgr) w.table.txnMgr.oldestActiveSnapshot w.table.delta)
  have hacts : Keyed.find w.compactState.liveStableRows x =
      ((w.acts x).filter fun p => p.2 == .promote).getLast?.map (·.1.row) := by
    rw [acts, actsOf, List.filter_filter]
    simp only [Bool.and_comm]
    exact hfind x
  have hmem : (x, row) ∈ w.compactState.liveStableRows ↔ Keyed.find w.compactState.liveStableRows x = some row :=
    ⟨fun hin => Keyed.find_of_mem hnodup hin, Keyed.mem_of_find⟩
  rw [hmem, hacts]
  cases hlast : (w.row x).records.getLast? with
  | none =>
    rw [List.getLast?_eq_none_iff, w.records_eq_acts, List.map_eq_nil_iff] at hlast
    simp [hlast]
  | some a =>
    obtain ⟨init, act, heq, hripe⟩ := acts_of_last h hlast
    have hj := judged_acts h x
    rw [heq] at hj
    rw [heq, List.filter_append, hj.older_promoted, hripe]
    by_cases hact : act = .promote
    · simp [hact]
    · simp [hact]

/-- A new reader sees a row that is ripe. -/
theorem view_of_ripe {x : Nat} {a : DeltaRecord} (ha : (w.row x).records.getLast? = some a)
    (hripe : w.ripe x = true) : (w.row x).view w.begun.clients.mgr w.newReader = [a.row] := by
  obtain ⟨hc', hl, hr⟩ := h.begun
  have hinv := (h.rows x).later h.clients hc' hl
  unfold ripe at hripe
  rw [ha] at hripe
  simp only [Bool.and_eq_true, Bool.not_eq_true', beq_iff_eq] at hripe
  obtain ⟨⟨ht, h0⟩, hst⟩ := hripe
  have hvis : isVisible a w.newReader w.begun.clients.mgr = true := by
    rw [RowState.isVisible_iff]
    refine ⟨born_iff.mpr (Or.inr ?_), fun hd => (died_iff.mp hd).1 h0⟩
    exact hc'.sees_of_stable hr (hl.stable h.clients hc' hst)
  exact RowState.view_of_visible hc' hinv hr (List.mem_of_getLast? ha) ht hvis

/-- Of a ripe row no version stays in the delta that a new reader could see. -/
theorem retained_of_ripe {x : Nat} (hripe : w.ripe x = true) {b : DeltaRecord}
    (hb : b ∈ w.compactState.retained) (hbx : b.rowId = x) :
    isVisible b w.newReader w.begun.clients.mgr = false := by
  obtain ⟨hc', hl, hr⟩ := h.begun
  have hinv := (h.rows x).later h.clients hc' hl
  have hj := judged_acts h x
  have ho := RowState.compact_cases h.clients hc' hl hinv hj (w.records_eq_acts x)
  have hin : b ∈ ((w.row x).compacted (w.acts x)).records := by
    have hst : w.compactState = gather (classified (fun _ => w.table.txnMgr)
      w.table.txnMgr.oldestActiveSnapshot w.table.delta) := rfl
    rw [hst, gather_retained] at hb
    obtain ⟨p, hp, rfl⟩ := List.mem_map.mp hb
    obtain ⟨hp, hact⟩ := List.mem_filter.mp hp
    exact List.mem_map_of_mem (List.mem_filter.mpr ⟨List.mem_filter.mpr ⟨hp, by simpa using hbx⟩, hact⟩)
  cases hv : isVisible b w.newReader w.begun.clients.mgr with
  | false => rfl
  | true =>
    exfalso
    have hchain := RowState.mem_chain_of_visible hc' hr hin hv
    -- the base copies are one more now: this was a promotion, which empties the chain
    have hbase : ∃ row, ((w.row x).compacted (w.acts x)).base = (w.row x).base ++ [row] := by
      cases hlast : (w.row x).records.getLast? with
      | none =>
        unfold ripe at hripe
        rw [hlast] at hripe
        cases hripe
      | some a =>
        obtain ⟨init, act, heq, hiff⟩ := acts_of_last h hlast
        rw [heq] at hj ⊢
        refine ⟨a.row, ?_⟩
        rw [RowState.compacted_base hj, hiff.mp hripe]
        simp
    obtain ⟨row, hbase⟩ := hbase
    cases ho with
    | purge d _ _ _ _ hb' => simp [hb'] at hbase
    | promote dead d _ _ _ _ _ _ hch' _ =>
      rw [hch'] at hchain
      cases hchain
    | void d _ _ _ _ hb' => simp [hb'] at hbase
    | shed dead _ _ _ hb' => simp [hb'] at hbase

end

/-! ## Both directions -/

section
variable {w : World} (h : w.Inv) (hbase : ∀ seg ∈ w.table.baseSegments, seg.Sound w.table.userSchema)
include h hbase

/-- Rows that conform survive. -/
theorem survives_of_conform (hfits : w.fits = true) (hconf : w.RipeRowsConform) : w.table.SurvivesCompact := by
  obtain ⟨hc', hl, hr⟩ := h.begun
  unfold fits at hfits
  obtain ⟨hids, hsmall⟩ := of_decide_eq_true hfits
  obtain ⟨t', ht', hto⟩ := Table.compactUnder_rewrites hbase (fun _ => w.table.txnMgr) (by
    rintro ⟨x, row⟩ hp
    obtain ⟨a, ha, hripe, rfl⟩ := (mem_liveStableRows_iff h x row).mp hp
    refine ⟨hconf x a ha hripe, ?_⟩
    obtain ⟨hmem, hax⟩ := List.mem_filter.mp (List.mem_of_getLast? ha)
    rw [← (beq_iff_eq.mp hax : a.rowId = x)]
    exact Nat.lt_of_lt_of_le (h.lt_nextRowId hmem) hids) hsmall
  obtain ⟨before, hbefore, hvb⟩ := materializeKeyed_mem w.begun.clients.mgr (w.table.snapshotForScan w.newReader)
    (fun seg hseg => (hbase seg hseg).readable) []
  obtain ⟨after, hafter, hva⟩ := materializeKeyed_mem w.begun.clients.mgr (t'.snapshotForScan w.newReader)
    (fun seg hseg => (hto.segments seg hseg).readable) []
  refine ⟨t', before, after, ht', hbefore, ?_, ?_⟩
  · unfold Table.newReaderKeyed
    rw [hto.txnMgr]
    exact hafter
  rintro ⟨x, row⟩ hp
  have hj := judged_acts h x
  have hinv := (h.rows x).later h.clients hc' hl
  have hview := view_compacted_subperm h.clients hc' hl hinv hj (w.records_eq_acts x) hr
  have hrow := hto.row (w.log.filterMap (Event.writeTo x)) x hj
  refine (hva x row).mpr ?_
  have hin : row ∈ ((w.row x).compacted (w.acts x)).view w.begun.clients.mgr w.newReader :=
    hview.subset ((hvb x row).mp hp)
  rw [acts, World.row, ← hrow] at hin
  exact hin

/-- Rows that survive conform. -/
theorem conform_of_survives (hs : w.table.SurvivesCompact) : w.RipeRowsConform := by
  obtain ⟨t', before, after, ht', hbefore, hafter, hall⟩ := hs
  intro x a ha hripe
  have hlive : (x, a.row) ∈ w.compactState.liveStableRows :=
    (mem_liveStableRows_iff h x a.row).mpr ⟨a, ha, hripe, rfl⟩
  obtain ⟨hdelta, segmentId, seg, hbuild, hseg⟩ := Table.compactUnder_builds hbase ht' (List.ne_nil_of_mem hlive)
  obtain ⟨hcols, htakes⟩ := Segment.build_takes hbuild
  -- the values at the schema's positions are there and of the right type
  have htake : rowConforms w.table.userSchema (a.row.take w.table.userSchema.length) = true := by
    have hfull := htakes (fullRow (x, a.row)) (List.mem_map_of_mem (List.mem_append_right _ hlive))
    simpa [Table.fullSchema, fullSchemaOf, fullRow, rowConforms, Value.conforms] using hfull
  -- and there are no others, or the reader would miss them
  have hlen : a.row.length = w.table.userSchema.length := by
    obtain ⟨rows, hrows, hview⟩ := materializeKeyed_mem w.begun.clients.mgr (w.table.snapshotForScan w.newReader)
      (fun seg hseg => (hbase seg hseg).readable) []
    obtain rfl : before = rows := Option.some.inj (hbefore.symm.trans hrows)
    have hseen : a.row ∈ (w.row x).view w.begun.clients.mgr w.newReader := by
      rw [view_of_ripe h ha hripe]
      exact List.mem_singleton_self _
    have hin : (x, a.row) ∈ after := hall _ ((hview x a.row).mpr hseen)
    unfold Table.newReaderKeyed at hafter
    rw [(Table.compactUnder_cases rfl ht').1.2.1] at hafter
    rcases mem_materializeKeyed hafter hin with ⟨b, hb, hbx, hshows⟩ | ⟨sg, hsg, r, full, hfull, hpair⟩
    · have hno := retained_of_ripe h hripe (hdelta ▸ hb) hbx
      unfold DeltaRecord.shows at hshows
      rw [Bool.and_eq_true] at hshows
      exact absurd (hshows.2.symm.trans hno) (by simp)
    · rw [Table.snapshotForScan, hseg, List.mem_singleton] at hsg
      subst hsg
      have hlen := Segment.length_cellsAt r _ _ hfull
      rw [(Prod.mk.inj hpair).2, List.length_drop, hlen, hcols]
      rfl
  rwa [List.take_of_length_le (Nat.le_of_eq hlen)] at htake

end

end World

/-- **Which accepted rows can be compacted.**  After any run of begins, inserts, updates,
deletes, commits and aborts on a new table, with rows of any length and values of any type,
`Compact` returns and a new reader misses nothing if and only if every row that it promotes
conforms to the schema. -/
theorem accepted_rows_compact_iff (schema : Schema) (ops : List Op) (hops : ∀ d, Op.compact d ∉ ops) (w : World)
    (hrun : Runs.run World.step (World.create schema) ops = some w) (hfits : w.fits = true) :
    w.table.SurvivesCompact ↔ w.RipeRowsConform := by
  have hrest := (World.start_create schema).uncompacted hops hrun
  have hbase : ∀ seg ∈ w.table.baseSegments, seg.Sound w.table.userSchema := by
    rw [hrest.base]
    intro seg hseg
    cases hseg
  exact ⟨World.conform_of_survives hrest.inv hbase, World.survives_of_conform hrest.inv hbase hfits⟩

/-- A row of the schema is inserted, and another one for which the transaction is still open. -/
def insertAndLeaveOpen : List Op :=
  [.txn .begin, .insert 1 [.int64 7#64], .txn (.commit 1), .txn .begin, .insert 3 []]

theorem accepted_rows_insertAndLeaveOpen : ∃ w,
    Runs.run World.step (World.create oneColumn) insertAndLeaveOpen = some w ∧ w.fits = true ∧
      (w.table.SurvivesCompact ↔ w.RipeRowsConform) := by
  have hcheck : ((Runs.run World.step (World.create oneColumn) insertAndLeaveOpen).any fun w => w.fits) = true := by
    decide +kernel
  obtain ⟨w, hw, hfits⟩ := Runs.exists_of_any hcheck
  refine ⟨w, hw, hfits, accepted_rows_compact_iff oneColumn insertAndLeaveOpen (fun d => ?_) w hw hfits⟩
  simp [insertAndLeaveOpen]

/-- One transaction inserts the row and commits. -/
def insertRow (row : Row) : List Op := [.txn .begin, .insert 1 row, .txn (.commit 1)]

/-- `Compact` throws on a committed row that is too short or has a value of another type; of
a row that is too long it keeps the first values only. -/
theorem accepted_rows_break_compact :
    (∀ row ∈ [[], [.string [120]]], ∃ w, Runs.run World.step (World.create oneColumn) (insertRow row) = some w ∧
      w.table.newReaderKeyed = some [(1, row)] ∧ w.table.compact.isNone = true ∧ ¬ w.table.SurvivesCompact) ∧
    ∃ w t', Runs.run World.step (World.create oneColumn) (insertRow [.int64 7#64, .int64 8#64]) = some w ∧
      w.table.newReaderKeyed = some [(1, [.int64 7#64, .int64 8#64])] ∧ w.table.compact = some t' ∧
      t'.newReaderKeyed = some [(1, [.int64 7#64])] ∧ ¬ w.table.SurvivesCompact := by
  constructor
  · intro row hrow
    have hcheck : ([[], [.string [120]]] : List Row).all (fun row =>
        (Runs.run World.step (World.create oneColumn) (insertRow row)).any fun w =>
          w.table.newReaderKeyed == some [(1, row)] && w.table.compact.isNone) = true := by
      decide +kernel
    obtain ⟨w, hw, hfacts⟩ := Runs.exists_of_any (List.all_eq_true.mp hcheck row hrow)
    rw [Bool.and_eq_true, beq_iff_eq] at hfacts
    refine ⟨w, hw, hfacts.1, hfacts.2, ?_⟩
    rintro ⟨t', before, after, ht', -⟩
    rw [ht'] at hfacts
    cases hfacts.2
  · have hcheck : ((Runs.run World.step (World.create oneColumn) (insertRow [.int64 7#64, .int64 8#64])).any fun w =>
        w.table.newReaderKeyed == some [(1, [.int64 7#64, .int64 8#64])] &&
          w.table.compact.any fun t' => t'.newReaderKeyed == some [(1, [.int64 7#64])]) = true := by
      decide +kernel
    obtain ⟨w, hw, hfacts⟩ := Runs.exists_of_any hcheck
    rw [Bool.and_eq_true, beq_iff_eq] at hfacts
    obtain ⟨t', ht', hafter⟩ := Runs.exists_of_any hfacts.2
    rw [beq_iff_eq] at hafter
    refine ⟨w, t', hw, hfacts.1, ht', hafter, ?_⟩
    rintro ⟨t2, before, after, ht2, hb, ha, hall⟩
    obtain rfl : t' = t2 := Option.some.inj (ht'.symm.trans ht2)
    rw [hfacts.1] at hb
    rw [hafter] at ha
    have hin := hall (1, [.int64 7#64, .int64 8#64]) (by rw [← Option.some.inj hb]; exact List.mem_singleton_self _)
    rw [← Option.some.inj ha] at hin
    simp at hin

end CoreDB
