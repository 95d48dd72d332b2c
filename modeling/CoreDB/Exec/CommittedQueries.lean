import CoreDB.Table.Committed
import CoreDB.Exec.Pruning

/-!
# Queries over a live table

The query engine reads base segments and knows nothing of transactions, while a reader
merges the base with the delta.  A `Compact` with nobody active brings the two together:
unless a version was stranded, whatever strategy runs over the base segments after it
aggregates the rows that a new reader scans.

`BuiltBase`: in every run the base is at most one segment, which `Build` made of its own
rows, each with its id in front.  A query names the columns of the user's schema, so over
the base its columns are one further on (`AggregateQuery.onBase`).
-/

namespace CoreDB

/-! ## The base of a table -/

/-- The base is at most one segment, and `Build` made it of its rows. -/
structure Table.BuiltBase (t : Table) : Prop where
  one : t.baseSegments.length ≤ 1
  built : ∀ seg ∈ t.baseSegments, seg.pairs.length < 2 ^ 32 ∧
    ∃ segmentId, Segment.build segmentId t.fullSchema (seg.pairs.map fullRow) = some seg

theorem Table.BuiltBase.congr {t t' : Table} (h : t.BuiltBase) (hbase : t'.baseSegments = t.baseSegments)
    (hschema : t'.userSchema = t.userSchema) : t'.BuiltBase := by
  refine ⟨hbase ▸ h.one, fun seg hseg => ?_⟩
  rw [hbase] at hseg
  rw [Table.fullSchema, hschema]
  exact h.built seg hseg

namespace World

theorem builtBase_compact {w w1 : World} (h : w.Inv) (hsound : w.table.Sound) (hfits : w.fits = true)
    (hb : w.table.BuiltBase) {during : List (List TxnOp)} (hran : Runs.run txnStep w during.flatten = some w1)
    {t : Table} (ht : w.table.compactUnder (w.observed during) = some t) : t.BuiltBase := by
  obtain ⟨-, t', ht', hto⟩ := compactedTo h hsound hfits hran
  obtain rfl := Option.some.inj (ht.symm.trans ht')
  obtain ⟨-, hcase⟩ := Table.compactUnder_cases rfl ht
  rcases hcase with ⟨-, hbase, -⟩ | ⟨-, rows, seg, hrows, hseg, hbase, -⟩
  · exact hb.congr hbase hto.userSchema
  · have hpairs : seg.pairs =
        (compactLoop (w.observed during) w.table.txnMgr.oldestActiveSnapshot w.table.delta).rebase
          (basePairs w.table.baseSegments) := by
      have hp := hto.base
      rw [hbase] at hp
      simpa [basePairs] using hp
    refine ⟨by simp [hbase], fun sg hsg => ?_⟩
    rw [hbase, List.mem_singleton] at hsg
    subst hsg
    rw [Table.mergedRows_eq hsound.base, Option.some.injEq, ← hpairs] at hrows
    refine ⟨?_, w.table.nextSegmentId, ?_⟩
    · have hle := Table.length_rebase_le (t := w.table)
        (map_fst_classified (w.observed during) w.table.txnMgr.oldestActiveSnapshot w.table.delta)
      have hsmall := (of_decide_eq_true (show decide _ = true from hfits)).2
      rw [hpairs]
      exact Nat.lt_of_le_of_lt hle hsmall
    · rw [Table.fullSchema, hto.userSchema, hrows]
      exact hseg

theorem builtBase_step {schema : Schema} {w w' : World} {op : Op} (h : w.Good schema) (hb : w.table.BuiltBase)
    (hconf : op.conforms schema = true) (hs : w.step op = some w') : w'.table.BuiltBase := by
  have hst := step_cases h.toInv.active_id hs
  have hschema : w'.table.userSchema = w.table.userSchema :=
    (sound_step h hconf hst).2.trans h.schema_eq.symm
  by_cases hop : ∃ d, op = .compact d
  · obtain ⟨d, rfl⟩ := hop
    cases hst with
    | compact _ w1 t hfits hran ht =>
      exact (builtBase_compact h.toInv h.sound hfits hb hran ht).congr rfl rfl
    | insert t y txn row hop hact hnew => rcases hop with ⟨h, -⟩ | h <;> cases h
    | write t y txn delta wr hop hcl => rcases hop with ⟨_, h, -⟩ | ⟨h, -⟩ <;> cases h
    | fail t y txn hop hact href => rcases hop with ⟨_, h⟩ | h <;> cases h
  · exact hb.congr (hst.base_eq fun d hd => hop ⟨d, hd⟩) hschema

/-- **Every run** keeps the base in this form. -/
theorem builtBase_run {schema : Schema} {w : World} {ops : List Op}
    (hconf : ∀ op ∈ ops, op.conforms schema = true)
    (hr : Runs.run step (create schema) ops = some w) : w.table.BuiltBase := by
  refine (Runs.run_invariant (I := fun v => v.Good schema ∧ v.table.BuiltBase)
    (Q := fun _ op => op.conforms schema = true) ?_ ⟨good_create schema, ?_⟩
    (Runs.along_of_forall _ fun _ op hop => hconf op hop) hr).2
  · rintro v op v' ⟨hgood, hb⟩ hop hs
    exact ⟨good_step hgood hop hs, builtBase_step hgood hb hop hs⟩
  · exact ⟨by simp [create], by simp [create]⟩

/-! ## What a new reader scans after `Compact` -/

/-- **With nobody active and nothing stranded** a new reader scans the base. -/
theorem newReader_scans_base {w w' : World} (h : w.Inv) (hq : w.Quiescent) (hc : Compacted w w') (h' : w'.Inv)
    (hstranded : ∀ a ∈ w.table.delta, w.stranded a = false) :
    ∃ rows, w'.table.newReaderRows = some rows ∧
      rows.Perm ((basePairs w'.table.baseSegments).map (·.2)) := by
  have hdrained := (drained_iff h hq hc h' hc.sound).mpr hstranded
  obtain ⟨rows, hrows, hview⟩ := materializeKeyed_row w'.begun.clients.mgr (w'.table.snapshotForScan w'.newReader)
    (fun seg hseg => (hc.sound.base seg hseg).readable) []
  have hperm : rows.Perm (basePairs w'.table.baseSegments) := by
    refine Keyed.perm_of_keys fun x => List.Perm.of_eq ?_
    have hbase : (rowOf w'.table.delta (basePairs w'.table.baseSegments) [] x).view w'.begun.clients.mgr
        w'.newReader = (w'.row x).base := by
      rw [RowState.view_of_not_visible]
      · have hhidden : (rowOf w'.table.delta (basePairs w'.table.baseSegments) [] x).hidden w'.begun.clients.mgr
            w'.newReader = false := hidden_of_compacted h hq hc h' x
        rw [hhidden]
        rfl
      · exact fun a ha hat => hdrained.delta a (List.mem_of_mem_filter ha) hat
    rw [hview x]
    change List.map _ ((rowOf w'.table.delta (basePairs w'.table.baseSegments) [] x).view _ w'.newReader) = _
    rw [hbase, ← Keyed.map_filter_key (basePairs w'.table.baseSegments) x, ← List.map_map]
    rfl
  refine ⟨rows.map (·.2), ?_, hperm.map _⟩
  have hscan : materializeKeyed w'.table.txnMgr.begin.2 (w'.table.snapshotForScan w'.table.txnMgr.begin.1) =
      some rows := hrows
  rw [Table.newReaderRows, materializeVisibleRows, hscan]
  rfl

end World

/-! ## The query -/

/-- The query over rows that have their id in front. -/
def AggregateQuery.onBase (query : AggregateQuery) : AggregateQuery where
  predicateColumn := query.predicateColumn + 1
  aggregateColumn := query.aggregateColumn + 1
  threshold := query.threshold

section
variable (query : AggregateQuery)

theorem prunes_perm {rows rows' : List Row} (h : rows.Perm rows') : prunes query rows = prunes query rows' := by
  unfold prunes
  rw [h.any_eq, h.any_eq]

theorem countSum_perm {α : Type} {p : α → Bool} {f : α → BitVec 64} {l l' : List α} (h : l.Perm l') :
    countSum p f l = countSum p f l' := by
  unfold countSum
  rw [h.countP_eq, ((h.filter p).map f).sum_eq]

/-- The order of the rows does not matter. -/
theorem scanRows_perm {rows rows' : List Row} (h : rows.Perm rows') :
    scanRows query rows = scanRows query rows' := by
  unfold scanRows
  rw [prunes_perm query h, countSum_perm h]

theorem scanRows_fullRow (ps : List (Nat × Row)) :
    scanRows query.onBase (ps.map fullRow) = scanRows query (ps.map (·.2)) := by
  have hprunes : prunes query.onBase (ps.map fullRow) = prunes query (ps.map (·.2)) := by
    unfold prunes
    rw [List.any_map, List.any_map, List.any_map, List.any_map]
    rfl
  unfold scanRows
  rw [hprunes, countSum_map, countSum_map]
  rfl

end

/-- The number of rows with a predicate value above the threshold, which a NULL is not, and the sum
of their aggregate values, to which a NULL adds nothing. -/
def AggregateQuery.answer (query : AggregateQuery) (rows : List Row) : FilterSumResult :=
  countSum (fun row => decide (query.pred row ≠ .null ∧ query.threshold.toInt < (query.pred row).raw.toInt))
    (fun row => (query.agg row).raw) rows

/-- A NULL, read as 0, is not above the threshold. -/
theorem scanRows_eq_answer {query : AggregateQuery} {rows : List Row} (hsep : SeparatesDoubles query rows)
    (hnull : (∀ row ∈ rows, query.pred row ≠ .null) ∨ 0 ≤ query.threshold.toInt) :
    scanRows query rows = query.answer rows := by
  rw [scanRows_of_separates hsep, AggregateQuery.answer, rawAbove_eq]
  refine countSum_congr (fun row hrow => ?_) fun _ _ => rfl
  rw [decide_eq_decide]
  refine ⟨fun habove => ⟨?_, habove⟩, fun h => h.2⟩
  rcases hnull with hnn | hpos
  · exact hnn row hrow
  · intro hp
    have hzero : Value.null.raw.toInt = 0 := rfl
    rw [hp, hzero] at habove
    omega

/-- The engine over the base of a table, in terms of the rows of the base. -/
theorem Table.BuiltBase.allReturn {t : Table} (h : t.BuiltBase) (query : AggregateQuery) {p a : ColumnSchema}
    (hp : t.userSchema[query.predicateColumn]? = some p) (hpt : p.type = .int64)
    (ha : t.userSchema[query.aggregateColumn]? = some a) (hat : a.type = .int64) :
    AllReturn t.baseSegments query.onBase (scanRows query ((basePairs t.baseSegments).map (·.2))) := by
  have hbuilt : ∀ seg ∈ t.baseSegments, BuiltFrom query.onBase (seg.pairs.map fullRow) seg := by
    intro seg hseg
    obtain ⟨hsize, segmentId, hb⟩ := h.built seg hseg
    refine ⟨⟨segmentId, t.fullSchema, p, a, hb, ?_, hpt, ?_, hat⟩, ?_⟩
    · rw [Table.fullSchema, fullSchemaOf]
      exact hp
    · rw [Table.fullSchema, fullSchemaOf]
      exact ha
    · rw [List.length_map]
      omega
  rcases hsegs : t.baseSegments with _ | ⟨seg, _ | ⟨seg', rest⟩⟩
  · exact (allReturn_iff .nil _).mpr rfl
  · have hall := List.Forall₂.cons (hbuilt seg (by simp [hsegs])) .nil
    refine (allReturn_iff hall _).mpr ?_
    simp only [List.map_cons, List.map_nil, List.sum_cons, List.sum_nil, add_zero]
    rw [scanRows_fullRow]
    simp [basePairs]
  · have hone := h.one
    rw [hsegs] at hone
    simp at hone

/-- **The engine answers for what is committed.**  In a reachable state without active
transactions, in which no aborted transaction had claimed a committed version, `Compact`
returns, and over the base segments it leaves every strategy aggregates the rows that a new
reader scans: exactly those above the threshold, if the doubles tell them apart and no NULL is
read as a 0 above it. -/
theorem engine_answers_committed (schema : Schema) (ops : List Op)
    (hconf : ∀ op ∈ ops, op.conforms schema = true) (w : World)
    (hrun : Runs.run World.step (World.create schema) ops = some w) (hq : w.Quiescent) (hfits : w.fits = true)
    (hstranded : ∀ a ∈ w.table.delta, w.stranded a = false) (query : AggregateQuery) (p a : ColumnSchema)
    (hp : schema[query.predicateColumn]? = some p) (hpt : p.type = .int64)
    (ha : schema[query.aggregateColumn]? = some a) (hat : a.type = .int64) :
    ∃ w' rows, w.step (.compact []) = some w' ∧ w'.table.newReaderRows = some rows ∧
      AllReturn w'.table.baseSegments query.onBase (scanRows query rows) ∧
      (SeparatesDoubles query rows → (∀ row ∈ rows, query.pred row ≠ .null) ∨ 0 ≤ query.threshold.toInt →
        AllReturn w'.table.baseSegments query.onBase (query.answer rows)) := by
  have hgood := World.good_run (World.good_create schema) hconf hrun
  have hran : Runs.run World.txnStep w [].flatten = some w := rfl
  obtain ⟨tb, htb, hcomp⟩ := World.compact_spec hgood.toInv hgood.sound hfits hran
  have hstep : w.step (.compact []) = some { w with table := { tb with txnMgr := w.table.txnMgr } } := by
    simp [World.step, hfits, htb]
  have hconf' : (Op.compact []).conforms schema = true := rfl
  have hgood' := World.good_step hgood hconf' hstep
  have hbuilt := World.builtBase_step hgood (World.builtBase_run hconf hrun) hconf' hstep
  obtain ⟨rows, hrows, hperm⟩ := World.newReader_scans_base hgood.toInv hq hcomp hgood'.toInv hstranded
  have hall := hbuilt.allReturn query (hgood'.schema_eq ▸ hp) hpt (hgood'.schema_eq ▸ ha) hat
  rw [← scanRows_perm query hperm] at hall
  refine ⟨_, rows, hstep, hrows, hall, fun hsep hnull => ?_⟩
  rw [scanRows_eq_answer hsep hnull] at hall
  exact hall

/-- Two rows, of which transaction 3 updates the first. -/
def updatedPair : List Op :=
  [.txn .begin, .insert 1 [.int64 5#64, .int64 50#64], .insert 1 [.int64 9#64, .int64 90#64], .txn (.commit 1),
    .txn .begin, .update 3 1 [.int64 7#64, .int64 70#64], .txn (.commit 3)]

theorem engine_answers_updatedPair : ∃ w w', Runs.run World.step (World.create samplePair) updatedPair = some w ∧
    w.Quiescent ∧ w.step (.compact []) = some w' ∧ AllReturn w'.table.baseSegments ⟨1, 2, 6#64⟩ ⟨2#64, 160#64⟩ := by
  have hcheck : ((Runs.run World.step (World.create samplePair) updatedPair).any fun w => w.fits &&
      ((List.range w.table.txnMgr.nextId).all fun t => (w.clients.active t).isNone) &&
      (w.table.delta.all fun a => !w.stranded a) &&
      (w.step (.compact [])).any fun w' => w'.table.newReaderRows.any fun rows =>
        scanRows ⟨0, 1, 6#64⟩ rows == ⟨2#64, 160#64⟩) = true := by
    decide +kernel
  obtain ⟨w, hw, hfacts⟩ := Runs.exists_of_any hcheck
  simp only [Bool.and_eq_true, List.all_eq_true, Bool.not_eq_true'] at hfacts
  obtain ⟨⟨⟨hfits, hidle⟩, hstranded⟩, hresult⟩ := hfacts
  have hgood := World.good_run (World.good_create samplePair) (by decide) hw
  have hq := World.quiescent_of_check hgood.toInv (List.all_eq_true.mpr hidle)
  obtain ⟨w', rows, hw', hrows, hall, -⟩ := engine_answers_committed samplePair updatedPair (by decide) w hw hq hfits
    hstranded ⟨0, 1, 6#64⟩ _ _ rfl rfl rfl rfl
  refine ⟨w, w', hw, hq, hw', ?_⟩
  simp only [hw', hrows, Option.any_some, beq_iff_eq] at hresult
  rwa [hresult] at hall

end CoreDB
