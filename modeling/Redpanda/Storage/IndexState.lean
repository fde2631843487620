import Mathlib
import Redpanda.Lib.SortedSearch

/-! # The segment index

    Model of `storage/index_state.{h,cc}`: the sparse index of a segment,
    one row per indexed batch holding the batch's base offset relative to
    the segment's, its time relative to the segment's first, and where it
    starts in the file.  `maybe_index` is called for every batch appended
    and adds a row for the first batch and for every user batch the caller
    has accumulated a step of bytes for; `find_nearest` finds the row of the
    last indexed batch at or before an offset, `find_below_size_bytes` and
    `find_above_size_bytes` the rows around a file position, and `truncate`
    drops the rows of the batches it cuts.

    The three columns of `index_columns` are kept as one list of rows: the
    columns are only ever pushed, popped and read together.  A `uint32_t`
    is a `Nat` below `2 ^ 32`, and the conversions of `model::offset` and
    `model::timestamp` (`int64_t`) differences to `uint32_t` are taken
    modulo `2 ^ 32`.  A `vassert` that fails is `none`. -/

namespace Storage

/-- `offset_time_index`: a time delta as the `uint32_t` the time column
    holds, offset by `2 ^ 31` when `with_offset`. -/
structure OffsetTimeIndex where
  withOffset : Bool
  val : Nat
deriving DecidableEq, Repr

namespace OffsetTimeIndex

/-- `offset_time_index(model::timestamp, offset_delta_time)`: the delta
    clamped to what the column holds. -/
def ofTimestamp (ts : Int) (withOffset : Bool) : OffsetTimeIndex :=
  if withOffset then ⟨true, (max (-2 ^ 31) (min ts (2 ^ 31 - 1)) + 2 ^ 31).toNat⟩
  else ⟨false, (max 0 (min ts (2 ^ 32 - 1))).toNat⟩

/-- `offset_time_index::operator()`: the `uint32_t` subtraction of the
    offset. -/
def get (t : OffsetTimeIndex) : Nat :=
  if t.withOffset then (t.val + 2 ^ 32 - 2 ^ 31) % 2 ^ 32 else t.val

end OffsetTimeIndex

/-- One row of `index_columns`: `relative_offset_index`,
    `relative_time_index` (the raw value) and `position_index`. -/
structure IndexRow where
  relativeOffset : Nat
  relativeTime : Nat
  position : Nat
deriving DecidableEq, Repr

/-- `index_columns::offset_lower_bound`: the first row whose relative
    offset is at least `needle`, or `nullopt` past the end. -/
def offsetLowerBound (rows : List IndexRow) (needle : Nat) : Option Nat :=
  let i := SortedSearch.lowerBound IndexRow.relativeOffset rows needle
  if i = rows.length then none else some i

/-- `index_columns::position_upper_bound`: the first row whose position is
    above `needle`, or `nullopt` past the end. -/
def positionUpperBound (rows : List IndexRow) (needle : Nat) : Option Nat :=
  let i := SortedSearch.upperBound IndexRow.position rows needle
  if i = rows.length then none else some i

/-- `index_columns::try_reset_relative_time_index`: the time of the only
    row, or `false` (here `none`) when there is not exactly one. -/
def tryResetRelativeTimeIndex (rows : List IndexRow) (t : Nat) : Option (List IndexRow) :=
  match rows with
  | [row] => some [{ row with relativeTime := t }]
  | _ => none

/-- `index_state::entry`. -/
structure Entry where
  offset : Int
  timestamp : Int
  filepos : Nat
deriving DecidableEq, Repr

/-- The fields of `index_state` that the functions modelled here read or
    write. -/
structure IndexState where
  baseOffset : Int
  maxOffset : Int
  baseTimestamp : Int
  maxTimestamp : Int
  index : List IndexRow
  withOffset : Bool
  nonDataTimestamps : Bool
  brokerTimestamp : Option Int
  numCompactibleRecordsAppended : Option Nat
deriving DecidableEq, Repr

/-- The arguments of one `maybe_index` call: the batch appended and the
    bytes the caller has accumulated since the last indexed batch. -/
structure Batch where
  accumulator : Nat
  step : Nat
  startingPositionInFile : Nat
  baseOffset : Int
  maxOffset : Int
  firstTimestamp : Int
  lastTimestamp : Int
  newBrokerTimestamp : Option Int
  userData : Bool
  compactibleRecords : Nat
deriving DecidableEq, Repr

/-- The `last_timestamp` a batch is indexed with: for user data, no
    earlier than its first. -/
def Batch.indexedTimestamp (b : Batch) : Int :=
  if b.userData then max b.firstTimestamp b.lastTimestamp else b.lastTimestamp

namespace IndexState

/-- `make_empty_index(with_offset)`, its `base_offset` then set by the
    segment that owns it. -/
def makeEmptyIndex (withOffset : Bool) (baseOffset : Int) : IndexState :=
  ⟨baseOffset, 0, 0, 0, [], withOffset, false, none, some 0⟩

/-- `index_state::empty`. -/
def empty (s : IndexState) : Bool := s.index.isEmpty

/-- `index_state::pop_back(n)`. -/
def popBack (s : IndexState) (n : Nat) : IndexState :=
  let s := { s with index := s.index.take (s.index.length - n) }
  if s.empty then { s with nonDataTimestamps := false } else s

/-- `index_state::translate_index_entry` of the row `get_entry` reads. -/
def translateIndexEntry (s : IndexState) (row : IndexRow) : Entry :=
  ⟨row.relativeOffset + s.baseOffset,
    (OffsetTimeIndex.get ⟨s.withOffset, row.relativeTime⟩ : Int) + s.baseTimestamp, row.position⟩

/-- The first user batch after a configuration batch was indexed first
    puts its own timestamps in place of that batch's. -/
def resetNonDataTimestamps (s : IndexState) (b : Batch) : Option IndexState :=
  if b.userData ∧ s.nonDataTimestamps then
    (tryResetRelativeTimeIndex s.index
        (OffsetTimeIndex.ofTimestamp b.lastTimestamp s.withOffset).val).map fun index =>
      { s with index, baseTimestamp := b.firstTimestamp, maxTimestamp := b.firstTimestamp,
               nonDataTimestamps := false }
  else some s

/-- The first batch of an empty index sets its timestamps, and marks them
    as a configuration batch's when it is not user data. -/
def startTimestamps (s : IndexState) (b : Batch) : IndexState :=
  if s.empty then
    { s with nonDataTimestamps := !b.userData, baseTimestamp := b.firstTimestamp,
             maxTimestamp := b.firstTimestamp }
  else s

/-- What every batch moves: the max offset, for user data the max and the
    broker timestamps, and the count of compactible records. -/
def recordBatch (s : IndexState) (b : Batch) : IndexState :=
  let s := { s with maxOffset := b.maxOffset }
  let s := if b.userData then
      { s with maxTimestamp := max s.maxTimestamp b.indexedTimestamp,
               brokerTimestamp := b.newBrokerTimestamp.or s.brokerTimestamp }
    else s
  let appended := s.numCompactibleRecordsAppended.getD 0 + b.compactibleRecords
  if 0 < b.compactibleRecords then { s with numCompactibleRecordsAppended := some appended } else s

/-- The row `add_entry` writes for a batch: its base offset past the
    segment's (`uint32_t`), its time past the segment's first, and where it
    starts in the file. -/
def entryRow (s : IndexState) (b : Batch) : IndexRow :=
  ⟨((b.baseOffset - s.baseOffset) % 2 ^ 32).toNat,
    (OffsetTimeIndex.ofTimestamp (b.indexedTimestamp - s.baseTimestamp) s.withOffset).val,
    b.startingPositionInFile⟩

/-- `index_state::maybe_index`: whether a row was added, and the state. -/
def maybeIndex (s : IndexState) (b : Batch) : Option (Bool × IndexState) := do
  -- vassert(batch_base_offset >= base_offset)
  if b.baseOffset < s.baseOffset then none
  let s ← resetNonDataTimestamps s b
  let retval := s.empty
  let s := recordBatch (startTimestamps s b) b
  -- the first batch is always indexed
  if (b.step ≤ b.accumulator ∧ b.userData) ∨ retval then
    pure (true, { s with index := s.index ++ [entryRow s b] })
  else pure (retval, s)

/-- The `do`-`while` of `find_nearest`, over the rows from where it starts
    back to the first: the first whose relative offset is at most
    `needle`. -/
def findNearestLoop (needle : Nat) : List IndexRow → Option IndexRow
  | [] => none
  | row :: rows => if row.relativeOffset ≤ needle then some row else findNearestLoop needle rows

/-- `index_state::find_nearest(model::offset)`. -/
def findNearest (s : IndexState) (o : Int) : Option Entry :=
  if o < s.baseOffset ∨ s.empty then none
  else
    let needle := ((o - s.baseOffset) % 2 ^ 32).toNat
    let ix := (offsetLowerBound s.index needle).getD (s.index.length - 1)
    (findNearestLoop needle (s.index.take (ix + 1)).reverse).map s.translateIndexEntry

/-- `index_state::find_above_size_bytes`. -/
def findAboveSizeBytes (s : IndexState) (distance : Nat) : Option Entry :=
  if s.empty then none
  else do
    let i ← positionUpperBound s.index distance
    let row ← s.index[i]?
    pure (s.translateIndexEntry row)

/-- `index_state::find_below_size_bytes`. -/
def findBelowSizeBytes (s : IndexState) (distance : Nat) : Option Entry :=
  if s.empty then none
  else
    let ix := (positionUpperBound s.index distance).getD s.index.length
    if 0 < ix then (s.index[ix - 1]?).map s.translateIndexEntry else none

/-- `index_state::truncate`: whether the index must be written again, and
    the state. -/
def truncate (s : IndexState) (newMaxOffset newMaxTimestamp : Int) : Bool × IndexState :=
  if newMaxOffset < s.baseOffset then (false, s)
  else
    let i := ((newMaxOffset - s.baseOffset) % 2 ^ 32).toNat
    let removeBackElems := s.index.length - (offsetLowerBound s.index i).getD s.index.length
    let (needsPersistence, s) :=
      if 0 < removeBackElems then (true, s.popBack removeBackElems) else (false, s)
    if newMaxOffset < s.maxOffset then
      (true, if s.empty then { s with maxTimestamp := s.baseTimestamp, maxOffset := s.baseOffset }
        else { s with maxTimestamp := newMaxTimestamp, maxOffset := newMaxOffset })
    else (needsPersistence, s)

/-- `maybe_index` for each batch in turn. -/
def runMaybeIndex (s : IndexState) : List Batch → Option IndexState
  | [] => some s
  | b :: bs => (s.maybeIndex b).bind fun r => runMaybeIndex r.2 bs

end IndexState

/-! ## Lookups on a sorted index

    While the rows are sorted by relative offset and by position, each
    lookup finds what it is for: the last row at or before an offset below
    `2 ^ 32` past the base, and the rows either side of a file position. -/

namespace IndexState

/-- The rows sorted as the batches they index were appended: strictly by
    relative offset and by position. -/
def Sorted (rows : List IndexRow) : Prop :=
  rows.Pairwise fun r r' => r.relativeOffset < r'.relativeOffset ∧ r.position < r'.position

/-- What the lookups of a state are for: `find_nearest` gives the row of
    the last batch at or before an offset, `find_below_size_bytes` the last
    row at or before a file position and `find_above_size_bytes` the first
    past it. -/
def Lookups (s : IndexState) : Prop :=
  (∀ o, s.baseOffset ≤ o → o < s.baseOffset + 2 ^ 32 →
    s.findNearest o = ((s.index.filter fun r => s.baseOffset + r.relativeOffset ≤ o).getLast?).map
      s.translateIndexEntry) ∧
  (∀ d, s.findBelowSizeBytes d =
    ((s.index.filter fun r => r.position ≤ d).getLast?).map s.translateIndexEntry) ∧
  (∀ d, s.findAboveSizeBytes d =
    ((s.index.filter fun r => d < r.position).head?).map s.translateIndexEntry)

theorem empty_iff {s : IndexState} : s.empty = true ↔ s.index = [] := by
  simp [empty]

theorem findNearestLoop_eq_find? (needle : Nat) : ∀ rows : List IndexRow,
    findNearestLoop needle rows = rows.find? fun r => r.relativeOffset ≤ needle
  | [] => rfl
  | row :: rows => by
    by_cases h : row.relativeOffset ≤ needle
    · simp [findNearestLoop, h]
    · simp [findNearestLoop, h, findNearestLoop_eq_find? needle rows]

/-- The row at `position_upper_bound`, or past the end. -/
theorem getD_positionUpperBound (rows : List IndexRow) (d : Nat) :
    (positionUpperBound rows d).getD rows.length = SortedSearch.upperBound IndexRow.position rows d := by
  unfold positionUpperBound
  dsimp only
  split_ifs with h
  · exact h.symm
  · rfl

section Sorted

variable {s : IndexState} (hs : Sorted s.index)
include hs

theorem findNearest_of_sorted {o : Int} (h1 : s.baseOffset ≤ o) (h2 : o < s.baseOffset + 2 ^ 32) :
    s.findNearest o = ((s.index.filter fun r => s.baseOffset + r.relativeOffset ≤ o).getLast?).map
      s.translateIndexEntry := by
  -- the needle is the offset past the base, below `2 ^ 32`
  have hneedle : ((o - s.baseOffset) % 2 ^ 32).toNat = (o - s.baseOffset).toNat := by
    rw [Int.emod_eq_of_lt (by omega) (by omega)]
  have hfilter : (s.index.filter fun r => s.baseOffset + r.relativeOffset ≤ o) =
      s.index.filter fun r => r.relativeOffset ≤ (o - s.baseOffset).toNat :=
    List.filter_congr fun r _ => by simp only [decide_eq_decide]; omega
  rw [hfilter]
  unfold findNearest
  by_cases hemp : s.index = []
  · simp [hemp, empty]
  rw [if_neg (by simp [empty, hemp]; omega)]
  dsimp only
  rw [hneedle, findNearestLoop_eq_find?, SortedSearch.find?_reverse]
  congr 2
  unfold offsetLowerBound
  dsimp only
  split_ifs with hlb
  · -- every offset is below the needle: the scan starts at the last row
    have hpos : 0 < s.index.length := List.length_pos_iff.2 hemp
    rw [Option.getD_none, Nat.sub_add_cancel hpos, List.take_length]
  · rw [Option.getD_some]
    exact SortedSearch.filter_take_lowerBound_succ (hs.imp And.left) _

theorem findBelowSizeBytes_of_sorted (d : Nat) :
    s.findBelowSizeBytes d =
      ((s.index.filter fun r => r.position ≤ d).getLast?).map s.translateIndexEntry := by
  rw [SortedSearch.getLast?_filter_le (hs.imp fun h => h.2.le)]
  unfold findBelowSizeBytes
  by_cases hemp : s.index = []
  · simp [hemp, empty, SortedSearch.upperBound]
  rw [if_neg (by simpa [empty] using hemp)]
  dsimp only
  rw [getD_positionUpperBound]
  split_ifs <;> rfl

theorem findAboveSizeBytes_of_sorted (d : Nat) :
    s.findAboveSizeBytes d =
      ((s.index.filter fun r => d < r.position).head?).map s.translateIndexEntry := by
  rw [SortedSearch.head?_filter_lt (hs.imp fun h => h.2.le)]
  unfold findAboveSizeBytes
  by_cases hemp : s.index = []
  · simp [hemp, empty]
  rw [if_neg (by simpa [empty] using hemp)]
  unfold positionUpperBound
  dsimp only
  split_ifs with h
  · simp [h]
  · cases hrow : s.index[SortedSearch.upperBound IndexRow.position s.index d]? <;> simp [hrow]

theorem lookups_of_sorted : s.Lookups :=
  ⟨fun _ h1 h2 => findNearest_of_sorted hs h1 h2, findBelowSizeBytes_of_sorted hs,
    findAboveSizeBytes_of_sorted hs⟩

end Sorted

end IndexState

/-! ## One batch

    `maybe_index` keeps the base offset and adds the row of the batch when
    the index is empty or the batch is user data a step of bytes after the
    last row (`maybeIndex_spec`); its assertions hold while a configuration
    batch's timestamps are pending only with the one row of that batch. -/

/-- What a row says of its batch: where it starts, past the base offset and
    in the file. -/
def IndexRow.key (r : IndexRow) : Nat × Nat := (r.relativeOffset, r.position)

/-- The key of the row a batch gets in an index whose base offset is
    `base`. -/
def batchKey (base : Int) (b : Batch) : Nat × Nat :=
  (((b.baseOffset - base) % 2 ^ 32).toNat, b.startingPositionInFile)

namespace IndexState

variable {s : IndexState} {b : Batch}

@[simp] theorem index_startTimestamps : (s.startTimestamps b).index = s.index := by
  unfold startTimestamps
  split_ifs <;> rfl

@[simp] theorem baseOffset_startTimestamps : (s.startTimestamps b).baseOffset = s.baseOffset := by
  unfold startTimestamps
  split_ifs <;> rfl

theorem nonDataTimestamps_startTimestamps :
    (s.startTimestamps b).nonDataTimestamps =
      if s.index = [] then !b.userData else s.nonDataTimestamps := by
  unfold startTimestamps
  by_cases h : s.index = [] <;> simp [h, empty]

@[simp] theorem index_recordBatch : (s.recordBatch b).index = s.index := by
  unfold recordBatch
  dsimp only
  split_ifs <;> rfl

@[simp] theorem baseOffset_recordBatch : (s.recordBatch b).baseOffset = s.baseOffset := by
  unfold recordBatch
  dsimp only
  split_ifs <;> rfl

@[simp] theorem nonDataTimestamps_recordBatch :
    (s.recordBatch b).nonDataTimestamps = s.nonDataTimestamps := by
  unfold recordBatch
  dsimp only
  split_ifs <;> rfl

theorem key_entryRow : (s.entryRow b).key = batchKey s.baseOffset b := rfl

theorem tryResetRelativeTimeIndex_of_length {rows : List IndexRow} (h : rows.length = 1) (t : Nat) :
    ∃ rows', tryResetRelativeTimeIndex rows t = some rows' ∧
      rows'.map IndexRow.key = rows.map IndexRow.key := by
  match rows, h with
  | [_], _ => exact ⟨_, rfl, rfl⟩

/-- The reset of a configuration batch's timestamps keeps the rows' keys,
    and after it timestamps are pending only before user data, with one
    row. -/
theorem resetNonDataTimestamps_spec (b : Batch)
    (hwf : s.nonDataTimestamps = true → s.index.length = 1) :
    ∃ s₁, s.resetNonDataTimestamps b = some s₁ ∧ s₁.baseOffset = s.baseOffset ∧
      s₁.index.map IndexRow.key = s.index.map IndexRow.key ∧
      (s₁.nonDataTimestamps = true → b.userData = false ∧ s₁.index.length = 1) := by
  unfold resetNonDataTimestamps
  split_ifs with h
  · obtain ⟨rows', hrows, hkeys⟩ := tryResetRelativeTimeIndex_of_length (hwf h.2)
      (OffsetTimeIndex.ofTimestamp b.lastTimestamp s.withOffset).val
    rw [hrows]
    exact ⟨_, rfl, rfl, hkeys, by simp⟩
  · refine ⟨s, rfl, rfl, rfl, fun hnd => ⟨?_, hwf hnd⟩⟩
    simpa [hnd] using h

/-- One call of `maybe_index` on a batch at or past the base offset. -/
theorem maybeIndex_spec (hb : s.baseOffset ≤ b.baseOffset)
    (hwf : s.nonDataTimestamps = true → s.index.length = 1) :
    ∃ r s', s.maybeIndex b = some (r, s') ∧ s'.baseOffset = s.baseOffset ∧
      s'.index.map IndexRow.key = s.index.map IndexRow.key ++
        (if s.index = [] ∨ (b.step ≤ b.accumulator ∧ b.userData = true) then
          [batchKey s.baseOffset b] else []) ∧
      (s'.nonDataTimestamps = true → s'.index.length = 1) := by
  obtain ⟨s₁, hreset, hbase, hkeys, hnd⟩ := resetNonDataTimestamps_spec b hwf
  have hempty : s₁.index = [] ↔ s.index = [] := by
    rw [← List.map_eq_nil_iff (f := IndexRow.key), hkeys, List.map_eq_nil_iff]
  have hlen : s₁.index.length = s.index.length := by
    rw [← List.length_map (f := IndexRow.key), hkeys, List.length_map]
  unfold maybeIndex
  simp only [if_neg (not_lt.2 hb), hreset, Option.bind_eq_bind, Option.bind_some]
  by_cases hcond : (b.step ≤ b.accumulator ∧ b.userData = true) ∨ s₁.empty = true
  · -- the batch gets a row
    rw [if_pos hcond]
    refine ⟨true, _, rfl, by simp [hbase], ?_, ?_⟩
    · have hif : s.index = [] ∨ (b.step ≤ b.accumulator ∧ b.userData = true) := by
        rw [empty_iff, hempty] at hcond
        tauto
      simp only [index_recordBatch, index_startTimestamps, List.map_append, hkeys, if_pos hif,
        List.map_cons, List.map_nil, key_entryRow, baseOffset_recordBatch,
        baseOffset_startTimestamps, hbase]
    · rw [nonDataTimestamps_recordBatch, nonDataTimestamps_startTimestamps]
      intro h
      simp only [index_recordBatch, index_startTimestamps, List.length_append,
        List.length_singleton]
      split_ifs at h with h₁
      · simp [h₁]
      · -- timestamps still pending: a configuration batch, which no step indexes
        have huser : b.userData = true := by
          rw [empty_iff] at hcond
          tauto
        rw [(hnd h).1] at huser
        cases huser
  · -- the batch gets no row
    rw [if_neg hcond]
    refine ⟨_, _, rfl, by simp [hbase], ?_, ?_⟩
    · have hif : ¬ (s.index = [] ∨ (b.step ≤ b.accumulator ∧ b.userData = true)) := by
        rw [empty_iff, hempty] at hcond
        tauto
      simp only [index_recordBatch, index_startTimestamps, hkeys, if_neg hif, List.append_nil]
    · rw [nonDataTimestamps_recordBatch, nonDataTimestamps_startTimestamps,
        if_neg (by rw [empty_iff] at hcond; tauto)]
      intro h
      simpa using (hnd h).2

end IndexState

/-! ## A run of batches

    From an empty index, a run of `maybe_index` over batches at or past the
    base offset never trips an assertion and leaves one row for each batch
    it indexes (`runMaybeIndex_spec`): the first, and each user batch a step
    of bytes after the last row.  Batches appended in increasing offsets
    and file positions, within `2 ^ 32` of the base offset, leave the rows
    sorted (`sorted_of_run`). -/

/-- The batches a run of `maybe_index` adds a row for, from an index that is
    empty (`first`) or not. -/
def indexedBatches : Bool → List Batch → List Batch
  | _, [] => []
  | first, b :: bs =>
      (if first = true ∨ (b.step ≤ b.accumulator ∧ b.userData = true) then [b] else []) ++
        indexedBatches false bs

theorem indexedBatches_sublist : ∀ (first : Bool) (bs : List Batch),
    (indexedBatches first bs).Sublist bs
  | _, [] => List.Sublist.slnil
  | first, b :: bs => by
    rw [indexedBatches]
    split_ifs
    · exact (indexedBatches_sublist false bs).cons_cons b
    · exact (indexedBatches_sublist false bs).cons b

namespace IndexState

/-- A run of `maybe_index`: the base offset stays, and the run adds the rows
    of the batches it indexes. -/
theorem runMaybeIndex_spec : ∀ (bs : List Batch) {s : IndexState},
    (∀ b ∈ bs, s.baseOffset ≤ b.baseOffset) → (s.nonDataTimestamps = true → s.index.length = 1) →
    ∃ s', s.runMaybeIndex bs = some s' ∧ s'.baseOffset = s.baseOffset ∧
      s'.index.map IndexRow.key =
        s.index.map IndexRow.key ++ (indexedBatches s.index.isEmpty bs).map (batchKey s.baseOffset)
  | [], s, _, _ => ⟨s, rfl, rfl, by simp [indexedBatches]⟩
  | b :: bs, s, hb, hwf => by
    obtain ⟨r, s₁, hstep, hbase, hkeys, hwf₁⟩ := maybeIndex_spec (hb b (List.mem_cons_self ..)) hwf
    obtain ⟨s', hrun, hbase', hkeys'⟩ :=
      runMaybeIndex_spec bs (s := s₁) (fun b' hb' => hbase ▸ hb b' (List.mem_cons_of_mem _ hb')) hwf₁
    -- after the first batch the index is never empty
    have hne : s₁.index.isEmpty = false := by
      rw [List.isEmpty_eq_false_iff]
      intro h
      have hmap := hkeys
      rw [h, List.map_nil, eq_comm, List.append_eq_nil_iff] at hmap
      by_cases hs : s.index = []
      · simp [hs] at hmap
      · exact hs (List.map_eq_nil_iff.1 hmap.1)
    refine ⟨s', by simp [runMaybeIndex, hstep, hrun], hbase'.trans hbase, ?_⟩
    rw [hkeys', hkeys, hne, hbase, indexedBatches, List.map_append, ← List.append_assoc]
    congr 2
    by_cases h : s.index = [] <;> by_cases hc : b.step ≤ b.accumulator ∧ b.userData = true <;>
      simp [h, hc]

/-- Rows whose keys are sorted are sorted. -/
theorem sorted_of_keys {rows : List IndexRow}
    (h : (rows.map IndexRow.key).Pairwise fun k k' => k.1 < k'.1 ∧ k.2 < k'.2) : Sorted rows :=
  List.pairwise_map.1 h

/-- Batches in increasing offsets and positions within `2 ^ 32` of the base
    have keys in increasing order. -/
theorem pairwise_batchKey {base : Int} {bs : List Batch}
    (hrange : ∀ b ∈ bs, base ≤ b.baseOffset ∧ b.baseOffset < base + 2 ^ 32)
    (hord : bs.Pairwise fun a b =>
      a.baseOffset < b.baseOffset ∧ a.startingPositionInFile < b.startingPositionInFile) :
    (bs.map (batchKey base)).Pairwise fun k k' => k.1 < k'.1 ∧ k.2 < k'.2 := by
  rw [List.pairwise_map]
  refine List.Pairwise.imp_of_mem ?_ hord
  intro a b ha hb hab
  obtain ⟨ha₁, ha₂⟩ := hrange a ha
  obtain ⟨hb₁, hb₂⟩ := hrange b hb
  simp only [batchKey]
  rw [Int.emod_eq_of_lt (by omega) (by omega), Int.emod_eq_of_lt (by omega) (by omega)]
  omega

/-! ## Truncation -/

@[simp] theorem index_popBack (s : IndexState) (n : Nat) :
    (s.popBack n).index = s.index.take (s.index.length - n) := by
  unfold popBack
  dsimp only
  split_ifs <;> rfl

theorem getD_offsetLowerBound (rows : List IndexRow) (i : Nat) :
    (offsetLowerBound rows i).getD rows.length = SortedSearch.lowerBound IndexRow.relativeOffset rows i := by
  unfold offsetLowerBound
  dsimp only
  split_ifs with h
  · exact h.symm
  · rfl

@[simp] theorem baseOffset_truncate (s : IndexState) (m ts : Int) :
    (s.truncate m ts).2.baseOffset = s.baseOffset := by
  unfold truncate
  dsimp only
  split_ifs <;> simp [popBack] <;> split_ifs <;> rfl

/-- `truncate` keeps the rows of the batches before the new max offset, as
    a `uint32_t` past the base. -/
theorem truncate_index_of_sorted {s : IndexState} (hs : Sorted s.index) (m ts : Int) :
    (s.truncate m ts).2.index = if m < s.baseOffset then s.index
      else s.index.filter fun r => r.relativeOffset < ((m - s.baseOffset) % 2 ^ 32).toNat := by
  unfold truncate
  split_ifs with hm
  · rfl
  dsimp only
  rw [getD_offsetLowerBound, ← SortedSearch.take_lowerBound (hs.imp fun h => h.1.le)]
  have hle := SortedSearch.lowerBound_le_length IndexRow.relativeOffset s.index
    ((m - s.baseOffset) % 2 ^ 32).toNat
  generalize SortedSearch.lowerBound IndexRow.relativeOffset s.index
    ((m - s.baseOffset) % 2 ^ 32).toNat = lb at hle ⊢
  -- the rows kept are those before `lower_bound`, whether or not any go
  by_cases hpop : 0 < s.index.length - lb
  · have hpopped : (s.popBack (s.index.length - lb)).index = s.index.take lb := by
      rw [index_popBack, Nat.sub_sub_self hle]
    rw [if_pos hpop]
    dsimp only
    split_ifs <;> exact hpopped
  · rw [if_neg hpop]
    dsimp only
    rw [show lb = s.index.length by omega, List.take_length]
    split_ifs <;> rfl

theorem sorted_truncate {s : IndexState} (hs : Sorted s.index) (m ts : Int) :
    Sorted (s.truncate m ts).2.index := by
  rw [truncate_index_of_sorted hs]
  split_ifs
  · exact hs
  · exact hs.filter _

end IndexState

/-! ## Lookups after a run -/

theorem find_nearest_preceding_indexed_batch (s₀ : IndexState) (batches : List Batch)
    (hempty : s₀.index = []) (hflag : s₀.nonDataTimestamps = false)
    (hrange : ∀ b ∈ batches, s₀.baseOffset ≤ b.baseOffset ∧ b.baseOffset < s₀.baseOffset + 2 ^ 32)
    (hord : batches.Pairwise fun a b =>
      a.baseOffset < b.baseOffset ∧ a.startingPositionInFile < b.startingPositionInFile) :
    ∃ s, s₀.runMaybeIndex batches = some s ∧ s.baseOffset = s₀.baseOffset ∧
      s.index.map IndexRow.key = (indexedBatches true batches).map (batchKey s₀.baseOffset) ∧
      s.Lookups ∧
      ∀ m ts, (s.truncate m ts).2.Lookups ∧
        (s₀.baseOffset ≤ m → m < s₀.baseOffset + 2 ^ 32 →
          (s.truncate m ts).2.index = s.index.filter fun r => s₀.baseOffset + r.relativeOffset < m) := by
  obtain ⟨s, hrun, hbase, hkeys⟩ :=
    IndexState.runMaybeIndex_spec batches (fun b hb => (hrange b hb).1) (by simp [hflag])
  rw [hempty, List.map_nil, List.nil_append, List.isEmpty_nil] at hkeys
  -- the rows are those of a sublist of the batches, so sorted as they are
  have hsorted : IndexState.Sorted s.index := by
    apply IndexState.sorted_of_keys
    rw [hkeys]
    exact (IndexState.pairwise_batchKey hrange hord).sublist
      ((indexedBatches_sublist true batches).map _)
  refine ⟨s, hrun, hbase, hkeys, IndexState.lookups_of_sorted hsorted, fun m ts => ⟨?_, ?_⟩⟩
  · exact IndexState.lookups_of_sorted (IndexState.sorted_truncate hsorted m ts)
  · intro h1 h2
    rw [IndexState.truncate_index_of_sorted hsorted, if_neg (by omega), hbase]
    refine List.filter_congr fun r _ => ?_
    rw [Int.emod_eq_of_lt (by omega) (by omega)]
    simp only [decide_eq_decide]
    omega

/-- Three batches of a segment whose index starts at offset 100: a
    configuration batch, a user batch before a step of bytes and one
    after. -/
def sampleBatches : List Batch :=
  [⟨0, 4096, 0, 100, 100, 5, 5, none, false, 0⟩,
    ⟨100, 4096, 50, 101, 110, 7, 9, none, true, 10⟩,
    ⟨5000, 4096, 900, 111, 120, 11, 12, some 13, true, 10⟩]

theorem find_nearest_preceding_indexed_batch_sample :
    ((IndexState.makeEmptyIndex true 100).index = [] ∧
      (IndexState.makeEmptyIndex true 100).nonDataTimestamps = false ∧
      (∀ b ∈ sampleBatches, (100 : Int) ≤ b.baseOffset ∧ b.baseOffset < 100 + 2 ^ 32) ∧
      sampleBatches.Pairwise fun a b =>
        a.baseOffset < b.baseOffset ∧ a.startingPositionInFile < b.startingPositionInFile) ∧
    ∃ s, (IndexState.makeEmptyIndex true 100).runMaybeIndex sampleBatches = some s ∧
      s.index.map IndexRow.key = (indexedBatches true sampleBatches).map (batchKey 100) ∧
      s.Lookups := by
  have hempty : (IndexState.makeEmptyIndex true 100).index = [] := rfl
  have hflag : (IndexState.makeEmptyIndex true 100).nonDataTimestamps = false := rfl
  have hrange : ∀ b ∈ sampleBatches, (100 : Int) ≤ b.baseOffset ∧ b.baseOffset < 100 + 2 ^ 32 := by
    decide
  have hord : sampleBatches.Pairwise fun a b =>
      a.baseOffset < b.baseOffset ∧ a.startingPositionInFile < b.startingPositionInFile := by
    decide
  obtain ⟨s, hrun, -, hkeys, hlookups, -⟩ :=
    find_nearest_preceding_indexed_batch _ _ hempty hflag hrange hord
  exact ⟨⟨hempty, hflag, hrange, hord⟩, s, hrun, hkeys, hlookups⟩

/-- Two user batches of a segment whose index starts at offset 0, at
    offsets 0 and 100, both indexed. -/
def wrapBatches : List Batch :=
  [⟨1, 1, 0, 0, 0, 0, 0, none, true, 0⟩, ⟨1, 1, 10, 100, 100, 0, 0, none, true, 0⟩]

/-- An offset `2 ^ 32` past the one `find_nearest` is asked for: the
    `uint32_t` needle wraps to 50, and the lookup returns the row of the
    batch at 0 where the last indexed batch at or before the offset is the
    one at 100. -/
theorem find_nearest_wraps_past_two_pow_32 :
    ∃ s, (IndexState.makeEmptyIndex false 0).runMaybeIndex wrapBatches = some s ∧
      s.findNearest (2 ^ 32 + 50) = some ⟨0, 0, 0⟩ ∧
      ((s.index.filter fun r => s.baseOffset + r.relativeOffset ≤ 2 ^ 32 + 50).getLast?).map
        s.translateIndexEntry = some ⟨100, 0, 10⟩ :=
  ⟨_, rfl, by decide, by decide⟩

end Storage
