import Redpanda.Storage.KeyOffsetMap
import Redpanda.Storage.CompactedIndex

/-! # Windowed compaction — building the offset map and deduplicating

    Model of `storage/segment_deduplication_utils.cc` and of the batch filter
    of `copy_data_segment_reducer` (`storage/compaction_reducers.cc`).
    `build_offset_map` walks the window from the newest segment to the
    oldest, puts every entry of each segment's compacted index into the map
    and stops at the first refused `put`.  `deduplicate_segment` then keeps a
    record of a compactible batch when the map does not hold its key or holds
    an offset not above the record's.

    The route: the map only ever holds offsets of index entries
    (`buildOffsetMap_sound`); a record is dropped only as a tombstone past the
    horizon or when the map holds a greater offset under its key
    (`deduplicateSegment_retains_or`); together, a dropped record has a later
    record in the window whose *spilled* key is its key
    (`deduplicate_dropped_has_later_spilled_key`).  A spilled key equals the
    full key only below `max_key_size`, so the latest record of a key shorter
    than the limit is always kept (`deduplicate_retains_latest_of_short_key`);
    at the limit a longer key shadows it.

    The time-dependent `is_past_tombstone_delete_horizon` and the feature
    flag are parameters, read once per segment as the code reads them. -/

namespace Compaction

open SimpleKeyOffsetMap

/-- A segment as compaction reads it. -/
structure Segment where
  /-- `offsets().get_base_offset()`. -/
  baseOffset : Int
  /-- `offsets().get_committed_offset()`. -/
  committedOffset : Int
  batches : List RecordBatch
  /-- The entries of the segment's compacted index file, in file order. -/
  compactedIndex : List IndexEntry
  /-- `index().has_clean_compact_timestamp()`. -/
  hasCleanCompactTimestamp : Bool
  /-- The segment was closed under the rebuild, which then throws
      `segment_closed_exception`. -/
  isClosed : Bool

/-- The index file holds entries of the segment's own records: whatever the
    spill order and the in-memory merging of `spill_key_index`, each entry is
    the entry of a record of a compactible batch. -/
def Segment.IndexOf (seg : Segment) : Prop :=
  ∀ e ∈ seg.compactedIndex, ∃ b ∈ seg.batches, isCompactible b.header = true ∧
    ∃ r ∈ b.records, e = indexEntry b r

/-- The index with one entry per record, in record order, is such an index. -/
theorem Segment.indexOf_of_eq {seg : Segment}
    (h : seg.compactedIndex = seg.batches.flatMap compactionIndexBatch) : seg.IndexOf := by
  intro e he
  rw [h, List.mem_flatMap] at he
  obtain ⟨b, hb, he⟩ := he
  exact ⟨b, hb, mem_compactionIndexBatch he⟩

/-! ## `build_offset_map` -/

/-- The loop of `build_offset_map_for_segment`: `put_entry` on each entry
    until a put is refused; whether every entry went in. -/
def putEntries (m : SimpleKeyOffsetMap) : List IndexEntry → Bool × SimpleKeyOffsetMap
  | [] => (true, m)
  | e :: es =>
      match m.put e.key e.absOffset with
      | (true, m') => putEntries m' es
      | (false, m') => (false, m')

/-- `build_offset_map_for_segment`: whether the segment was fully indexed. -/
def buildOffsetMapForSegment (seg : Segment) (m : SimpleKeyOffsetMap) :
    Bool × SimpleKeyOffsetMap :=
  putEntries m seg.compactedIndex

/-- The loop of `build_offset_map` over the segments, newest first, with
    `min_segment_fully_indexed`.  A cleanly compacted segment is skipped; a
    closed segment or a segment not fully indexed ends the loop. -/
def buildOffsetMapFrom (m : SimpleKeyOffsetMap) (minSegmentFullyIndexed : Option Int) :
    List Segment → Option Int × SimpleKeyOffsetMap
  | [] => (minSegmentFullyIndexed, m)
  | seg :: older =>
      if seg.hasCleanCompactTimestamp then
        buildOffsetMapFrom m (some seg.baseOffset) older
      else if seg.isClosed then
        (minSegmentFullyIndexed, m)
      else
        match buildOffsetMapForSegment seg m with
        | (false, m') => (minSegmentFullyIndexed, m')
        | (true, m') => buildOffsetMapFrom m' (some seg.baseOffset) older

/-- The two `std::runtime_error`s of `build_offset_map`. -/
inductive BuildOffsetMapError where
  /-- "No segments to build offset map". -/
  | noSegments
  /-- "Couldn't index {path}": not even the newest segment fit. -/
  | couldNotIndex
deriving DecidableEq, Repr

/-- `build_offset_map` over the window, oldest segment first: the base offset
    of the oldest fully indexed segment, and the map. -/
def buildOffsetMap (segs : List Segment) (m : SimpleKeyOffsetMap) :
    Except BuildOffsetMapError (Int × SimpleKeyOffsetMap) :=
  if segs.isEmpty then .error .noSegments
  else
    match buildOffsetMapFrom m none segs.reverse with
    | (none, _) => .error .couldNotIndex
    | (some o, m') => .ok (o, m')

/-- The map holds only offsets of entries of the given segments' indexes. -/
def FromIndexes (segs : List Segment) (m : SimpleKeyOffsetMap) : Prop :=
  ∀ key v, m.get key = some v →
    ∃ seg ∈ segs, ∃ e ∈ seg.compactedIndex, e.key = key ∧ e.absOffset = v

theorem putEntries_cons_of_put {m m' : SimpleKeyOffsetMap} {e : IndexEntry}
    {es : List IndexEntry} (h : m.put e.key e.absOffset = (true, m')) :
    putEntries m (e :: es) = putEntries m' es := by
  simp [putEntries, h]

theorem putEntries_cons_of_refused {m m' : SimpleKeyOffsetMap} {e : IndexEntry}
    {es : List IndexEntry} (h : m.put e.key e.absOffset = (false, m')) :
    putEntries m (e :: es) = (false, m) := by
  rcases put_cases m e.key e.absOffset with ⟨-, -, hfull⟩ | ⟨-, htrue, -⟩ | ⟨_, -, htrue, -⟩
  · simp [putEntries, hfull]
  · rw [h] at htrue
    cases htrue
  · rw [h] at htrue
    cases htrue

theorem putEntries_sound {m : SimpleKeyOffsetMap} {es : List IndexEntry}
    {key : List UInt8} {v : Int} (h : (putEntries m es).2.get key = some v) :
    m.get key = some v ∨ ∃ e ∈ es, e.key = key ∧ e.absOffset = v := by
  induction es generalizing m with
  | nil => exact .inl h
  | cons e es ih =>
      match hput : m.put e.key e.absOffset with
      | (false, _) =>
          rw [putEntries_cons_of_refused hput] at h
          exact .inl h
      | (true, m') =>
          rw [putEntries_cons_of_put hput] at h
          have hsnd : (m.put e.key e.absOffset).2 = m' := by rw [hput]
          -- an offset from before this put is `get_put_sound`'s old value or this entry's
          rcases ih h with hm' | ⟨e', he', hkey, hoff⟩
          · rw [← hsnd] at hm'
            rcases get_put_sound hm' with hm | ⟨hkey, hoff⟩
            · exact .inl hm
            · exact .inr ⟨e, List.mem_cons_self, hkey.symm, hoff.symm⟩
          · exact .inr ⟨e', List.mem_cons_of_mem e he', hkey, hoff⟩

theorem buildOffsetMapFrom_sound {m : SimpleKeyOffsetMap} {o : Option Int}
    {segs : List Segment} {key : List UInt8} {v : Int}
    (h : (buildOffsetMapFrom m o segs).2.get key = some v) :
    m.get key = some v ∨
      ∃ seg ∈ segs, ∃ e ∈ seg.compactedIndex, e.key = key ∧ e.absOffset = v := by
  induction segs generalizing m o with
  | nil => exact .inl h
  | cons seg older ih =>
      -- a segment either adds entries of its own index or ends the loop
      have hseg : ∀ {b m'}, buildOffsetMapForSegment seg m = (b, m') →
          m'.get key = some v → m.get key = some v ∨
            ∃ e ∈ seg.compactedIndex, e.key = key ∧ e.absOffset = v := by
        intro b m' hbuild hget
        have hsnd : (buildOffsetMapForSegment seg m).2 = m' := by rw [hbuild]
        rw [← hsnd] at hget
        exact putEntries_sound hget
      have hlift : ∀ {m' : SimpleKeyOffsetMap}, (m'.get key = some v ∨
            ∃ s ∈ older, ∃ e ∈ s.compactedIndex, e.key = key ∧ e.absOffset = v) →
          (m'.get key = some v → m.get key = some v ∨
            ∃ e ∈ seg.compactedIndex, e.key = key ∧ e.absOffset = v) →
          m.get key = some v ∨
            ∃ s ∈ seg :: older, ∃ e ∈ s.compactedIndex, e.key = key ∧ e.absOffset = v := by
        intro m' hold hstep
        rcases hold with hm' | ⟨s, hs, e, he, hkey, hoff⟩
        · rcases hstep hm' with hm | ⟨e, he, hkey, hoff⟩
          · exact .inl hm
          · exact .inr ⟨seg, List.mem_cons_self, e, he, hkey, hoff⟩
        · exact .inr ⟨s, List.mem_cons_of_mem seg hs, e, he, hkey, hoff⟩
      unfold buildOffsetMapFrom at h
      split at h
      · exact hlift (ih h) (fun hm => .inl hm)
      · split at h
        · exact .inl h
        · split at h
          · rename_i m' hbuild
            exact hlift (.inl h) (hseg hbuild)
          · rename_i m' hbuild
            exact hlift (ih h) (hseg hbuild)

/-- **THE MAP HOLDS ONLY INDEXED OFFSETS**: every offset of the map built
    for a window is the offset of an entry of the index of one of its
    segments. -/
theorem buildOffsetMap_sound {segs : List Segment} {maxKeys : Option Nat} {o : Int}
    {m : SimpleKeyOffsetMap} (h : buildOffsetMap segs (.empty maxKeys) = .ok (o, m)) :
    FromIndexes segs m := by
  intro key v hget
  unfold buildOffsetMap at h
  split at h
  · cases h
  · split at h
    · cases h
    · rename_i m' hloop
      cases h
      have hfrom : (buildOffsetMapFrom (.empty maxKeys) none segs.reverse).2.get key = some v := by
        rw [hloop]
        exact hget
      rcases buildOffsetMapFrom_sound hfrom with hempty | ⟨seg, hseg, e, he, hkey, hoff⟩
      · cases hempty
      · exact ⟨seg, List.mem_reverse.mp hseg, e, he, hkey, hoff⟩

/-- A window of one segment that is fully indexed yields that segment's base
    offset and the map its entries leave. -/
theorem buildOffsetMap_single {seg : Segment} {m m' : SimpleKeyOffsetMap}
    (hclean : seg.hasCleanCompactTimestamp = false) (hopen : seg.isClosed = false)
    (h : buildOffsetMapForSegment seg m = (true, m')) :
    buildOffsetMap [seg] m = .ok (seg.baseOffset, m') := by
  simp [buildOffsetMap, buildOffsetMapFrom, hclean, hopen, h]

/-- A later run of puts only raises what the map held. -/
theorem putEntries_mono {m : SimpleKeyOffsetMap} {es : List IndexEntry} {key : List UInt8}
    {w : Int} (h : m.get key = some w) :
    ∃ w', (putEntries m es).2.get key = some w' ∧ w ≤ w' := by
  induction es generalizing m w with
  | nil => exact ⟨w, h, le_refl w⟩
  | cons e es ih =>
      match hput : m.put e.key e.absOffset with
      | (false, _) =>
          rw [putEntries_cons_of_refused hput]
          exact ⟨w, h, le_refl w⟩
      | (true, m') =>
          rw [putEntries_cons_of_put hput]
          have hmono : ∃ w₁, (m.put e.key e.absOffset).2.get key = some w₁ ∧ w ≤ w₁ :=
            get_put_mono h
          obtain ⟨w₁, hw₁, hle₁⟩ := hmono
          rw [hput] at hw₁
          obtain ⟨w₂, hw₂, hle₂⟩ := ih hw₁
          exact ⟨w₂, hw₂, le_trans hle₁ hle₂⟩

/-- An accepted run of puts leaves every entry covered. -/
theorem putEntries_covers {m : SimpleKeyOffsetMap} {es : List IndexEntry}
    (h : (putEntries m es).1 = true) :
    ∀ e ∈ es, ∃ v, (putEntries m es).2.get e.key = some v ∧ e.absOffset ≤ v := by
  induction es generalizing m with
  | nil => intro e he; cases he
  | cons e es ih =>
      match hput : m.put e.key e.absOffset with
      | (false, _) =>
          rw [putEntries_cons_of_refused hput] at h
          cases h
      | (true, m') =>
          rw [putEntries_cons_of_put hput] at h ⊢
          intro e' he'
          rcases List.mem_cons.mp he' with rfl | hmem
          · -- the entry's own put covers it, and the later puts keep it covered
            have hcov : ∃ v, (m.put e'.key e'.absOffset).2.get e'.key = some v ∧
                e'.absOffset ≤ v := get_put_covers (by rw [hput])
            obtain ⟨v, hv, hle⟩ := hcov
            rw [hput] at hv
            have hlater : ∃ w, (putEntries m' es).2.get e'.key = some w ∧ v ≤ w :=
              putEntries_mono hv
            obtain ⟨w, hw, hle'⟩ := hlater
            exact ⟨w, hw, le_trans hle hle'⟩
          · exact ih h e' hmem

/-! ## `deduplicate_segment` -/

/-- `should_keep`: keep a record whose key the map does not hold, or whose
    offset is at least the one held. -/
def shouldKeep (map : SimpleKeyOffsetMap) (b : RecordBatch) (r : Record) : Bool :=
  match map.get (recordKey b r) with
  | none => true
  | some latestOffsetIndexed => decide (recordOffset b r ≥ latestOffsetIndexed)

/-- The predicate `deduplicate_segment` hands to the reducer: the last record
    of the segment is kept while the placeholder feature is off, a tombstone
    past the horizon is dropped, and `should_keep` decides the rest. -/
def keepRecord (map : SimpleKeyOffsetMap)
    (compactionPlaceholderEnabled pastTombstoneDeleteHorizon : Bool) (segmentLastOffset : Int)
    (b : RecordBatch) (r : Record) (isLastRecordInBatch : Bool) : Bool :=
  let isLastBatch := b.lastOffset == segmentLastOffset
  if !compactionPlaceholderEnabled && (isLastBatch && isLastRecordInBatch) then true
  else if r.isTombstone && pastTombstoneDeleteHorizon then false
  else shouldKeep map b r

/-- Step 1 of `copy_data_segment_reducer::filter`: the offset deltas of the
    records to keep; `recordsSeen` counts the records before the current one. -/
def keptOffsetDeltasFrom (keep : RecordBatch → Record → Bool → Bool) (b : RecordBatch)
    (recordsSeen : Nat) : List Record → List Nat
  | [] => []
  | r :: rs =>
      if keep b r (b.records.length == recordsSeen + 1) then
        r.offsetDelta :: keptOffsetDeltasFrom keep b (recordsSeen + 1) rs
      else keptOffsetDeltasFrom keep b (recordsSeen + 1) rs

def keptOffsetDeltas (keep : RecordBatch → Record → Bool → Bool) (b : RecordBatch) : List Nat :=
  keptOffsetDeltasFrom keep b 0 b.records

/-- `make_placeholder_batch`: the offsets of the batch and no records. -/
def makePlaceholderBatch (hdr : RecordBatchHeader) : RecordBatch :=
  ⟨⟨hdr.baseOffset, .compactionPlaceholder, false, hdr.lastOffsetDelta⟩, []⟩

/-- `copy_data_segment_reducer::filter`: a batch that is not compactible is
    kept whole; an emptied last batch becomes a placeholder; otherwise the
    records whose offset delta was kept. -/
def filterBatch (keep : RecordBatch → Record → Bool → Bool) (segmentLastOffset : Int)
    (b : RecordBatch) : Option RecordBatch :=
  if !isCompactible b.header then some b
  else
    let offsetDeltas := keptOffsetDeltas keep b
    if b.lastOffset == segmentLastOffset && offsetDeltas.isEmpty then
      some (makePlaceholderBatch b.header)
    else if offsetDeltas.isEmpty then none
    else if offsetDeltas.length == b.records.length then some b
    else
      let records := b.records.filter (fun r => offsetDeltas.count r.offsetDelta != 0)
      if records.isEmpty then none else some { b with records }

/-- `deduplicate_segment`: the batches written for the segment. -/
def deduplicateSegment (map : SimpleKeyOffsetMap)
    (compactionPlaceholderEnabled pastTombstoneDeleteHorizon : Bool) (seg : Segment) :
    List RecordBatch :=
  seg.batches.filterMap
    (filterBatch
      (keepRecord map compactionPlaceholderEnabled pastTombstoneDeleteHorizon seg.committedOffset)
      seg.committedOffset)

/-- A record of a batch is still there: some written batch has the same
    header and holds the record. -/
def Retained (out : List RecordBatch) (b : RecordBatch) (r : Record) : Prop :=
  ∃ b' ∈ out, b'.header = b.header ∧ r ∈ b'.records

/-- What a `false` from the keep predicate means. -/
theorem keepRecord_eq_false {map : SimpleKeyOffsetMap} {pe ph : Bool} {lo : Int}
    {b : RecordBatch} {r : Record} {isLast : Bool}
    (h : keepRecord map pe ph lo b r isLast = false) :
    (r.isTombstone = true ∧ ph = true) ∨
      ∃ v, map.get (recordKey b r) = some v ∧ recordOffset b r < v := by
  unfold keepRecord at h
  dsimp only at h
  by_cases hlast : (!pe && (b.lastOffset == lo && isLast)) = true
  · rw [if_pos hlast] at h
    cases h
  · rw [if_neg hlast] at h
    by_cases htomb : (r.isTombstone && ph) = true
    · exact .inl (Bool.and_eq_true_iff.mp htomb)
    · rw [if_neg htomb] at h
      right
      unfold shouldKeep at h
      split at h
      · cases h
      · rename_i v hv
        exact ⟨v, hv, by simpa using h⟩

theorem mem_keptOffsetDeltasFrom {keep : RecordBatch → Record → Bool → Bool}
    {b : RecordBatch} :
    ∀ (rs : List Record) (n i : Nat) (hi : i < rs.length),
      keep b rs[i] (b.records.length == n + i + 1) = true →
        rs[i].offsetDelta ∈ keptOffsetDeltasFrom keep b n rs
  | r :: rs, n, 0, _, h => by
      simp only [List.getElem_cons_zero, Nat.add_zero] at h ⊢
      simp [keptOffsetDeltasFrom, h]
  | r :: rs, n, i + 1, hi, h => by
      have hi' : i < rs.length := by simpa using hi
      have hrest : rs[i].offsetDelta ∈ keptOffsetDeltasFrom keep b (n + 1) rs := by
        apply mem_keptOffsetDeltasFrom rs (n + 1) i
        rw [show n + 1 + i + 1 = n + (i + 1) + 1 by omega]
        exact h
      unfold keptOffsetDeltasFrom
      split
      · exact List.mem_cons_of_mem _ hrest
      · exact hrest

/-- A record whose offset delta is kept is in the filtered batch, under the
    same header; a batch that is not compactible is kept whole. -/
theorem filterBatch_retains {keep : RecordBatch → Record → Bool → Bool} {lo : Int}
    {b : RecordBatch} {r : Record} (hr : r ∈ b.records)
    (hkept : isCompactible b.header = true → r.offsetDelta ∈ keptOffsetDeltas keep b) :
    ∃ b', filterBatch keep lo b = some b' ∧ b'.header = b.header ∧ r ∈ b'.records := by
  unfold filterBatch
  by_cases hc : isCompactible b.header = true
  · have hmem := hkept hc
    have hne : (keptOffsetDeltas keep b).isEmpty = false :=
      List.isEmpty_eq_false_iff_exists_mem.mpr ⟨_, hmem⟩
    have hfilter : r ∈ b.records.filter
        (fun r' => (keptOffsetDeltas keep b).count r'.offsetDelta != 0) :=
      List.mem_filter.mpr ⟨hr, by simpa [List.count_eq_zero] using hmem⟩
    have hfne : (b.records.filter
        (fun r' => (keptOffsetDeltas keep b).count r'.offsetDelta != 0)).isEmpty = false :=
      List.isEmpty_eq_false_iff_exists_mem.mpr ⟨_, hfilter⟩
    simp only [hc, Bool.not_true, Bool.false_eq_true, if_false, hne, Bool.and_false]
    split
    · exact ⟨b, rfl, rfl, hr⟩
    · rw [hfne]
      exact ⟨_, rfl, rfl, hfilter⟩
  · simp only [Bool.not_eq_true] at hc
    simp only [hc, Bool.not_false, if_true]
    exact ⟨b, rfl, rfl, hr⟩

/-- **DROPPED ONLY FOR A REASON**: every record of a deduplicated segment is
    written again, or is a tombstone past the horizon, or the map holds a
    greater offset under its key. -/
theorem deduplicateSegment_retains_or (map : SimpleKeyOffsetMap) (pe ph : Bool)
    (seg : Segment) {b : RecordBatch} {r : Record} (hb : b ∈ seg.batches)
    (hr : r ∈ b.records) :
    Retained (deduplicateSegment map pe ph seg) b r ∨ (r.isTombstone = true ∧ ph = true) ∨
      ∃ v, map.get (recordKey b r) = some v ∧ recordOffset b r < v := by
  obtain ⟨i, hi, rfl⟩ := List.getElem_of_mem hr
  cases hk : keepRecord map pe ph seg.committedOffset b b.records[i]
      (b.records.length == 0 + i + 1) with
  | false => exact .inr (keepRecord_eq_false hk)
  | true =>
      -- a kept record's offset delta is collected, so its batch keeps it
      have hkept : b.records[i].offsetDelta ∈ keptOffsetDeltas
          (keepRecord map pe ph seg.committedOffset) b :=
        mem_keptOffsetDeltasFrom b.records 0 i hi hk
      have hretained : ∃ b', filterBatch (keepRecord map pe ph seg.committedOffset)
          seg.committedOffset b = some b' ∧ b'.header = b.header ∧ b.records[i] ∈ b'.records :=
        filterBatch_retains hr (fun _ => hkept)
      obtain ⟨b', hfilter, hheader, hmem⟩ := hretained
      exact .inl ⟨b', List.mem_filterMap.mpr ⟨b, hb, hfilter⟩, hheader, hmem⟩

/-! ## The window -/

/-- A record is the latest of its compaction key in the window: no record of
    the window with the same enhanced key has a greater offset. -/
def LatestInWindow (segs : List Segment) (b : RecordBatch) (r : Record) : Prop :=
  ∀ seg ∈ segs, ∀ b' ∈ seg.batches, ∀ r' ∈ b'.records,
    recordKey b' r' = recordKey b r → recordOffset b' r' ≤ recordOffset b r

section Window

variable {segs : List Segment} {maxKeys : Option Nat} {o : Int} {m : SimpleKeyOffsetMap}
  (hbuild : buildOffsetMap segs (.empty maxKeys) = .ok (o, m))
  (hidx : ∀ seg ∈ segs, seg.IndexOf)

include hbuild hidx

/-- **A DROPPED RECORD HAS A LATER SPILLED TWIN**: a record that deduplication
    against the window's map does not write again is a tombstone past the
    horizon, or some later record of a compactible batch of the window has a
    spilled key equal to the record's enhanced key. -/
theorem deduplicate_dropped_has_later_spilled_key (pe ph : Bool) (seg : Segment)
    {b : RecordBatch} {r : Record} (hb : b ∈ seg.batches) (hr : r ∈ b.records) :
    Retained (deduplicateSegment m pe ph seg) b r ∨ (r.isTombstone = true ∧ ph = true) ∨
      ∃ s ∈ segs, ∃ b' ∈ s.batches, isCompactible b'.header = true ∧ ∃ r' ∈ b'.records,
        spillKey (recordKey b' r') = recordKey b r ∧ recordOffset b r < recordOffset b' r' := by
  rcases deduplicateSegment_retains_or m pe ph seg hb hr with hret | htomb | ⟨v, hget, hlt⟩
  · exact .inl hret
  · exact .inr (.inl htomb)
  · -- the offset the map holds is that of an index entry, which is a record's
    obtain ⟨s, hs, e, he, hkey, hoff⟩ := buildOffsetMap_sound hbuild _ _ hget
    obtain ⟨b', hb', hc, r', hr', rfl⟩ := hidx s hs e he
    refine .inr (.inr ⟨s, hs, b', hb', hc, r', hr', hkey, ?_⟩)
    rw [← absOffset_indexEntry b' r', hoff]
    exact hlt

/-- **SHORT KEYS: ONLY THE SAME KEY SHADOWS**: below the key size limit, a
    dropped record that is no tombstone past the horizon has a later record
    of the window with the same batch type, control flag and key. -/
theorem deduplicate_dropped_short_key_has_later_same_key (pe ph : Bool) (seg : Segment)
    {b : RecordBatch} {r : Record} (hb : b ∈ seg.batches) (hr : r ∈ b.records)
    (hshort : (recordKey b r).length < maxKeySize) :
    Retained (deduplicateSegment m pe ph seg) b r ∨ (r.isTombstone = true ∧ ph = true) ∨
      ∃ s ∈ segs, ∃ b' ∈ s.batches, ∃ r' ∈ b'.records,
        b'.header.type = b.header.type ∧ b'.header.isControl = b.header.isControl ∧
        r'.key = r.key ∧ recordOffset b r < recordOffset b' r' := by
  rcases deduplicate_dropped_has_later_spilled_key hbuild hidx pe ph seg hb hr with
    hret | htomb | ⟨s, hs, b', hb', -, r', hr', hkey, hlt⟩
  · exact .inl hret
  · exact .inr (.inl htomb)
  · have hfull : recordKey b' r' = recordKey b r := spillKey_eq_of_length_lt hkey hshort
    obtain ⟨htype, hctrl, hk⟩ := enhanceKey_inj hfull
    exact .inr (.inr ⟨s, hs, b', hb', r', hr', htype, hctrl, hk, hlt⟩)

/-- **THE LATEST RECORD OF A SHORT KEY SURVIVES**: below the key size limit,
    the latest record of a key in the window is written again unless it is a
    tombstone past the horizon. -/
theorem deduplicate_retains_latest_of_short_key (pe ph : Bool) (seg : Segment)
    {b : RecordBatch} {r : Record} (hb : b ∈ seg.batches) (hr : r ∈ b.records)
    (hshort : (recordKey b r).length < maxKeySize) (hlatest : LatestInWindow segs b r)
    (hkeep : ¬(r.isTombstone = true ∧ ph = true)) :
    Retained (deduplicateSegment m pe ph seg) b r := by
  rcases deduplicate_dropped_has_later_spilled_key hbuild hidx pe ph seg hb hr with
    hret | htomb | ⟨s, hs, b', hb', -, r', hr', hkey, hlt⟩
  · exact hret
  · exact absurd htomb hkeep
  · have hfull : recordKey b' r' = recordKey b r := spillKey_eq_of_length_lt hkey hshort
    have hle := hlatest s hs b' hb' r' hr' hfull
    omega

end Window

/-! ## At the key size limit -/

/-- A key of 65513 bytes: with the type and control bytes in front, its
    enhanced key is exactly `max_key_size` long. -/
def boundaryKey : List UInt8 := List.replicate 65513 0

/-- The record of the boundary key, at offset 0. -/
def boundaryRecord : Record := ⟨0, boundaryKey, some [1]⟩

/-- A record at offset 1 whose key extends the boundary key by one byte. -/
def extendingRecord : Record := ⟨1, boundaryKey ++ [0], some [2]⟩

def boundaryBatch : RecordBatch := ⟨⟨0, .raftData, false, 1⟩, [boundaryRecord, extendingRecord]⟩

/-- A segment of that one batch, with the index of its two records. -/
def boundarySegment : Segment :=
  ⟨0, 1, [boundaryBatch], compactionIndexBatch boundaryBatch, false, false⟩

theorem length_recordKey_boundaryRecord :
    (recordKey boundaryBatch boundaryRecord).length = maxKeySize := by
  rw [recordKey, length_enhanceKey, boundaryRecord, boundaryKey, List.length_replicate]
  rfl

theorem recordKey_extendingRecord :
    recordKey boundaryBatch extendingRecord = recordKey boundaryBatch boundaryRecord ++ [0] := rfl

theorem recordKey_extendingRecord_ne :
    recordKey boundaryBatch extendingRecord ≠ recordKey boundaryBatch boundaryRecord := by
  intro h
  have hlen := congrArg List.length h
  rw [recordKey_extendingRecord, List.length_append, length_recordKey_boundaryRecord] at hlen
  simp at hlen

/-- Both entries of the boundary segment's index carry the boundary key. -/
theorem compactedIndex_boundarySegment :
    boundarySegment.compactedIndex =
      [⟨recordKey boundaryBatch boundaryRecord, 0, 0⟩,
        ⟨recordKey boundaryBatch boundaryRecord, 0, 1⟩] := by
  have hc : isCompactible boundaryBatch.header = true := by decide
  have hspill₀ : spillKey (recordKey boundaryBatch boundaryRecord)
      = recordKey boundaryBatch boundaryRecord :=
    spillKey_of_length_le (le_of_eq length_recordKey_boundaryRecord)
  have hspill₁ : spillKey (recordKey boundaryBatch extendingRecord)
      = recordKey boundaryBatch boundaryRecord := by
    rw [recordKey_extendingRecord]
    exact spillKey_extend [0] length_recordKey_boundaryRecord
  simp only [boundarySegment, compactionIndexBatch, hc, if_true]
  simp only [boundaryBatch, List.map_cons, List.map_nil, indexEntry]
  rw [← boundaryBatch, hspill₀, hspill₁]
  rfl

/-- The map the boundary segment leaves: the boundary key under offset 1, the
    key of the extending record absent. -/
theorem buildOffsetMap_boundarySegment :
    ∃ m, buildOffsetMap [boundarySegment] (.empty none) = .ok (0, m) ∧
      m.get (recordKey boundaryBatch boundaryRecord) = some 1 ∧
      m.get (recordKey boundaryBatch extendingRecord) = none := by
  -- the first entry adds the boundary key, the second raises it to offset 1
  have hnone : (SimpleKeyOffsetMap.empty none).get (recordKey boundaryBatch boundaryRecord)
      = none := rfl
  obtain ⟨m₁, hput₁, hself₁, hother₁⟩ := put_new 0 hnone (by decide)
  obtain ⟨m₂, hput₂, hself₂, hother₂⟩ := put_held 1 hself₁
  have hbuild : buildOffsetMapForSegment boundarySegment (.empty none) = (true, m₂) := by
    rw [buildOffsetMapForSegment, compactedIndex_boundarySegment,
      putEntries_cons_of_put hput₁, putEntries_cons_of_put hput₂]
    rfl
  refine ⟨m₂, buildOffsetMap_single rfl rfl hbuild, hself₂, ?_⟩
  rw [hother₂ _ recordKey_extendingRecord_ne, hother₁ _ recordKey_extendingRecord_ne]
  rfl

/-- The batch deduplication writes for the boundary segment against a map
    that holds offset 1 for the boundary key and nothing for the other. -/
theorem deduplicateSegment_boundarySegment {m : SimpleKeyOffsetMap}
    (h₀ : m.get (recordKey boundaryBatch boundaryRecord) = some 1)
    (h₁ : m.get (recordKey boundaryBatch extendingRecord) = none) :
    deduplicateSegment m true false boundarySegment
      = [⟨boundaryBatch.header, [extendingRecord]⟩] := by
  -- the boundary record is shadowed; the extending record's key is not held
  have hk₀ : keepRecord m true false 1 boundaryBatch boundaryRecord false = false := by
    simp only [keepRecord, shouldKeep, h₀]
    decide
  have hk₁ : keepRecord m true false 1 boundaryBatch extendingRecord true = true := by
    simp only [keepRecord, shouldKeep, h₁]
    decide
  have hkept : keptOffsetDeltas (keepRecord m true false 1) boundaryBatch = [1] := by
    have hlen : boundaryBatch.records.length = 2 := rfl
    rw [keptOffsetDeltas, show boundaryBatch.records = [boundaryRecord, extendingRecord] from rfl]
    simp only [keptOffsetDeltasFrom, hlen, Nat.reduceAdd, Nat.reduceBEq, hk₀, hk₁]
    rfl
  have hc : isCompactible boundaryBatch.header = true := by decide
  have hfilter : filterBatch (keepRecord m true false 1) 1 boundaryBatch
      = some ⟨boundaryBatch.header, [extendingRecord]⟩ := by
    simp only [filterBatch, hc, hkept]
    rfl
  show [boundaryBatch].filterMap (filterBatch (keepRecord m true false 1) 1) = _
  rw [List.filterMap_cons, hfilter, List.filterMap_nil]

theorem windowed_compaction_drops_latest_record_at_key_size_limit :
    ∃ m, buildOffsetMap [boundarySegment] (.empty none) = .ok (0, m) ∧
      LatestInWindow [boundarySegment] boundaryBatch boundaryRecord ∧
      boundaryRecord.isTombstone = false ∧
      ¬Retained (deduplicateSegment m true false boundarySegment) boundaryBatch boundaryRecord := by
  obtain ⟨m, hbuild, h₀, h₁⟩ := buildOffsetMap_boundarySegment
  refine ⟨m, hbuild, ?_, rfl, ?_⟩
  · -- the only other record of the window has a longer key
    intro seg hseg b' hb' r' hr' hkey
    rw [List.mem_singleton] at hseg
    subst hseg
    rw [show boundarySegment.batches = [boundaryBatch] from rfl, List.mem_singleton] at hb'
    subst hb'
    rw [show boundaryBatch.records = [boundaryRecord, extendingRecord] from rfl] at hr'
    rcases List.mem_pair.mp hr' with rfl | rfl
    · exact le_refl _
    · exact absurd hkey recordKey_extendingRecord_ne
  · rintro ⟨b', hb', -, hmem⟩
    rw [deduplicateSegment_boundarySegment h₀ h₁, List.mem_singleton] at hb'
    subst hb'
    have hne : boundaryRecord ≠ extendingRecord := fun h => by
      have := congrArg Record.offsetDelta h
      cases this
    exact hne (List.mem_singleton.mp hmem)

end Compaction
