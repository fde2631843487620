import Mathlib
import Redpanda.Model.Fundamental

/-! # `offset_translator_state` — the translation table

    Model of `storage/offset_translator_state.{h,cc}`.  The state is the map
    `_last_offset2batch`: for every non-data batch, its last offset mapped to
    its base offset and to the delta (log offset minus data offset) that holds
    just past it.  The first entry is not a real batch: it folds the whole
    history before the translation range into one delta.

    A `std::map` is a list sorted by key.  `lower_bound` and `upper_bound` are
    written as scans that carry the entry before the cursor, which is what the
    code reads through `std::prev(it)`.  Every `throw` and `vassert` of the
    source is an `OtError`; a `throw` happens before any mutation, so a failed
    call leaves the map as it was. -/

namespace OffsetTranslatorState

/-- `offset_translator_state::batch_info`. -/
structure BatchInfo where
  baseOffset : Int
  nextDelta : Int
deriving DecidableEq, Repr

/-- `_last_offset2batch`, keys in increasing order. -/
abbrev OffsetMap := List (Int × BatchInfo)

/-- The failures of the translation table, with the values each message
    prints. -/
inductive OtError where
  /-- `vassert`: "offsets map shouldn't be empty". -/
  | emptyMap
  /-- "log offset {o} is outside the translation range (starting at {start})". -/
  | outsideTranslationRange (o start : Int)
  /-- "inconsistent add_gap: {base}-{last}, next gap offset: {..}, next gap
      delta: {..}". -/
  | inconsistentAddGap (base last nextGapOffset nextGapDelta : Int)
  /-- "trying to truncate offset_translator at offset {o} which is <= base
      translation offset {base}". -/
  | truncateBelowBase (o base : Int)
  /-- "trying to truncate offset_translator at offset {o} which is in the
      middle of the batch [{base},{last}]". -/
  | truncateMidBatch (o base last : Int)
  /-- "trying to prefix truncate offset translator at offset {o} which is in
      the middle of the batch {base}-{last}". -/
  | prefixTruncateMidBatch (o base last : Int)
  /-- "data offset {o} is outside the translation range (starting at
      {start})". -/
  | dataOffsetOutsideTranslationRange (o start : Int)
  /-- `vassert`: "log offset search start too small: {o}". -/
  | searchStartTooSmall (o : Int)
  /-- `vassert`: "inconsistent add_absolute_delta: delta {delta} can't be >
      offset {offset}". -/
  | absoluteDeltaAboveOffset (delta offset : Int)
  /-- "inconsistent add_absolute_delta (offset {..}, delta {..}), but
      last_offset: {..}, last_delta: {..}, last_base_offset: {..},
      gap_length: {..}". -/
  | inconsistentAddAbsoluteDelta (offset delta lastOffset lastDelta lastBaseOffset gapLength : Int)
  /-- "persisted offset translator map shouldn't be empty". -/
  | persistedMapEmpty
  /-- "inconsistency in serialized offset translator state: offset {base} is
      after {prevLast}". -/
  | serializedOutOfOrder (base prevLast : Int)
deriving DecidableEq, Repr

/-- The constructor `offset_translator_state(ntp, base_offset, base_delta)`:
    delta `base_delta` for every offset past `base_offset`. -/
def init (baseOffset baseDelta : Int) : OffsetMap :=
  [(baseOffset, ⟨baseOffset, baseDelta⟩)]

/-- `btree_map::emplace`: the entry goes to its key's place, and nothing
    happens if the key is already there. -/
def emplace (k : Int) (info : BatchInfo) : OffsetMap → OffsetMap
  | [] => [(k, info)]
  | (k', info') :: rest =>
      if k < k' then (k, info) :: (k', info') :: rest
      else if k = k' then (k', info') :: rest
      else (k', info') :: emplace k info rest

/-! ## `delta` -/

/-- The scan of `delta` past `lower_bound(o)`: `prev` is the info of the
    entry before the cursor. -/
def deltaFrom (prev : BatchInfo) : OffsetMap → Int → Int
  | [], _ => prev.nextDelta
  | (k, info) :: rest, o =>
      if o ≤ k then
        -- `it` found: a data offset before the gap, or an offset inside it
        if o < info.baseOffset then prev.nextDelta
        else prev.nextDelta + (o - info.baseOffset)
      else deltaFrom info rest o

/-- `offset_translator_state::delta`. -/
def delta : OffsetMap → Int → Except OtError Int
  | [], _ => .ok 0
  | (k, info) :: rest, o =>
      -- `lower_bound(o) == begin()`: no entry before the cursor
      if o ≤ k then .error (.outsideTranslationRange o (k + 1))
      else .ok (deltaFrom info rest o)

/-- `offset_translator_state::from_log_offset`. -/
def fromLogOffset (m : OffsetMap) (o : Int) : Except OtError Int := do
  let d ← delta m o
  return o - d

/-! ## `add_gap` -/

/-- `offset_translator_state::add_gap`.  A gap ending before the map's first
    key is logged and dropped; a gap that does not start past the last key
    must be an exact copy of a recorded one. -/
def addGap (m : OffsetMap) (base last : Int) : Except OtError OffsetMap :=
  match m.head?, m.getLast? with
  | some (firstKey, _), some (lastKey, lastInfo) =>
      if last < firstKey then .ok m
      else
        let nextDelta := lastInfo.nextDelta + (last - base + 1)
        if base ≤ lastKey then
          match m.lookup last with
          | some info =>
              if info.baseOffset = base then .ok m
              else .error (.inconsistentAddGap base last lastInfo.baseOffset
                lastInfo.nextDelta)
          | none => .error (.inconsistentAddGap base last lastInfo.baseOffset
              lastInfo.nextDelta)
        else .ok (m ++ [(last, ⟨base, nextDelta⟩)])
  | _, _ => .error .emptyMap

/-! ## `truncate` -/

/-- The tail of `truncate` past the first entry: erase from `lower_bound(o)`
    to the end, refusing a cut inside a gap.  The flag is the returned
    `bool`. -/
def truncateFrom : OffsetMap → Int → Except OtError (Bool × OffsetMap)
  | [], _ => .ok (false, [])
  | (k, info) :: rest, o =>
      if o ≤ k then
        if info.baseOffset < o then .error (.truncateMidBatch o info.baseOffset k)
        else .ok (true, [])
      else (truncateFrom rest o).map fun r => (r.1, (k, info) :: r.2)

/-- `offset_translator_state::truncate`. -/
def truncate (m : OffsetMap) (o : Int) : Except OtError (Bool × OffsetMap) :=
  match m with
  | [] => .error .emptyMap
  | (k, info) :: rest =>
      if o ≤ k then .error (.truncateBelowBase o k)
      else (truncateFrom rest o).map fun r => (r.1, (k, info) :: r.2)

/-! ## `prefix_truncate` -/

/-- The scan of `prefix_truncate` for `upper_bound(o)`.  `prev` is the entry
    before the cursor and `atBegin` says whether it is the map's first entry;
    on reaching the cursor the entries before it are replaced by one entry
    keyed `o` that keeps `prev`'s delta. -/
def prefixTruncateFrom (atBegin : Bool) (prev : Int × BatchInfo) :
    OffsetMap → Int → Except OtError (Bool × OffsetMap)
  | [], o =>
      if atBegin ∧ prev.1 = o then .ok (false, [prev])
      else .ok (true, [(o, { prev.2 with baseOffset := o })])
  | (k, info) :: rest, o =>
      if o < k then
        if info.baseOffset ≤ o then
          .error (.prefixTruncateMidBatch o info.baseOffset k)
        else if atBegin ∧ prev.1 = o then .ok (false, prev :: (k, info) :: rest)
        else .ok (true, (o, { prev.2 with baseOffset := o }) :: (k, info) :: rest)
      else prefixTruncateFrom false (k, info) rest o

/-- `offset_translator_state::prefix_truncate`. -/
def prefixTruncate (m : OffsetMap) (o : Int) : Except OtError (Bool × OffsetMap) :=
  match m with
  | [] => .error .emptyMap
  | (k, info) :: rest =>
      if o < k then
        -- `upper_bound(o) == begin()`
        if info.baseOffset ≤ o then .error (.prefixTruncateMidBatch o info.baseOffset k)
        else .ok (false, m)
      else prefixTruncateFrom true (k, info) rest o

/-! ## `add_absolute_delta` -/

/-- `offset_translator_state::add_absolute_delta`: `delta` non-data offsets
    lie below `offset`.  The entries past `upper_bound(prev_offset(offset))`
    are erased, and the gap that makes up the difference to the delta of the
    last entry kept ends just before `offset`; the flag is the returned
    `bool`. -/
def addAbsoluteDelta (m : OffsetMap) (offset delta : Int) :
    Except OtError (Bool × OffsetMap) :=
  if offset < delta then .error (.absoluteDeltaAboveOffset delta offset)
  else
    let gapEnd := Model.prevOffset offset
    let kept := m.takeWhile (·.1 ≤ gapEnd)
    match kept.getLast? with
    | none =>
        -- `it == begin()`: the map is emptied, so the gap is emplaced whatever its length
        .ok (true, emplace gapEnd ⟨offset - delta, delta⟩ kept)
    | some (backKey, back) =>
        let gapLength := delta - back.nextDelta
        if gapLength < 0 then
          .error (.inconsistentAddAbsoluteDelta offset delta backKey back.nextDelta
            back.baseOffset gapLength)
        else if 0 < gapLength then .ok (true, emplace gapEnd ⟨offset - gapLength, delta⟩ kept)
        else .ok (false, kept)

/-! ## `serialize_map` and `from_serialized_map` -/

/-- `persisted_batch`: a gap as its base offset and its length. -/
structure PersistedBatch where
  baseOffset : Int
  length : Int32
deriving DecidableEq, Repr

/-- `persisted_batches_map`: the first entry's delta and every entry as a
    `persisted_batch`. -/
structure PersistedBatchesMap where
  startDelta : Int
  batches : List PersistedBatch
deriving DecidableEq, Repr

/-- One entry of `serialize_map`: `int32_t(o - b.base_offset) + 1`. -/
def persistBatch (e : Int × BatchInfo) : PersistedBatch :=
  ⟨e.2.baseOffset, Int32.ofInt (e.1 - e.2.baseOffset) + 1⟩

/-- `offset_translator_state::serialize_map`. -/
def serializeMap : OffsetMap → Except OtError PersistedBatchesMap
  | [] => .error .emptyMap
  | (k, info) :: rest => .ok ⟨info.nextDelta, ((k, info) :: rest).map persistBatch⟩

/-- The loop of `from_serialized_map` past the first batch: `acc` is the map
    built so far, `curDelta` the running delta and `prevLastOffset` the last
    offset of the batch before. -/
def fromSerializedLoop (acc : OffsetMap) (curDelta prevLastOffset : Int) :
    List PersistedBatch → Except OtError OffsetMap
  | [] => .ok acc
  | b :: bs =>
      if b.baseOffset ≤ prevLastOffset then
        .error (.serializedOutOfOrder b.baseOffset prevLastOffset)
      else
        let curDelta := curDelta + b.length.toInt
        let lastOffset := b.baseOffset + (b.length.toInt - 1)
        fromSerializedLoop (emplace lastOffset ⟨b.baseOffset, curDelta⟩ acc) curDelta
          lastOffset bs

/-- `offset_translator_state::from_serialized_map`: the first batch takes
    `start_delta`, every later one adds its length to it. -/
def fromSerializedMap (p : PersistedBatchesMap) : Except OtError OffsetMap :=
  match p.batches with
  | [] => .error .persistedMapEmpty
  | b :: bs =>
      let lastOffset := b.baseOffset + (b.length.toInt - 1)
      fromSerializedLoop (emplace lastOffset ⟨b.baseOffset, p.startDelta⟩ []) p.startDelta
        lastOffset bs

/-! ## `to_log_offset` -/

end OffsetTranslatorState
