import Mathlib

/-! # Record batches and the compacted index

    The data that windowed compaction reads: record batches with the header
    fields that compaction checks (`model/record_batch_types.h`,
    `model/record.h`), the key enhancement of `storage/compacted_index.h`,
    and the entries that `spill_key_index` writes to a segment's compacted
    index (`storage/spill_key_index.cc`, `storage/segment.cc`).

    A compaction key is the record key prefixed by the batch type and the
    control flag (`enhance_key`), so that records of different types or
    control status are never merged (`enhanceKey_inj`).  When an entry is
    spilled to the index file, its key is cut to `max_key_size` bytes
    (`spillKey`): the entry read back is the enhanced key itself only when
    that key is not longer than the limit (`spillKey_of_length_le`), and a
    key at the limit is also the spilled key of every key that extends it
    (`spillKey_extend`). -/

namespace Compaction

/-- `model::record_batch_type`. -/
inductive RecordBatchType where
  | raftData | raftConfiguration | controller | kvstore | checkpoint
  | topicManagementCmd | ghostBatch | idAllocator | txPrepare | txFence
  | tmUpdate | userManagementCmd | aclManagementCmd | groupPrepareTx
  | groupCommitTx | groupAbortTx | nodeManagementCmd | dataPolicyManagementCmd
  | archivalMetadata | clusterConfigCmd | featureUpdate | clusterBootstrapCmd
  | versionFence | txTmHostedTrasactions | prefixTruncate | pluginUpdate
  | txRegistry | clusterRecoveryCmd | compactionPlaceholder | roleManagementCmd
  | clientQuota | dataMigrationCmd | groupFenceTx | partitionPropertiesUpdate
  | datalakeCoordinator | dlPlaceholder | dlStmCommand | datalakeTranslationState
deriving DecidableEq, Repr

namespace RecordBatchType

/-- The `int8_t` value of each enumerator. -/
def code : RecordBatchType → Int8
  | raftData => 1 | raftConfiguration => 2 | controller => 3 | kvstore => 4
  | checkpoint => 5 | topicManagementCmd => 6 | ghostBatch => 7 | idAllocator => 8
  | txPrepare => 9 | txFence => 10 | tmUpdate => 11 | userManagementCmd => 12
  | aclManagementCmd => 13 | groupPrepareTx => 14 | groupCommitTx => 15
  | groupAbortTx => 16 | nodeManagementCmd => 17 | dataPolicyManagementCmd => 18
  | archivalMetadata => 19 | clusterConfigCmd => 20 | featureUpdate => 21
  | clusterBootstrapCmd => 22 | versionFence => 23 | txTmHostedTrasactions => 24
  | prefixTruncate => 25 | pluginUpdate => 26 | txRegistry => 27
  | clusterRecoveryCmd => 28 | compactionPlaceholder => 29 | roleManagementCmd => 30
  | clientQuota => 31 | dataMigrationCmd => 32 | groupFenceTx => 33
  | partitionPropertiesUpdate => 34 | datalakeCoordinator => 35 | dlPlaceholder => 36
  | dlStmCommand => 37 | datalakeTranslationState => 38

/-- Every enumerator, in the order of their values. -/
def all : List RecordBatchType :=
  [raftData, raftConfiguration, controller, kvstore, checkpoint, topicManagementCmd,
    ghostBatch, idAllocator, txPrepare, txFence, tmUpdate, userManagementCmd,
    aclManagementCmd, groupPrepareTx, groupCommitTx, groupAbortTx, nodeManagementCmd,
    dataPolicyManagementCmd, archivalMetadata, clusterConfigCmd, featureUpdate,
    clusterBootstrapCmd, versionFence, txTmHostedTrasactions, prefixTruncate, pluginUpdate,
    txRegistry, clusterRecoveryCmd, compactionPlaceholder, roleManagementCmd, clientQuota,
    dataMigrationCmd, groupFenceTx, partitionPropertiesUpdate, datalakeCoordinator,
    dlPlaceholder, dlStmCommand, datalakeTranslationState]

/-- The enumerator with a given value. -/
def ofCode (c : Int8) : Option RecordBatchType := all.find? (fun t => decide (t.code = c))

theorem ofCode_code (t : RecordBatchType) : ofCode t.code = some t := by
  cases t <;> rfl

/-- No two enumerators share a value. -/
theorem code_injective : Function.Injective code := by
  intro a b h
  have hof : ofCode a.code = ofCode b.code := congrArg ofCode h
  rw [ofCode_code, ofCode_code] at hof
  exact Option.some.inj hof

end RecordBatchType

/-- `model::offset_translator_batch_types()`. -/
def offsetTranslatorBatchTypes : List RecordBatchType :=
  [.raftConfiguration, .archivalMetadata, .versionFence, .prefixTruncate,
    .partitionPropertiesUpdate, .datalakeTranslationState]

/-- The header fields that compaction reads. -/
structure RecordBatchHeader where
  baseOffset : Int
  type : RecordBatchType
  /-- `attrs.is_control()`. -/
  isControl : Bool
  lastOffsetDelta : Nat
deriving DecidableEq, Repr

/-- A record: its offset delta in the batch, its key and its value, absent
    for a tombstone. -/
structure Record where
  offsetDelta : Nat
  key : List UInt8
  value : Option (List UInt8)
deriving DecidableEq, Repr

/-- `record::is_tombstone()`: the record has no value. -/
def Record.isTombstone (r : Record) : Bool := r.value.isNone

structure RecordBatch where
  header : RecordBatchHeader
  records : List Record
deriving DecidableEq, Repr

/-- `record_batch::last_offset()`. -/
def RecordBatch.lastOffset (b : RecordBatch) : Int :=
  b.header.baseOffset + b.header.lastOffsetDelta

/-- `is_compactible_control_batch`: the group transaction markers of the
    consumer offsets topic. -/
def isCompactibleControlBatch (t : RecordBatchType) : Bool :=
  t == .groupFenceTx || t == .groupPrepareTx || t == .groupAbortTx || t == .groupCommitTx

/-- `internal::is_compactible`: control batches other than the group markers,
    placeholders and the batch types that shift offset translation are kept
    whole. -/
def isCompactible (h : RecordBatchHeader) : Bool :=
  if (h.isControl && !isCompactibleControlBatch h.type) || h.type == .compactionPlaceholder then
    false
  else
    (offsetTranslatorBatchTypes.count h.type) == 0

/-! ## Compaction keys -/

/-- `enhance_key(type, is_control_batch, key)`: the type byte, the control
    byte, then the key. -/
def enhanceKey (type : RecordBatchType) (isControlBatch : Bool) (key : List UInt8) : List UInt8 :=
  type.code.toUInt8 :: (if isControlBatch then 1 else 0) :: key

@[simp] theorem length_enhanceKey (type : RecordBatchType) (isControlBatch : Bool)
    (key : List UInt8) : (enhanceKey type isControlBatch key).length = key.length + 2 := rfl

/-- **NO CROSS-TYPE SHADOWING**: the enhanced key determines the batch type,
    the control flag and the key. -/
theorem enhanceKey_inj {t t' : RecordBatchType} {c c' : Bool} {k k' : List UInt8}
    (h : enhanceKey t c k = enhanceKey t' c' k') : t = t' ∧ c = c' ∧ k = k' := by
  simp only [enhanceKey, List.cons.injEq] at h
  obtain ⟨htype, hctrl, hkey⟩ := h
  refine ⟨?_, ?_, hkey⟩
  · -- the type byte is the low byte of a one-byte code
    apply RecordBatchType.code_injective
    have hbv := congrArg UInt8.toBitVec htype
    simpa [Int8.toUInt8, Int8.toBitVec_inj] using hbv
  · cases c <;> cases c' <;> simp_all

/-- The key of a record of a batch, as compaction compares it. -/
def recordKey (b : RecordBatch) (r : Record) : List UInt8 :=
  enhanceKey b.header.type b.header.isControl r.key

/-- The absolute offset of a record of a batch: `base_offset() +
    offset_delta()`. -/
def recordOffset (b : RecordBatch) (r : Record) : Int :=
  b.header.baseOffset + r.offsetDelta

/-! ## The compacted index -/

/-- `compacted_index::max_entry_size`: an entry's length is a `uint16_t`. -/
def maxEntrySize : Nat := 65535

/-- `vint::max_length`. -/
def vintMaxLength : Nat := 10

/-- `spill_key_index::max_key_size`: what is left of an entry after the two
    offsets. -/
def maxKeySize : Nat := maxEntrySize - 2 * vintMaxLength

/-- `compacted_index::entry` of type `key`: the key as written, the batch's
    base offset and the record's offset delta. -/
structure IndexEntry where
  key : List UInt8
  offset : Int
  delta : Nat
deriving DecidableEq, Repr

/-- The absolute offset of an entry: `offset + offset_delta(delta)`. -/
def IndexEntry.absOffset (e : IndexEntry) : Int := e.offset + e.delta

/-- The key bytes `spill_key_index::spill` writes:
    `std::min(max_key_size, b.size())` of them. -/
def spillKey (key : List UInt8) : List UInt8 := key.take maxKeySize

/-- The entry the index holds for a record (`do_compaction_index_batch`). -/
def indexEntry (b : RecordBatch) (r : Record) : IndexEntry :=
  ⟨spillKey (recordKey b r), b.header.baseOffset, r.offsetDelta⟩

@[simp] theorem absOffset_indexEntry (b : RecordBatch) (r : Record) :
    (indexEntry b r).absOffset = recordOffset b r := rfl

/-- `segment::compaction_index_batch`: one entry per record of a compactible
    batch, none for another batch. -/
def compactionIndexBatch (b : RecordBatch) : List IndexEntry :=
  if isCompactible b.header then b.records.map (indexEntry b) else []

theorem mem_compactionIndexBatch {b : RecordBatch} {e : IndexEntry}
    (h : e ∈ compactionIndexBatch b) :
    isCompactible b.header = true ∧ ∃ r ∈ b.records, e = indexEntry b r := by
  unfold compactionIndexBatch at h
  split at h
  · obtain ⟨r, hr, rfl⟩ := List.mem_map.mp h
    exact ⟨by assumption, r, hr, rfl⟩
  · cases h

theorem spillKey_of_length_le {key : List UInt8} (h : key.length ≤ maxKeySize) :
    spillKey key = key :=
  List.take_of_length_le h

theorem length_spillKey_le (key : List UInt8) : (spillKey key).length ≤ maxKeySize := by
  unfold spillKey
  rw [List.length_take]
  exact Nat.min_le_left _ _

/-- A spilled key that is shorter than the limit is the key itself. -/
theorem spillKey_eq_of_length_lt {key key' : List UInt8} (h : spillKey key' = key)
    (hlt : key.length < maxKeySize) : key' = key := by
  have hle : key'.length ≤ maxKeySize := by
    by_contra hgt
    have hlen : (spillKey key').length = maxKeySize := by
      unfold spillKey
      rw [List.length_take]
      omega
    rw [h] at hlen
    omega
  rw [← h, spillKey_of_length_le hle]

/-- **TRUNCATION MERGES KEYS**: a key at the limit is the spilled key of
    every key that extends it. -/
theorem spillKey_extend {key : List UInt8} (extra : List UInt8)
    (h : key.length = maxKeySize) : spillKey (key ++ extra) = key := by
  unfold spillKey
  rw [← h]
  exact List.take_left

end Compaction
