import Mathlib
import Redpanda.Lib.NarrowAccumulate

/-! # `partition_manifest` — the size of the cloud log

    Model of the size accounting of `cloud_storage/partition_manifest.cc`:
    the counter `_cloud_log_size_bytes` of the segments from the start offset
    on (the STM region), the counter `_archive_size_bytes` of the part moved
    to spillover manifests, `subtract_from_cloud_log_size`, and the JSON path
    `do_update` that rebuilds the first counter with
    `compute_cloud_log_size` when a legacy manifest does not carry it.

    The segment store is keyed by base offset, so it is a list sorted by base
    offset.  The column search `find` is an exact match; what it returns is an
    iterator, here the suffix of the list from the match on.  Sizes are the
    `int64_t` column of the store, here naturals; the counters are
    `uint64_t`.  `compute_cloud_log_size` sums through
    `std::accumulate(.., 0)`, whose accumulator is an `int`: that is
    `NarrowAccumulate.accumulate32`. -/

namespace CloudStorage

open NarrowAccumulate

/-- `model::offset{}`: the minimum of `int64_t`. -/
def unsetOffset : Int := -2 ^ 63

/-- `segment_meta` (the fields the size accounting reads). -/
structure SegmentMeta where
  baseOffset : Int
  committedOffset : Int
  sizeBytes : Nat
deriving DecidableEq, Repr

/-- `partition_manifest` (the fields the size accounting reads or writes). -/
structure PartitionManifest where
  startOffset : Int
  segments : List SegmentMeta
  cloudLogSizeBytes : UInt64
  archiveSizeBytes : UInt64
deriving DecidableEq, Repr

/-- The manifest a constructor without segments builds. -/
def PartitionManifest.empty : PartitionManifest :=
  { startOffset := unsetOffset, segments := [], cloudLogSizeBytes := 0, archiveSizeBytes := 0 }

/-- `segment_meta_cstore::find` on the base offset column: the segments from
    the one with base offset `o` on. -/
def findBase (o : Int) : List SegmentMeta → Option (List SegmentMeta)
  | [] => none
  | s :: ss => if s.baseOffset = o then some (s :: ss) else findBase o ss

namespace PartitionManifest

/-- `partition_manifest::compute_cloud_log_size`. -/
def computeCloudLogSize (m : PartitionManifest) : UInt64 :=
  match findBase m.startOffset m.segments with
  | none => 0
  | some rest => UInt64.ofInt (accumulate32 0 (rest.map (·.sizeBytes))).toInt

/-- `partition_manifest::stm_region_size_bytes`. -/
def stmRegionSizeBytes (m : PartitionManifest) : UInt64 := m.cloudLogSizeBytes

/-- `partition_manifest::cloud_log_size`. -/
def cloudLogSize (m : PartitionManifest) : UInt64 := m.cloudLogSizeBytes + m.archiveSizeBytes

/-- `partition_manifest::subtract_from_cloud_log_size`: clamps at zero. -/
def subtractFromCloudLogSize (m : PartitionManifest) (toSubtract : UInt64) : PartitionManifest :=
  if toSubtract > m.cloudLogSizeBytes then { m with cloudLogSizeBytes := 0 }
  else { m with cloudLogSizeBytes := m.cloudLogSizeBytes - toSubtract }

end PartitionManifest

/-- The fields of `partition_manifest_handler` that `do_update` reads for
    the offsets and the sizes; absent JSON fields are `none`. -/
structure ManifestHandler where
  version : Int
  startOffset : Option Int
  segments : Option (List SegmentMeta)
  archiveSizeBytes : Option UInt64
  cloudLogSizeBytes : Option UInt64
deriving DecidableEq, Repr

/-- The failure of `do_update`. -/
inductive ManifestError where
  /-- "partition manifest version {} is not supported". -/
  | unsupportedVersion (version : Int)
deriving DecidableEq, Repr

namespace PartitionManifest

/-- `partition_manifest::do_update`, for the fields above. -/
def doUpdate (m : PartitionManifest) (h : ManifestHandler) :
    Except ManifestError PartitionManifest :=
  if h.version ∉ [1, 2, 3, 4] then .error (.unsupportedVersion h.version)
  else
    let m := { m with startOffset := h.startOffset.getD unsetOffset }
    let m := match h.segments with
      | none => m
      | some segs =>
          let m := { m with segments := segs }
          -- an old manifest has no start offset: it is the first segment's base
          match h.startOffset, segs with
          | none, s :: _ => { m with startOffset := s.baseOffset }
          | _, _ => m
    let m := match h.archiveSizeBytes with
      | some a => { m with archiveSizeBytes := a }
      | none => m
    match h.cloudLogSizeBytes with
    | some c => .ok { m with cloudLogSizeBytes := c }
    | none => .ok { m with cloudLogSizeBytes := m.computeCloudLogSize }

/-! ## What the counter should hold -/

/-- The size of the STM region: the sizes of the segments whose base offset
    is at or past the start offset, summed without bound. -/
def regionSize (m : PartitionManifest) : Nat :=
  ((m.segments.filter fun s => decide (m.startOffset ≤ s.baseOffset)).map (·.sizeBytes)).sum

end PartitionManifest

/-- The segment store's order: base offsets strictly increase. -/
def SortedByBase (segs : List SegmentMeta) : Prop :=
  segs.Pairwise fun a b => a.baseOffset < b.baseOffset

theorem findBase_mem {o : Int} :
    ∀ {segs rest : List SegmentMeta}, findBase o segs = some rest →
      ∃ s ∈ segs, s.baseOffset = o
  | [], _, h => by cases h
  | s :: ss, rest, h => by
      unfold findBase at h
      split at h
      · exact ⟨s, List.mem_cons_self, by assumption⟩
      · obtain ⟨x, hx, hbase⟩ := findBase_mem h
        exact ⟨x, List.mem_cons_of_mem s hx, hbase⟩

theorem findBase_of_mem {o : Int} {s : SegmentMeta} :
    ∀ {segs : List SegmentMeta}, s ∈ segs → s.baseOffset = o → ∃ rest, findBase o segs = some rest
  | [], hs, _ => by cases hs
  | x :: xs, hs, hbase => by
      unfold findBase
      split
      · exact ⟨_, rfl⟩
      · rename_i hx
        rcases List.mem_cons.mp hs with rfl | hxs
        · exact absurd hbase hx
        · exact findBase_of_mem hxs hbase

/-- On a sorted store the search result is the segments at or past `o`. -/
theorem findBase_eq_filter {o : Int} :
    ∀ {segs rest : List SegmentMeta}, SortedByBase segs → findBase o segs = some rest →
      rest = segs.filter fun s => decide (o ≤ s.baseOffset)
  | [], _, _, h => by cases h
  | s :: ss, rest, hsorted, h => by
      unfold SortedByBase at hsorted
      rw [List.pairwise_cons] at hsorted
      obtain ⟨hlt, hss⟩ := hsorted
      unfold findBase at h
      split at h
      · -- the match is the head: everything from it on is at or past `o`
        rename_i hbase
        cases h
        refine (List.filter_eq_self.mpr ?_).symm
        intro x hx
        rcases List.mem_cons.mp hx with rfl | hx
        · simp [hbase]
        · have := hlt x hx
          simp only [decide_eq_true_eq]
          omega
      · -- the match is further on, so the head lies below `o`
        obtain ⟨x, hx, hbase⟩ := findBase_mem h
        have hhead : s.baseOffset < o := hbase ▸ hlt x hx
        rw [List.filter_cons_of_neg (by simp only [decide_eq_true_eq]; omega)]
        exact findBase_eq_filter hss h

namespace PartitionManifest

/-- **THE RECOMPUTED SIZE**: on a sorted store whose start offset is a
    segment's base, `compute_cloud_log_size` is the region size narrowed to
    an `int` and sign-extended. -/
theorem computeCloudLogSize_eq (m : PartitionManifest) (hsorted : SortedByBase m.segments)
    {s : SegmentMeta} (hs : s ∈ m.segments) (hbase : s.baseOffset = m.startOffset) :
    m.computeCloudLogSize = UInt64.ofInt (accumulate32 0
      ((m.segments.filter fun s => decide (m.startOffset ≤ s.baseOffset)).map (·.sizeBytes))).toInt := by
  unfold computeCloudLogSize
  cases hfind : findBase m.startOffset m.segments with
  | none =>
      -- the search cannot miss a base that is in the store
      obtain ⟨rest, hrest⟩ := findBase_of_mem hs hbase
      rw [hfind] at hrest
      cases hrest
  | some rest =>
      rw [findBase_eq_filter hsorted hfind]

/-- **EXACT ONLY BELOW 2 GiB**: for a region that fits a signed 64-bit size,
    the recomputed counter is the region size exactly when the region holds
    less than `2^31` bytes. -/
theorem computeCloudLogSize_eq_regionSize_iff (m : PartitionManifest)
    (hsorted : SortedByBase m.segments) {s : SegmentMeta} (hs : s ∈ m.segments)
    (hbase : s.baseOffset = m.startOffset) (hfits : m.regionSize < 2 ^ 63) :
    m.computeCloudLogSize.toNat = m.regionSize ↔ m.regionSize < 2 ^ 31 := by
  rw [computeCloudLogSize_eq m hsorted hs hbase]
  exact toNat_ofInt_accumulate32_eq_sum_iff hfits

/-- A manifest that starts at its first segment's base holds all of its
    segments in the region. -/
theorem regionSize_of_first (m : PartitionManifest) {s : SegmentMeta} {ss : List SegmentMeta}
    (hsegs : m.segments = s :: ss) (hstart : m.startOffset = s.baseOffset)
    (hsorted : SortedByBase (s :: ss)) : m.regionSize = ((s :: ss).map (·.sizeBytes)).sum := by
  unfold regionSize
  rw [hsegs, hstart, List.filter_eq_self.mpr]
  intro x hx
  rcases List.mem_cons.mp hx with rfl | hx
  · simp
  · have := List.rel_of_pairwise_cons hsorted hx
    simp only [decide_eq_true_eq]
    omega

theorem computeCloudLogSize_of_first (m : PartitionManifest) {s : SegmentMeta}
    {ss : List SegmentMeta} (hsegs : m.segments = s :: ss) (hstart : m.startOffset = s.baseOffset)
    (hsorted : SortedByBase (s :: ss)) (hfits : ((s :: ss).map (·.sizeBytes)).sum < 2 ^ 63) :
    m.regionSize = ((s :: ss).map (·.sizeBytes)).sum ∧
      (m.computeCloudLogSize.toNat = m.regionSize ↔ m.regionSize < 2 ^ 31) := by
  have hregion := regionSize_of_first m hsegs hstart hsorted
  refine ⟨hregion, computeCloudLogSize_eq_regionSize_iff m (hsegs ▸ hsorted) ?_ hstart.symm
    (hregion ▸ hfits)⟩
  rw [hsegs]
  exact List.mem_cons_self

/-- **A LEGACY MANIFEST**: loading JSON without `start_offset` and
    `cloud_log_size_bytes` starts at the first segment and recomputes the
    counter, which is the size of all the segments exactly when they hold
    less than `2^31` bytes. -/
theorem doUpdate_legacy (m : PartitionManifest) (h : ManifestHandler)
    (hv : h.version ∈ [1, 2, 3, 4]) (hstart : h.startOffset = none)
    {s : SegmentMeta} {ss : List SegmentMeta} (hsegs : h.segments = some (s :: ss))
    (hsize : h.cloudLogSizeBytes = none) (hsorted : SortedByBase (s :: ss))
    (hfits : ((s :: ss).map (·.sizeBytes)).sum < 2 ^ 63) :
    ∃ m', m.doUpdate h = .ok m' ∧ m'.segments = s :: ss ∧ m'.startOffset = s.baseOffset ∧
      m'.regionSize = ((s :: ss).map (·.sizeBytes)).sum ∧
      (m'.stmRegionSizeBytes.toNat = m'.regionSize ↔ m'.regionSize < 2 ^ 31) := by
  unfold doUpdate
  rw [if_neg (not_not.mpr hv), hsegs, hstart, hsize]
  -- the archive counter takes no part: either way the stored counter is the
  -- recomputation on a manifest that starts at the first segment
  cases h.archiveSizeBytes with
  | none => exact ⟨_, rfl, rfl, rfl, computeCloudLogSize_of_first _ rfl rfl hsorted hfits⟩
  | some a => exact ⟨_, rfl, rfl, rfl, computeCloudLogSize_of_first _ rfl rfl hsorted hfits⟩

end PartitionManifest

/-- **THE WRAPPED COUNTER**: a legacy manifest with one 2 GiB segment loads
    with `stm_region_size_bytes` equal to `2^64 - 2^31` instead of `2^31`. -/
theorem doUpdate_legacy_cloud_log_size_wraps :
    ((PartitionManifest.empty.doUpdate
        { version := 1, startOffset := none, segments := some [⟨0, 999, 2 ^ 31⟩],
          archiveSizeBytes := none, cloudLogSizeBytes := none }).toOption.map
      fun m => (m.regionSize, m.stmRegionSizeBytes.toNat))
      = some (2 ^ 31, 2 ^ 64 - 2 ^ 31) := by
  decide

end CloudStorage
