import Mathlib
import Redpanda.CloudStorage.PartitionManifest
import Redpanda.Model.Fundamental

/-! # `partition_manifest::segment_containing` — the offset lookups

    Model of the two lookups of `cloud_storage/partition_manifest.cc`: by log
    offset (`upper_bound`, then the segment before it) and by Kafka offset
    (`lower_bound` on the log offset, then a forward scan for the first
    segment whose base Kafka offset is past the target).  The segment store
    is keyed by base offset, so it is a list sorted by base offset, and an
    iterator is the segment it points at, with `end()` as `none`.

    The lookups are exact on a manifest of the right `Shape`: each is
    `find?` of the segment that holds the offset (`segmentContaining_eq_find`,
    `segmentContainingKafka_eq_find`), and at most one segment holds it
    (`containsLog_unique`, `containsKafka_unique`).  The Kafka lookup seeds
    its search with the log offset, which is sound only because a segment's
    Kafka offsets are at or below its log offsets. -/

namespace CloudStorage

/-- `segment_meta`, the offsets and deltas the lookups read. -/
structure SegmentOffsets where
  baseOffset : Int
  committedOffset : Int
  deltaOffset : Int
  deltaOffsetEnd : Int
deriving DecidableEq, Repr

namespace SegmentOffsets

/-- `segment_meta::base_kafka_offset`: a delta an old manifest did not
    record, `offset_delta::min()`, counts as 0. -/
def baseKafkaOffset (s : SegmentOffsets) : Int :=
  s.baseOffset - (if s.deltaOffset = unsetOffset then 0 else s.deltaOffset)

/-- `segment_meta::next_kafka_offset`. -/
def nextKafkaOffset (s : SegmentOffsets) : Int :=
  Model.nextOffset s.committedOffset -
    (if s.deltaOffsetEnd = unsetOffset then 0 else s.deltaOffsetEnd)

/-- The log offsets the segment holds. -/
def ContainsLog (s : SegmentOffsets) (o : Int) : Prop :=
  s.baseOffset ≤ o ∧ o ≤ s.committedOffset

/-- The Kafka offsets the segment holds; a segment without data batches
    holds none. -/
def ContainsKafka (s : SegmentOffsets) (k : Int) : Prop :=
  s.baseKafkaOffset ≤ k ∧ k < s.nextKafkaOffset

instance (s : SegmentOffsets) (o : Int) : Decidable (s.ContainsLog o) :=
  inferInstanceAs (Decidable (_ ∧ _))

instance (s : SegmentOffsets) (k : Int) : Decidable (s.ContainsKafka k) :=
  inferInstanceAs (Decidable (_ ∧ _))

end SegmentOffsets

open SegmentOffsets

/-- The segments of a manifest, in base offset order: `segment_meta_cstore`
    is keyed by base offset. -/
structure SegmentStore where
  segments : List SegmentOffsets
  sorted : segments.Pairwise (fun a b => a.baseOffset < b.baseOffset)

namespace SegmentStore

/-! ## The lookups -/

/-- The forward scan of `segment_containing(kafka::offset)`: `prev` is the
    segment before the cursor.  The first segment whose base Kafka offset is
    past `o` answers `prev`; past the end, the last segment answers unless it
    records a next Kafka offset at or below `o`. -/
def kafkaScan (o : Int) (prev : SegmentOffsets) : List SegmentOffsets → Option SegmentOffsets
  | [] => if prev.deltaOffsetEnd ≠ unsetOffset ∧ prev.nextKafkaOffset ≤ o then none else some prev
  | s :: rest => if s.baseKafkaOffset > o then some prev else kafkaScan o s rest

/-- `lower_bound(kafka::offset_cast(o))` past the first segment, then the
    scan from the cursor it finds. -/
def kafkaLowerBound (o : Int) (prev : SegmentOffsets) :
    List SegmentOffsets → Option SegmentOffsets
  | [] => kafkaScan o prev []
  | s :: rest => if o ≤ s.baseOffset then kafkaScan o prev (s :: rest) else kafkaLowerBound o s rest

/-- `partition_manifest::segment_containing(kafka::offset)`. -/
def segmentContainingKafka (m : SegmentStore) (o : Int) : Option SegmentOffsets :=
  match m.segments with
  | [] => none
  | first :: rest =>
      if o ≤ first.baseOffset then
        -- `lower_bound` is `begin()`: refuse, or step past the first segment
        if first.baseKafkaOffset > o then none else kafkaScan o first rest
      else kafkaLowerBound o first rest

/-- `upper_bound(o)` then `prev`: the last segment whose base offset is at or
    below `o`. -/
def lastAtOrBefore (o : Int) (prev : SegmentOffsets) : List SegmentOffsets → SegmentOffsets
  | [] => prev
  | s :: rest => if o < s.baseOffset then prev else lastAtOrBefore o s rest

/-- `partition_manifest::segment_containing(model::offset)`; `lastOffset`
    is `_last_offset`. -/
def segmentContaining (m : SegmentStore) (lastOffset o : Int) : Option SegmentOffsets :=
  match m.segments with
  | [] => none
  | first :: rest =>
      if o > lastOffset then none
      -- `upper_bound` is `begin()`
      else if o < first.baseOffset then none
      else
        let s := lastAtOrBefore o first rest
        if s.baseOffset ≤ o ∧ s.committedOffset ≥ o then some s else none

end SegmentStore

/-! ## The shape of a manifest -/

/-- Consecutive segments: contiguous in log offsets, and the Kafka range of
    the first ends where that of the second begins, which is not below where
    the first's begins. -/
def Follows (a b : SegmentOffsets) : Prop :=
  b.baseOffset = a.committedOffset + 1 ∧ a.baseKafkaOffset ≤ b.baseKafkaOffset ∧
    a.nextKafkaOffset = b.baseKafkaOffset

instance : DecidableRel Follows := fun _ _ => inferInstanceAs (Decidable (_ ∧ _))

namespace SegmentStore

/-- What the lookups rely on: contiguous segments, Kafka offsets at or below
    log offsets, `_last_offset` at or past every segment, and an end delta
    on the last segment. -/
structure Shape (m : SegmentStore) (lastOffset : Int) : Prop where
  contiguous : m.segments.IsChain Follows
  kafkaBelowLog : ∀ s ∈ m.segments, s.baseKafkaOffset ≤ s.baseOffset
  lastOffsetAbove : ∀ s ∈ m.segments, s.committedOffset ≤ lastOffset
  lastDeltaEnd : ∀ s ∈ m.segments.getLast?, s.deltaOffsetEnd ≠ unsetOffset

end SegmentStore

/-! ## Chains of segments -/

section Chains

variable {a b : SegmentOffsets} {rest : List SegmentOffsets}

/-- Along a chain the base Kafka offsets do not decrease. -/
theorem baseKafkaOffset_le_of_chain :
    ∀ {a : SegmentOffsets} {rest : List SegmentOffsets}, (a :: rest).IsChain Follows →
      ∀ s ∈ rest, a.baseKafkaOffset ≤ s.baseKafkaOffset
  | _, [], _, s, hs => nomatch hs
  | a, b :: rest, h, s, hs => by
      rw [List.isChain_cons_cons] at h
      rcases List.mem_cons.mp hs with rfl | hs
      · exact h.1.2.1
      · exact le_trans h.1.2.1 (baseKafkaOffset_le_of_chain h.2 s hs)

/-- A segment's Kafka range ends at or below where every later one begins. -/
theorem nextKafkaOffset_le_of_chain (h : (a :: rest).IsChain Follows) :
    ∀ s ∈ rest, a.nextKafkaOffset ≤ s.baseKafkaOffset := by
  cases rest with
  | nil => intro s hs; exact nomatch hs
  | cons b rest =>
      rw [List.isChain_cons_cons] at h
      intro s hs
      rcases List.mem_cons.mp hs with rfl | hs
      · exact le_of_eq h.1.2.2
      · rw [h.1.2.2]
        exact baseKafkaOffset_le_of_chain h.2 s hs

/-- In a sorted chain a segment ends before every later one begins. -/
theorem committedOffset_lt_of_chain (h : (a :: rest).IsChain Follows)
    (hsorted : (a :: rest).Pairwise (fun a b => a.baseOffset < b.baseOffset)) :
    ∀ s ∈ rest, a.committedOffset < s.baseOffset := by
  cases rest with
  | nil => intro s hs; exact nomatch hs
  | cons b rest =>
      rw [List.isChain_cons_cons] at h
      obtain ⟨⟨hnext, -, -⟩, -⟩ := h
      have hb : ∀ s ∈ rest, b.baseOffset < s.baseOffset := (List.pairwise_cons.mp
        (List.pairwise_cons.mp hsorted).2).1
      intro s hs
      rcases List.mem_cons.mp hs with rfl | hs
      · omega
      · have := hb s hs
        omega

/-- Every segment of a chain but the last ends its Kafka range at or below
    where the last one's begins. -/
theorem nextKafkaOffset_le_last :
    ∀ {segs : List SegmentOffsets}, segs.IsChain Follows → ∀ last ∈ segs.getLast?,
      ∀ s ∈ segs, s = last ∨ s.nextKafkaOffset ≤ last.baseKafkaOffset
  | [], _, _, hlast, _, _ => nomatch hlast
  | [a], _, last, hlast, s, hs => by
      rw [List.getLast?_singleton, Option.mem_some_iff] at hlast
      rw [List.mem_singleton.mp hs, hlast]
      exact .inl rfl
  | a :: b :: rest, h, last, hlast, s, hs => by
      rw [List.getLast?_cons_cons] at hlast
      rcases List.mem_cons.mp hs with rfl | hs
      · exact .inr (nextKafkaOffset_le_of_chain h last (List.mem_of_getLast? hlast))
      · exact nextKafkaOffset_le_last h.of_cons last hlast s hs

/-- Two segments of a list whose earlier members exclude the later ones are
    one. -/
theorem eq_of_pairwise_exclusive {P : SegmentOffsets → Prop} :
    ∀ {l : List SegmentOffsets}, l.Pairwise (fun a b => P a → ¬ P b) →
      ∀ s ∈ l, ∀ s' ∈ l, P s → P s' → s = s'
  | [], _, _, hs, _, _, _, _ => nomatch hs
  | a :: l, h, s, hs, s', hs', hps, hps' => by
      obtain ⟨ha, hl⟩ := List.pairwise_cons.mp h
      rcases List.mem_cons.mp hs with hsa | hs <;> rcases List.mem_cons.mp hs' with hsa' | hs'
      · rw [hsa, hsa']
      · rw [hsa] at hps
        exact absurd hps' (ha s' hs' hps)
      · rw [hsa'] at hps'
        exact absurd hps (ha s hs hps')
      · exact eq_of_pairwise_exclusive hl s hs s' hs' hps hps'

/-- `find?` stops at a segment that holds the offset. -/
theorem find?_cons_of_holds {P : SegmentOffsets → Prop} [DecidablePred P] {s : SegmentOffsets}
    {l : List SegmentOffsets} (h : P s) : (s :: l).find? (P ·) = some s :=
  List.find?_cons_of_pos (decide_eq_true h)

/-- `find?` passes a segment that does not hold the offset. -/
theorem find?_cons_of_fails {P : SegmentOffsets → Prop} [DecidablePred P] {s : SegmentOffsets}
    {l : List SegmentOffsets} (h : ¬ P s) : (s :: l).find? (P ·) = l.find? (P ·) :=
  List.find?_cons_of_neg fun h' => h (of_decide_eq_true h')

/-- `find?` finds nothing where no segment holds the offset. -/
theorem find?_of_none_holds {P : SegmentOffsets → Prop} [DecidablePred P]
    {l : List SegmentOffsets} (h : ∀ s ∈ l, ¬ P s) : l.find? (P ·) = none :=
  List.find?_eq_none.mpr fun s hs h' => h s hs (of_decide_eq_true h')

end Chains

namespace SegmentStore

/-! ## The Kafka lookup -/

section Kafka

variable {o : Int}

/-- **THE SCAN**: from a segment whose Kafka range starts at or below `o`,
    the scan answers the segment of the chain that holds `o`. -/
theorem kafkaScan_eq_find :
    ∀ {prev : SegmentOffsets} {rest : List SegmentOffsets}, (prev :: rest).IsChain Follows →
      prev.baseKafkaOffset ≤ o → (∀ s ∈ (prev :: rest).getLast?, s.deltaOffsetEnd ≠ unsetOffset) →
      kafkaScan o prev rest = (prev :: rest).find? (·.ContainsKafka o)
  | prev, [], _, hbk, hend => by
      -- the last segment: its recorded next Kafka offset decides
      have hset : prev.deltaOffsetEnd ≠ unsetOffset := hend prev rfl
      by_cases hnk : prev.nextKafkaOffset ≤ o
      · have hout : ¬ prev.ContainsKafka o := fun hc => by unfold ContainsKafka at hc; omega
        rw [kafkaScan, if_pos ⟨hset, hnk⟩, find?_cons_of_fails hout]
        rfl
      · have hin : prev.ContainsKafka o := ⟨hbk, by omega⟩
        rw [kafkaScan, if_neg (fun h => hnk h.2), find?_cons_of_holds hin]
  | prev, s :: rest, h, hbk, hend => by
      have hchain := h
      rw [List.isChain_cons_cons] at hchain
      obtain ⟨⟨-, -, hnk⟩, htail⟩ := hchain
      by_cases hpast : s.baseKafkaOffset > o
      · -- `prev`'s range ends where `s`'s begins, past `o`
        have hin : prev.ContainsKafka o := ⟨hbk, by omega⟩
        rw [kafkaScan, if_pos hpast, find?_cons_of_holds hin]
      · have hout : ¬ prev.ContainsKafka o := fun hc => by unfold ContainsKafka at hc; omega
        rw [kafkaScan, if_neg hpast, find?_cons_of_fails hout]
        exact kafkaScan_eq_find htail (by omega) (by simpa [List.getLast?_cons_cons] using hend)

/-- The `lower_bound` walk passes segments whose base offset is below `o`,
    whose Kafka ranges end at or below `o`. -/
theorem kafkaLowerBound_eq_find :
    ∀ {prev : SegmentOffsets} {rest : List SegmentOffsets}, (prev :: rest).IsChain Follows →
      (∀ s ∈ prev :: rest, s.baseKafkaOffset ≤ s.baseOffset) → prev.baseOffset < o →
      (∀ s ∈ (prev :: rest).getLast?, s.deltaOffsetEnd ≠ unsetOffset) →
      kafkaLowerBound o prev rest = (prev :: rest).find? (·.ContainsKafka o)
  | prev, [], h, hkl, hlt, hend => by
      have := hkl prev List.mem_cons_self
      exact kafkaScan_eq_find h (by omega) hend
  | prev, s :: rest, h, hkl, hlt, hend => by
      have hprev := hkl prev List.mem_cons_self
      by_cases hlb : o ≤ s.baseOffset
      · rw [kafkaLowerBound, if_pos hlb]
        exact kafkaScan_eq_find h (by omega) hend
      · have hchain := h
        rw [List.isChain_cons_cons] at hchain
        obtain ⟨⟨-, -, hnk⟩, htail⟩ := hchain
        have hs := hkl s (List.mem_cons_of_mem _ List.mem_cons_self)
        have hout : ¬ prev.ContainsKafka o := fun hc => by unfold ContainsKafka at hc; omega
        rw [kafkaLowerBound, if_neg hlb, find?_cons_of_fails hout]
        exact kafkaLowerBound_eq_find htail (fun x hx => hkl x (List.mem_cons_of_mem _ hx))
          (by omega) (by simpa [List.getLast?_cons_cons] using hend)

/-- **THE KAFKA LOOKUP IS `find?`.** -/
theorem segmentContainingKafka_eq_find {m : SegmentStore} {lastOffset : Int}
    (h : m.Shape lastOffset) : m.segmentContainingKafka o = m.segments.find? (·.ContainsKafka o) := by
  obtain ⟨segs, hsorted⟩ := m
  obtain ⟨hchain, hkl, -, hend⟩ := h
  cases segs with
  | nil => rfl
  | cons first rest =>
      have hfirst := hkl first List.mem_cons_self
      rw [segmentContainingKafka]
      dsimp only
      by_cases hle : o ≤ first.baseOffset
      · rw [if_pos hle]
        by_cases hbelow : first.baseKafkaOffset > o
        · -- every Kafka range starts at or past the first one's
          rw [if_pos hbelow, find?_of_none_holds]
          intro s hs hc
          unfold ContainsKafka at hc
          rcases List.mem_cons.mp hs with rfl | hs
          · omega
          · have := baseKafkaOffset_le_of_chain hchain s hs
            omega
        · rw [if_neg hbelow]
          exact kafkaScan_eq_find hchain (by omega) hend
      · rw [if_neg hle]
        exact kafkaLowerBound_eq_find hchain hkl (by omega) hend

/-- At most one segment of a chain holds a Kafka offset. -/
theorem containsKafka_unique {segs : List SegmentOffsets} (h : segs.IsChain Follows) :
    ∀ s ∈ segs, ∀ s' ∈ segs, s.ContainsKafka o → s'.ContainsKafka o → s = s' := by
  refine eq_of_pairwise_exclusive ?_
  induction segs with
  | nil => exact List.Pairwise.nil
  | cons a rest ih =>
      refine List.Pairwise.cons (fun s hs ha hs' => ?_) (ih h.of_cons)
      have := nextKafkaOffset_le_of_chain h s hs
      unfold ContainsKafka at ha hs'
      omega

end Kafka

/-! ## The log offset lookup -/

section Log

variable {o : Int}

/-- **THE SCAN**: from a segment at or below `o`, the last segment at or
    below `o` is the only one of a sorted chain that can hold it. -/
theorem lastAtOrBefore_find :
    ∀ {prev : SegmentOffsets} {rest : List SegmentOffsets}, (prev :: rest).IsChain Follows →
      (prev :: rest).Pairwise (fun a b => a.baseOffset < b.baseOffset) → prev.baseOffset ≤ o →
      (prev :: rest).find? (·.ContainsLog o) =
        if (lastAtOrBefore o prev rest).ContainsLog o then some (lastAtOrBefore o prev rest) else none
  | prev, [], _, _, _ => by
      rw [lastAtOrBefore]
      by_cases hc : prev.ContainsLog o
      · rw [if_pos hc, find?_cons_of_holds hc]
      · rw [if_neg hc, find?_cons_of_fails hc]
        rfl
  | prev, s :: rest, h, hsorted, hle => by
      have hchain := h
      rw [List.isChain_cons_cons] at hchain
      obtain ⟨⟨hbase, -, -⟩, htail⟩ := hchain
      have hlater : ∀ x ∈ rest, s.baseOffset < x.baseOffset :=
        (List.pairwise_cons.mp (List.pairwise_cons.mp hsorted).2).1
      by_cases hpast : o < s.baseOffset
      · -- every later segment starts past `o`
        have hnone : (s :: rest).find? (·.ContainsLog o) = none := by
          refine find?_of_none_holds fun x hx hc => ?_
          have : o < x.baseOffset := by
            rcases List.mem_cons.mp hx with rfl | hx
            · exact hpast
            · have := hlater x hx
              omega
          unfold ContainsLog at hc
          omega
        rw [lastAtOrBefore, if_pos hpast]
        by_cases hc : prev.ContainsLog o
        · rw [if_pos hc, find?_cons_of_holds hc]
        · rw [if_neg hc, find?_cons_of_fails hc, hnone]
      · -- `prev` ends just before `s`, at or below `o`
        have hout : ¬ prev.ContainsLog o := fun hc => by unfold ContainsLog at hc; omega
        rw [lastAtOrBefore, if_neg hpast, find?_cons_of_fails hout]
        exact lastAtOrBefore_find htail (List.pairwise_cons.mp hsorted).2 (by omega)

/-- **THE LOG OFFSET LOOKUP IS `find?`.** -/
theorem segmentContaining_eq_find {m : SegmentStore} {lastOffset : Int}
    (h : m.Shape lastOffset) : m.segmentContaining lastOffset o = m.segments.find? (·.ContainsLog o) := by
  obtain ⟨segs, hsorted⟩ := m
  obtain ⟨hchain, -, habove, -⟩ := h
  cases segs with
  | nil => rfl
  | cons first rest =>
      rw [segmentContaining]
      dsimp only
      by_cases hpast : o > lastOffset
      · -- every segment ends at or before `_last_offset`
        rw [if_pos hpast, find?_of_none_holds]
        intro s hs hc
        have := habove s hs
        unfold ContainsLog at hc
        omega
      · rw [if_neg hpast]
        by_cases hbefore : o < first.baseOffset
        · -- every segment starts at or past the first one
          rw [if_pos hbefore, find?_of_none_holds]
          intro s hs hc
          have : first.baseOffset ≤ s.baseOffset := by
            rcases List.mem_cons.mp hs with rfl | hs
            · exact le_rfl
            · exact le_of_lt ((List.pairwise_cons.mp hsorted).1 s hs)
          unfold ContainsLog at hc
          omega
        · rw [if_neg hbefore, lastAtOrBefore_find hchain hsorted (by omega)]
          rfl

/-- At most one segment of a sorted chain holds a log offset. -/
theorem containsLog_unique {segs : List SegmentOffsets} (h : segs.IsChain Follows)
    (hsorted : segs.Pairwise (fun a b => a.baseOffset < b.baseOffset)) :
    ∀ s ∈ segs, ∀ s' ∈ segs, s.ContainsLog o → s'.ContainsLog o → s = s' := by
  refine eq_of_pairwise_exclusive ?_
  induction segs with
  | nil => exact List.Pairwise.nil
  | cons a rest ih =>
      refine List.Pairwise.cons (fun s hs ha hs' => ?_) (ih h.of_cons (List.pairwise_cons.mp hsorted).2)
      have := committedOffset_lt_of_chain h hsorted s hs
      unfold ContainsLog at ha hs'
      omega

end Log

/-! ## The lookups are exact -/

/-- **THE LOOKUPS ARE EXACT.**  On a manifest of the right shape,
    `segment_containing` by log offset and by Kafka offset each return the
    one segment that holds the offset, and `end()` when none does, so a
    segment without data batches is never returned by Kafka offset; a Kafka
    offset below the first segment's, or at or past the end of the last
    segment's range when that range is not reversed, finds `end()`. -/
theorem segment_containing_exact (m : SegmentStore) (lastOffset : Int) (h : m.Shape lastOffset) :
    (∀ o, m.segmentContaining lastOffset o = m.segments.find? (·.ContainsLog o)) ∧
      (∀ o, ∀ s ∈ m.segments, ∀ s' ∈ m.segments, s.ContainsLog o → s'.ContainsLog o → s = s') ∧
      (∀ k, m.segmentContainingKafka k = m.segments.find? (·.ContainsKafka k)) ∧
      (∀ k, ∀ s ∈ m.segments, ∀ s' ∈ m.segments, s.ContainsKafka k → s'.ContainsKafka k → s = s') ∧
      (∀ k, ∀ first ∈ m.segments.head?, k < first.baseKafkaOffset →
        m.segmentContainingKafka k = none) ∧
      (∀ k, ∀ last ∈ m.segments.getLast?, last.baseKafkaOffset ≤ last.nextKafkaOffset →
        last.nextKafkaOffset ≤ k → m.segmentContainingKafka k = none) := by
  refine ⟨fun o => segmentContaining_eq_find h, fun o => containsLog_unique h.contiguous m.sorted,
    fun k => segmentContainingKafka_eq_find h, fun k => containsKafka_unique h.contiguous,
    fun k first hfirst hbelow => ?_, fun k last hlast hrange hpast => ?_⟩
  · -- every Kafka range starts at or past the first one's
    rw [segmentContainingKafka_eq_find h, find?_of_none_holds]
    intro s hs hc
    unfold ContainsKafka at hc
    obtain ⟨rest, hsegs⟩ : ∃ rest, m.segments = first :: rest := by
      cases hseg : m.segments with
      | nil => rw [hseg] at hfirst; cases hfirst
      | cons a rest =>
          rw [hseg, List.head?_cons, Option.mem_some_iff] at hfirst
          exact ⟨rest, by rw [hfirst]⟩
    have hchain := h.contiguous
    rw [hsegs] at hchain hs
    rcases List.mem_cons.mp hs with rfl | hs
    · omega
    · have := baseKafkaOffset_le_of_chain hchain s hs
      omega
  · -- every Kafka range ends at or below the last one's end
    rw [segmentContainingKafka_eq_find h, find?_of_none_holds]
    intro s hs hc
    unfold ContainsKafka at hc
    rcases nextKafkaOffset_le_last h.contiguous last hlast s hs with rfl | hle
    · omega
    · omega

/-- Four contiguous segments; the third holds only configuration batches
    and so no Kafka offset. -/
def sampleStore : SegmentStore :=
  ⟨[⟨0, 9, 0, 2⟩, ⟨10, 19, 2, 2⟩, ⟨20, 22, 2, 5⟩, ⟨23, 29, 5, 5⟩], by decide⟩

theorem segment_containing_exact_sample :
    sampleStore.Shape 29 ∧
      ((∀ o, sampleStore.segmentContaining 29 o = sampleStore.segments.find? (·.ContainsLog o)) ∧
        (∀ o, ∀ s ∈ sampleStore.segments, ∀ s' ∈ sampleStore.segments,
          s.ContainsLog o → s'.ContainsLog o → s = s') ∧
        (∀ k, sampleStore.segmentContainingKafka k = sampleStore.segments.find? (·.ContainsKafka k)) ∧
        (∀ k, ∀ s ∈ sampleStore.segments, ∀ s' ∈ sampleStore.segments,
          s.ContainsKafka k → s'.ContainsKafka k → s = s') ∧
        (∀ k, ∀ first ∈ sampleStore.segments.head?, k < first.baseKafkaOffset →
          sampleStore.segmentContainingKafka k = none) ∧
        (∀ k, ∀ last ∈ sampleStore.segments.getLast?, last.baseKafkaOffset ≤ last.nextKafkaOffset →
          last.nextKafkaOffset ≤ k → sampleStore.segmentContainingKafka k = none)) :=
  ⟨⟨by decide, by decide, by decide, by decide⟩,
    segment_containing_exact sampleStore 29 ⟨by decide, by decide, by decide, by decide⟩⟩

/-- Without Kafka offsets at or below log offsets, or with `_last_offset`
    below a segment, the lookups miss.  Two contiguous segments with delta
    -5 hold the Kafka ranges `[5, 15)` and `[15, 25)`; `lower_bound(12)` is
    past both, and Kafka offset 12 finds the second.  With `_last_offset` 5,
    log offset 7 of the segment `[0, 9]` finds `end()`. -/
theorem segment_containing_needs_shape :
    [(⟨0, 9, -5, -5⟩ : SegmentOffsets), ⟨10, 19, -5, -5⟩].IsChain Follows ∧
      (⟨[⟨0, 9, -5, -5⟩, ⟨10, 19, -5, -5⟩], by decide⟩ : SegmentStore).segmentContainingKafka 12 =
        some ⟨10, 19, -5, -5⟩ ∧
      ([⟨0, 9, -5, -5⟩, ⟨10, 19, -5, -5⟩] : List SegmentOffsets).find? (·.ContainsKafka 12) =
        some ⟨0, 9, -5, -5⟩ ∧
      (⟨[⟨0, 9, 0, 0⟩], by decide⟩ : SegmentStore).segmentContaining 5 7 = none ∧
      ([⟨0, 9, 0, 0⟩] : List SegmentOffsets).find? (·.ContainsLog 7) = some ⟨0, 9, 0, 0⟩ := by
  decide

end SegmentStore

end CloudStorage
