import Mathlib
import Redpanda.Cluster.ProducerState
import Redpanda.Storage.CompactedIndex

/-! # `rm_stm` — open transactions and the last stable offset

    Model of the transactional part of `cluster/rm_stm.cc` and
    `cluster/producer_state.cc`: the apply paths (`do_apply`,
    `apply_fence`, `apply_control`, `apply_data`) with the producer
    state they change (`apply_transaction_begin`, `apply_data`,
    `apply_transaction_end`), `last_stable_offset`, and `sync`, which
    forgets `_last_known_lso` on a new in-sync term.

    Producers are kept by producer id, as `_producers` keeps them; the
    intrusive list `_active_tx_producers` is the list of the ids of the
    producers linked into it, in list order, so a producer is linked when
    its id is in the list.  The raft state that `last_stable_offset` reads
    (leadership, the in-sync term, the last visible index, the bootstrap
    offset) is an input of each call.  Offsets are `int64_t` values kept
    as integers with `next_offset`'s own clamping. -/

namespace RmStm

open ProducerState (Requests incrementSequence)
open Compaction (RecordBatchType)

/-- `model::offset::max()`. -/
def offsetMax : Int := 2 ^ 63 - 1

/-- `model::next_offset`. -/
def nextOffset (o : Int) : Int :=
  if o < 0 then 0 else if o = offsetMax then offsetMax else o + 1

/-- `model::invalid_lso`: `next_offset(model::offset::min())`. -/
def invalidLso : Int := nextOffset (-2 ^ 63)

theorem nextOffset_le_of_lt {x y : Int} (hxy : x < y) (hy : 0 ≤ y) (hmax : y ≤ offsetMax) :
    nextOffset x ≤ y := by
  unfold nextOffset
  split
  · exact hy
  · split <;> omega

theorem invalidLso_eq_zero : invalidLso = 0 := by decide

/-- `model::no_producer_id`. -/
def noProducerId : Int := -1

/-- `model::producer_identity`. -/
structure ProducerIdentity where
  id : Int
  epoch : Int
deriving DecidableEq, Repr

/-- `model::control_record_type`. -/
inductive ControlRecordType where
  | txAbort
  | txCommit
  | unknown
deriving DecidableEq, Repr

/-- The header fields the apply paths read. -/
structure RecordBatchHeader where
  type : RecordBatchType
  baseOffset : Int
  lastOffsetDelta : Int
  producerId : Int
  producerEpoch : Int
  baseSequence : Int
  /-- `attrs.is_control()`. -/
  isControl : Bool
  /-- `attrs.is_transactional()`. -/
  isTransactional : Bool
  /-- `ctx.term`. -/
  term : Int
deriving DecidableEq, Repr

/-- `record_batch_header::last_offset()`. -/
def RecordBatchHeader.lastOffset (h : RecordBatchHeader) : Int := h.baseOffset + h.lastOffsetDelta

/-- A batch: its header and, for a control batch, the type that
    `parse_control_batch` reads from the key of its one record. -/
structure RecordBatch where
  header : RecordBatchHeader
  controlType : ControlRecordType
deriving DecidableEq, Repr

/-- `model::batch_identity`, the fields read here. -/
structure BatchIdentity where
  pid : ProducerIdentity
  firstSeq : Int
  lastSeq : Int
  isTransactional : Bool
deriving DecidableEq, Repr

namespace BatchIdentity

/-- `batch_identity::from(hdr)`. -/
def ofHeader (h : RecordBatchHeader) : BatchIdentity :=
  ⟨⟨h.producerId, h.producerEpoch⟩, h.baseSequence,
    incrementSequence h.baseSequence h.lastOffsetDelta, h.isTransactional⟩

/-- `batch_identity::is_idempotent()`. -/
def isIdempotent (b : BatchIdentity) : Bool := b.pid.id > noProducerId

end BatchIdentity

/-- `tx::partition_transaction_status`. -/
inductive PartitionTransactionStatus where
  | ongoing
  | initialized
  | committed
  | aborted
deriving DecidableEq, Repr

/-- `producer_partition_transaction_state`: the fields the stm reads. -/
structure TransactionState where
  first : Int
  last : Int
  status : PartitionTransactionStatus
deriving DecidableEq, Repr

/-- `producer_partition_transaction_state::is_in_progress()`. -/
def TransactionState.isInProgress (t : TransactionState) : Bool :=
  t.status = .ongoing || t.status = .initialized

/-- `model::tx_range`. -/
structure TxRange where
  pid : ProducerIdentity
  first : Int
  last : Int
deriving DecidableEq, Repr

/-! ## `producer_state` -/

/-- `producer_state`: its identity, its request cache and its transaction. -/
structure Producer where
  id : ProducerIdentity
  requests : Requests
  transactionState : Option TransactionState
deriving DecidableEq, Repr

namespace Producer

/-- A fresh `producer_state(pid)`. -/
def init (pid : ProducerIdentity) : Producer := ⟨pid, Requests.empty, none⟩

/-- `producer_state::has_transaction_in_progress()`. -/
def hasTransactionInProgress (p : Producer) : Bool :=
  match p.transactionState with
  | some t => t.isInProgress
  | none => false

/-- `producer_state::reset_with_new_epoch`. -/
def resetWithNewEpoch (p : Producer) (newEpoch : Int) : Producer :=
  { p with requests := p.requests.reset, id := ⟨p.id.id, newEpoch⟩ }

/-- `producer_state::apply_data`. -/
def applyData (p : Producer) (h : RecordBatchHeader) (offset : Int) : Producer :=
  let bid := BatchIdentity.ofHeader h
  if !bid.isIdempotent then p
  else
    let p := if !bid.isTransactional && bid.pid.epoch > p.id.epoch then
      p.resetWithNewEpoch bid.pid.epoch else p
    let p := { p with requests := p.requests.stmApply bid.firstSeq bid.lastSeq h.term offset }
    if bid.isTransactional then
      match p.transactionState with
      -- possible if the begin batch was truncated away
      | none => { p with transactionState := some ⟨h.baseOffset, h.lastOffset, .ongoing⟩ }
      | some t => { p with transactionState := some { t with last := h.lastOffset, status := .ongoing } }
    else p

/-- `producer_state::apply_transaction_begin`: a begin of an older epoch is
    ignored; otherwise the producer takes the batch's identity and a new
    transaction starts at the batch. -/
def applyTransactionBegin (p : Producer) (h : RecordBatchHeader) (pid : ProducerIdentity) :
    Producer :=
  if pid.epoch < p.id.epoch then p
  else { p with id := pid, transactionState := some ⟨h.baseOffset, h.lastOffset, .initialized⟩ }

/-- `producer_state::apply_transaction_end`: the range of the transaction
    that a commit or abort ends. -/
def applyTransactionEnd (p : Producer) (crt : ControlRecordType) : Option TxRange × Producer :=
  if crt ≠ .txAbort ∧ crt ≠ .txCommit then (none, p)
  else
    match p.transactionState with
    | none => (none, p)
    | some t =>
        let status := if crt = .txCommit then PartitionTransactionStatus.committed else .aborted
        (some ⟨p.id, t.first, t.last⟩, { p with transactionState := some { t with status := status } })

/-- `producer_state::gc_requests_from_older_terms`. -/
def gcRequestsFromOlderTerms (p : Producer) (currentTerm : Int) : Producer :=
  { p with requests := p.requests.gcRequestsFromOlderTerms currentTerm }

end Producer

/-! ## `rm_stm` -/

/-- The state of `rm_stm` that the apply paths and `last_stable_offset`
    read and write. -/
structure Stm where
  isTxEnabled : Bool
  producers : Int → Option Producer
  activeTxProducers : List Int
  aborted : List TxRange
  lastKnownLso : Int
  /-- `last_applied_offset()`. -/
  lastApplied : Int

/-- The raft state a call of `last_stable_offset` reads. -/
structure LsoInputs where
  bootstrapCommittedOffset : Option Int
  isLeader : Bool
  term : Int
  insyncTerm : Int
  lastVisibleIndex : Int
deriving DecidableEq, Repr

namespace Stm

/-- A stm that has applied nothing past `lastApplied`. -/
def init (isTxEnabled : Bool) (lastApplied : Int) : Stm :=
  ⟨isTxEnabled, fun _ => none, [], [], -1, lastApplied⟩

/-- Store a producer under an id. -/
def setProducer (s : Stm) (id : Int) (p : Producer) : Stm :=
  { s with producers := Function.update s.producers id (some p) }

/-- `maybe_create_producer`: the producer of the id, created if absent. -/
def maybeCreateProducer (s : Stm) (pid : ProducerIdentity) : Producer × Stm :=
  match s.producers pid.id with
  | some p => (p, s)
  | none => (Producer.init pid, s.setProducer pid.id (Producer.init pid))

/-- `rm_stm::from_log_offset`, through the partition's offset translator. -/
def fromLogOffset (translate : Int → Int) (logOffset : Int) : Int :=
  if logOffset > -1 then translate logOffset else logOffset

/-- `rm_stm::apply_fence`. -/
def applyFence (s : Stm) (pid : ProducerIdentity) (h : RecordBatchHeader) : Stm :=
  let r := s.maybeCreateProducer pid
  let s := r.2.setProducer pid.id (r.1.applyTransactionBegin h pid)
  { s with activeTxProducers := s.activeTxProducers ++ [pid.id] }

/-- `rm_stm::apply_control`. -/
def applyControl (s : Stm) (pid : ProducerIdentity) (crt : ControlRecordType) : Stm :=
  let r := s.maybeCreateProducer pid
  let e := r.1.applyTransactionEnd crt
  let s := r.2.setProducer pid.id e.2
  let s := match e.1 with
    | some range => if crt = .txAbort then { s with aborted := s.aborted ++ [range] } else s
    | none => s
  -- the producer may be unlinked if only the end batch of its transaction is left
  if pid.id ∈ s.activeTxProducers then
    { s with activeTxProducers := s.activeTxProducers.erase pid.id }
  else s

/-- `rm_stm::apply_data`. -/
def applyData (s : Stm) (translate : Int → Int) (bid : BatchIdentity) (h : RecordBatchHeader) :
    Stm :=
  if bid.isIdempotent then
    let lastKafkaOffset := fromLogOffset translate h.lastOffset
    let r := s.maybeCreateProducer bid.pid
    let s := r.2.setProducer bid.pid.id (r.1.applyData h lastKafkaOffset)
    -- the begin batch may have been prefix truncated
    if bid.isTransactional && bid.pid.id ∉ s.activeTxProducers then
      { s with activeTxProducers := s.activeTxProducers ++ [bid.pid.id] }
    else s
  else s

/-- `rm_stm::do_apply`. -/
def doApply (s : Stm) (translate : Int → Int) (b : RecordBatch) : Stm :=
  let h := b.header
  let bid := BatchIdentity.ofHeader h
  match h.type with
  | .txFence => s.applyFence bid.pid h
  | .txPrepare => s
  | .raftData => if h.isControl then s.applyControl bid.pid b.controlType else s.applyData translate bid h
  | _ => s

/-- The state machine applies one batch and moves its applied offset. -/
def apply (s : Stm) (translate : Int → Int) (b : RecordBatch) : Stm :=
  { s.doApply translate b with lastApplied := b.header.lastOffset }

/-- Whether a producer has a transaction in progress. -/
def hasTransactionInProgress (s : Stm) (id : Int) : Bool :=
  match s.producers id with
  | some p => p.hasTransactionInProgress
  | none => false

/-- The first offset of a producer's transaction, `offset::max()` when it
    has none. -/
def firstOf (s : Stm) (id : Int) : Int :=
  match s.producers id with
  | some ⟨_, _, some t⟩ => t.first
  | _ => offsetMax

/-- The start of the earliest open transaction: the first offset of the
    transaction of the head of `_active_tx_producers`. -/
def firstTxStart (s : Stm) : Int :=
  if s.isTxEnabled then
    match s.activeTxProducers with
    | id :: _ => s.firstOf id
    | [] => offsetMax
  else offsetMax

/-- The three branches of `last_stable_offset` past bootstrap: an open
    transaction below the last visible index bounds the offset by its start
    and by the next offset to apply; otherwise a synced leader answers the
    offset after the last visible one, and anyone else the next offset to
    apply. -/
def lsoCandidate (s : Stm) (env : LsoInputs) : Int :=
  let syncedLeader := env.isLeader && env.term = env.insyncTerm
  let nextToApply := nextOffset s.lastApplied
  if s.firstTxStart ≤ env.lastVisibleIndex then min s.firstTxStart nextToApply
  else if syncedLeader then nextOffset env.lastVisibleIndex
  else nextToApply

/-- `rm_stm::last_stable_offset`: the value returned and the state with
    `_last_known_lso` raised to it. -/
def lastStableOffset (s : Stm) (env : LsoInputs) : Int × Stm :=
  match env.bootstrapCommittedOffset with
  | none => (invalidLso, s)
  | some bootstrap =>
      if s.lastApplied < bootstrap then (invalidLso, s)
      else
        let known := max s.lastKnownLso (s.lsoCandidate env)
        (known, { s with lastKnownLso := known })

/-- `rm_stm::sync` once the base `sync` is ready: when it moved the in-sync
    term from `currentInsyncTerm` to `insyncTerm`, the stm forgets
    `_last_known_lso` and every producer drops its in-flight requests of
    older terms.  A `sync` that is not ready is one that keeps the term. -/
def sync (s : Stm) (currentInsyncTerm insyncTerm : Int) : Stm :=
  if currentInsyncTerm ≠ insyncTerm then
    { s with
      lastKnownLso := -1
      producers := fun id => (s.producers id).map fun p => p.gcRequestsFromOlderTerms insyncTerm }
  else s

/-- The producer that `maybe_create_producer` hands out. -/
def producerOf (s : Stm) (pid : ProducerIdentity) : Producer :=
  (s.producers pid.id).getD (Producer.init pid)

end Stm

/-- How `do_apply` dispatches a batch. -/
inductive BatchKind where
  | fence
  | marker (crt : ControlRecordType)
  | txData
  | nonTxData
  | ignored
deriving DecidableEq, Repr

/-- The path `do_apply` takes for a batch. -/
def RecordBatch.kind (b : RecordBatch) : BatchKind :=
  match b.header.type with
  | .txFence => .fence
  | .raftData =>
      if b.header.isControl then .marker b.controlType
      else if (BatchIdentity.ofHeader b.header).isIdempotent then
        if b.header.isTransactional then .txData else .nonTxData
      else .ignored
  | _ => .ignored

/-- The identity of a batch's producer. -/
def RecordBatch.pid (b : RecordBatch) : ProducerIdentity :=
  ⟨b.header.producerId, b.header.producerEpoch⟩

/-! ## What the producer operations do -/

namespace Producer

variable {p : Producer} {h : RecordBatchHeader}

/-- A begin of the producer's epoch or a newer one starts a transaction at
    the batch. -/
theorem applyTransactionBegin_of_le {pid : ProducerIdentity} (hle : p.id.epoch ≤ pid.epoch) :
    p.applyTransactionBegin h pid =
      { p with id := pid, transactionState := some ⟨h.baseOffset, h.lastOffset, .initialized⟩ } := by
  unfold applyTransactionBegin
  rw [if_neg (by omega)]

/-- A transactional batch of an idempotent producer keeps its identity and
    goes on with its transaction, or starts one at the batch. -/
theorem applyData_of_transactional (o : Int) (hidem : (BatchIdentity.ofHeader h).isIdempotent)
    (htx : h.isTransactional = true) :
    (p.applyData h o).id = p.id ∧ (p.applyData h o).transactionState =
      some (match p.transactionState with
        | none => ⟨h.baseOffset, h.lastOffset, .ongoing⟩
        | some t => { t with last := h.lastOffset, status := .ongoing }) := by
  have htx' : (BatchIdentity.ofHeader h).isTransactional = true := htx
  unfold applyData
  dsimp only
  rw [if_neg (by simp [hidem]), if_pos htx']
  -- no epoch reset for a transactional batch
  rw [if_neg (by simp [htx'])]
  cases p.transactionState <;> exact ⟨rfl, rfl⟩

/-- A non-transactional batch leaves the transaction alone. -/
theorem transactionState_applyData_of_not_transactional (o : Int)
    (htx : h.isTransactional = false) :
    (p.applyData h o).transactionState = p.transactionState := by
  have htx' : (BatchIdentity.ofHeader h).isTransactional = false := htx
  unfold applyData
  dsimp only
  split
  · rfl
  · rw [if_neg (by simp [htx'])]
    split <;> rfl

theorem applyTransactionEnd_of_none (crt : ControlRecordType) (hnone : p.transactionState = none) :
    p.applyTransactionEnd crt = (none, p) := by
  unfold applyTransactionEnd
  split
  · rfl
  · rw [hnone]

/-- A commit or an abort ends the transaction and returns its range. -/
theorem applyTransactionEnd_of_some {crt : ControlRecordType} {t : TransactionState}
    (hcrt : crt ≠ .unknown) (hsome : p.transactionState = some t) :
    p.applyTransactionEnd crt = (some ⟨p.id, t.first, t.last⟩,
      { p with transactionState := some { t with
          status := if crt = .txCommit then .committed else .aborted } }) := by
  have hend : ¬(crt ≠ .txAbort ∧ crt ≠ .txCommit) := by
    cases crt <;> simp_all
  unfold applyTransactionEnd
  rw [if_neg hend, hsome]

end Producer

/-! ## What each apply path does -/

namespace Stm

variable {s : Stm}

@[simp] theorem producers_setProducer (id : Int) (p : Producer) :
    (s.setProducer id p).producers = Function.update s.producers id (some p) := rfl

@[simp] theorem activeTxProducers_setProducer (id : Int) (p : Producer) :
    (s.setProducer id p).activeTxProducers = s.activeTxProducers := rfl

@[simp] theorem aborted_setProducer (id : Int) (p : Producer) :
    (s.setProducer id p).aborted = s.aborted := rfl

@[simp] theorem lastKnownLso_setProducer (id : Int) (p : Producer) :
    (s.setProducer id p).lastKnownLso = s.lastKnownLso := rfl

@[simp] theorem isTxEnabled_setProducer (id : Int) (p : Producer) :
    (s.setProducer id p).isTxEnabled = s.isTxEnabled := rfl

theorem maybeCreateProducer_fst (pid : ProducerIdentity) :
    (s.maybeCreateProducer pid).1 = s.producerOf pid := by
  unfold maybeCreateProducer producerOf
  split <;> simp_all

/-- Storing the producer back overwrites whatever `maybe_create_producer`
    inserted. -/
theorem setProducer_maybeCreateProducer (pid : ProducerIdentity) (p : Producer) :
    (s.maybeCreateProducer pid).2.setProducer pid.id p = s.setProducer pid.id p := by
  unfold maybeCreateProducer
  split
  · rfl
  · simp [setProducer, Function.update_idem]

theorem applyFence_eq (pid : ProducerIdentity) (h : RecordBatchHeader) :
    s.applyFence pid h =
      { s.setProducer pid.id ((s.producerOf pid).applyTransactionBegin h pid) with
        activeTxProducers := s.activeTxProducers ++ [pid.id] } := by
  unfold applyFence
  dsimp only
  rw [maybeCreateProducer_fst, setProducer_maybeCreateProducer]
  rfl

/-- `apply_control`: the end of the transaction is recorded, an abort's
    range joins the aborted list, and the producer leaves the list. -/
theorem applyControl_eq (pid : ProducerIdentity) (crt : ControlRecordType) :
    s.applyControl pid crt =
      { s.setProducer pid.id ((s.producerOf pid).applyTransactionEnd crt).2 with
        aborted := s.aborted ++
          (if crt = .txAbort then ((s.producerOf pid).applyTransactionEnd crt).1.toList else [])
        activeTxProducers := s.activeTxProducers.erase pid.id } := by
  unfold applyControl
  dsimp only
  rw [maybeCreateProducer_fst, setProducer_maybeCreateProducer]
  -- the range returned, and whether the producer is linked
  cases hrange : ((s.producerOf pid).applyTransactionEnd crt).1 with
  | none =>
      by_cases hmem : pid.id ∈ s.activeTxProducers
      · simp [hmem]
      · simp [hmem, List.erase_of_not_mem hmem]
        rfl
  | some range =>
      by_cases hmem : pid.id ∈ s.activeTxProducers
      · by_cases hcrt : crt = .txAbort <;> simp [hcrt, hmem]
      · by_cases hcrt : crt = .txAbort
        · simp [hcrt, hmem, List.erase_of_not_mem hmem]
        · simp [hcrt, hmem, List.erase_of_not_mem hmem]
          rfl

theorem applyData_eq {translate : Int → Int} {bid : BatchIdentity} (h : RecordBatchHeader)
    (hidem : bid.isIdempotent) :
    s.applyData translate bid h =
      { s.setProducer bid.pid.id
          ((s.producerOf bid.pid).applyData h (fromLogOffset translate h.lastOffset)) with
        activeTxProducers :=
          if bid.isTransactional ∧ bid.pid.id ∉ s.activeTxProducers then
            s.activeTxProducers ++ [bid.pid.id]
          else s.activeTxProducers } := by
  unfold applyData
  rw [if_pos hidem]
  dsimp only
  rw [maybeCreateProducer_fst, setProducer_maybeCreateProducer]
  split
  · rename_i hpush
    have hc : bid.isTransactional = true ∧ bid.pid.id ∉ s.activeTxProducers := by
      simp only [Bool.and_eq_true, decide_eq_true_eq] at hpush
      exact hpush
    rw [if_pos hc]
    rfl
  · rename_i hpush
    have hc : ¬(bid.isTransactional = true ∧ bid.pid.id ∉ s.activeTxProducers) := by
      simp only [Bool.and_eq_true, decide_eq_true_eq] at hpush
      exact hpush
    rw [if_neg hc]
    rfl

variable (translate : Int → Int) {b : RecordBatch}

/-- `do_apply` by the path it takes. -/
theorem doApply_eq (b : RecordBatch) :
    s.doApply translate b =
      match b.kind with
      | .fence => s.applyFence b.pid b.header
      | .marker crt => s.applyControl b.pid crt
      | .txData | .nonTxData => s.applyData translate (BatchIdentity.ofHeader b.header) b.header
      | .ignored => s := by
  unfold doApply RecordBatch.kind
  dsimp only
  cases hty : b.header.type
  case raftData =>
    dsimp only
    by_cases hctl : b.header.isControl = true
    · rw [if_pos hctl, if_pos hctl]
      rfl
    · rw [if_neg hctl, if_neg hctl]
      by_cases hidem : (BatchIdentity.ofHeader b.header).isIdempotent = true
      · rw [if_pos hidem]
        by_cases htx : b.header.isTransactional = true
        · rw [if_pos htx]
        · rw [if_neg htx]
      · -- a batch without a producer changes nothing
        rw [if_neg hidem]
        unfold applyData
        rw [if_neg hidem]
  all_goals rfl

theorem doApply_of_fence (hk : b.kind = .fence) :
    s.doApply translate b = s.applyFence b.pid b.header := by
  rw [doApply_eq, hk]

theorem doApply_of_marker {crt : ControlRecordType} (hk : b.kind = .marker crt) :
    s.doApply translate b = s.applyControl b.pid crt := by
  rw [doApply_eq, hk]

theorem doApply_of_data (hk : b.kind = .txData ∨ b.kind = .nonTxData) :
    s.doApply translate b = s.applyData translate (BatchIdentity.ofHeader b.header) b.header := by
  rcases hk with hk | hk <;> rw [doApply_eq, hk]

theorem doApply_of_ignored (hk : b.kind = .ignored) : s.doApply translate b = s := by
  rw [doApply_eq, hk]

theorem kind_txData (hk : b.kind = .txData) :
    (BatchIdentity.ofHeader b.header).isIdempotent ∧ b.header.isTransactional = true := by
  unfold RecordBatch.kind at hk
  split at hk
  · cases hk
  · split at hk
    · cases hk
    · split at hk
      · rename_i hidem
        split at hk
        · exact ⟨hidem, by assumption⟩
        · cases hk
      · cases hk
  · cases hk

theorem kind_nonTxData (hk : b.kind = .nonTxData) :
    (BatchIdentity.ofHeader b.header).isIdempotent ∧ b.header.isTransactional = false := by
  unfold RecordBatch.kind at hk
  split at hk
  · cases hk
  · split at hk
    · cases hk
    · split at hk
      · rename_i hidem
        split at hk
        · cases hk
        · exact ⟨hidem, by simpa using (by assumption : ¬b.header.isTransactional = true)⟩
      · cases hk
  · cases hk

/-- A fence: the producer begins a transaction and is linked at the back. -/
theorem apply_of_fence (hk : b.kind = .fence) :
    (s.apply translate b).producers = Function.update s.producers b.header.producerId
        (some ((s.producerOf b.pid).applyTransactionBegin b.header b.pid)) ∧
      (s.apply translate b).activeTxProducers = s.activeTxProducers ++ [b.header.producerId] ∧
      (s.apply translate b).aborted = s.aborted := by
  unfold apply
  rw [doApply_of_fence translate hk, applyFence_eq]
  exact ⟨rfl, rfl, rfl⟩

/-- An end marker: the transaction ends, an abort's range joins the aborted
    list, and the producer is unlinked. -/
theorem apply_of_marker {crt : ControlRecordType} (hk : b.kind = .marker crt) :
    (s.apply translate b).producers = Function.update s.producers b.header.producerId
        (some ((s.producerOf b.pid).applyTransactionEnd crt).2) ∧
      (s.apply translate b).activeTxProducers = s.activeTxProducers.erase b.header.producerId ∧
      (s.apply translate b).aborted = s.aborted ++
        (if crt = .txAbort then ((s.producerOf b.pid).applyTransactionEnd crt).1.toList else []) := by
  unfold apply
  rw [doApply_of_marker translate hk, applyControl_eq]
  exact ⟨rfl, rfl, rfl⟩

/-- Data of an idempotent producer: its state moves on, and a transactional
    batch links it when it is not linked yet. -/
theorem apply_of_data (hk : b.kind = .txData ∨ b.kind = .nonTxData) :
    (s.apply translate b).producers = Function.update s.producers b.header.producerId
        (some ((s.producerOf b.pid).applyData b.header
          (fromLogOffset translate b.header.lastOffset))) ∧
      (s.apply translate b).activeTxProducers =
        (if b.header.isTransactional = true ∧ b.header.producerId ∉ s.activeTxProducers then
          s.activeTxProducers ++ [b.header.producerId] else s.activeTxProducers) ∧
      (s.apply translate b).aborted = s.aborted := by
  have hidem : (BatchIdentity.ofHeader b.header).isIdempotent := by
    rcases hk with hk | hk
    · exact (kind_txData hk).1
    · exact (kind_nonTxData hk).1
  unfold apply
  rw [doApply_of_data translate hk, applyData_eq _ hidem]
  exact ⟨rfl, rfl, rfl⟩

theorem apply_of_ignored (hk : b.kind = .ignored) :
    (s.apply translate b).producers = s.producers ∧
      (s.apply translate b).activeTxProducers = s.activeTxProducers ∧
      (s.apply translate b).aborted = s.aborted := by
  unfold apply
  rw [doApply_of_ignored translate hk]
  exact ⟨rfl, rfl, rfl⟩

theorem applyData_frame (bid : BatchIdentity) (h : RecordBatchHeader) :
    (s.applyData translate bid h).isTxEnabled = s.isTxEnabled ∧
      (s.applyData translate bid h).lastKnownLso = s.lastKnownLso := by
  by_cases hidem : bid.isIdempotent = true
  · rw [applyData_eq h hidem]
    exact ⟨rfl, rfl⟩
  · unfold applyData
    rw [if_neg hidem]
    exact ⟨rfl, rfl⟩

/-- Applying a batch never touches the configuration or `_last_known_lso`. -/
theorem apply_frame (b : RecordBatch) :
    (s.apply translate b).isTxEnabled = s.isTxEnabled ∧
      (s.apply translate b).lastKnownLso = s.lastKnownLso := by
  show (s.doApply translate b).isTxEnabled = _ ∧ (s.doApply translate b).lastKnownLso = _
  rw [doApply_eq]
  split
  · rw [applyFence_eq]
    exact ⟨rfl, rfl⟩
  · rw [applyControl_eq]
    exact ⟨rfl, rfl⟩
  · exact applyData_frame translate _ _
  · exact applyData_frame translate _ _
  · exact ⟨rfl, rfl⟩

/-- A `sync` that keeps the in-sync term changes nothing. -/
theorem sync_of_eq (t : Int) : s.sync t t = s := if_neg (not_not.mpr rfl)

/-- `sync` leaves alone everything but the request caches and
    `_last_known_lso`. -/
theorem sync_frame (c t : Int) :
    (s.sync c t).isTxEnabled = s.isTxEnabled ∧
      (s.sync c t).activeTxProducers = s.activeTxProducers ∧
      (s.sync c t).lastApplied = s.lastApplied ∧
      (s.sync c t).firstOf = s.firstOf ∧
      ((s.sync c t).lastKnownLso = -1 ∨ (s.sync c t).lastKnownLso = s.lastKnownLso) := by
  unfold sync
  split
  · refine ⟨rfl, rfl, rfl, funext fun id => ?_, .inl rfl⟩
    -- the transaction of every producer is kept
    simp only [firstOf]
    cases s.producers id with
    | none => rfl
    | some p => obtain ⟨_, _, _ | _⟩ := p <;> rfl
  · exact ⟨rfl, rfl, rfl, rfl, .inr rfl⟩

/-- `last_stable_offset` either answers `invalid_lso` during bootstrap
    and changes nothing, or raises `_last_known_lso` to the offset its
    three branches compute and returns it. -/
theorem lastStableOffset_cases (env : LsoInputs) :
    ((s.lastStableOffset env).1 = invalidLso ∧ (s.lastStableOffset env).2 = s) ∨
      ((s.lastStableOffset env).1 = max s.lastKnownLso (s.lsoCandidate env) ∧
        (s.lastStableOffset env).2 = { s with lastKnownLso := max s.lastKnownLso (s.lsoCandidate env) }) := by
  unfold lastStableOffset
  split
  · exact .inl ⟨rfl, rfl⟩
  · split
    · exact .inl ⟨rfl, rfl⟩
    · exact .inr ⟨rfl, rfl⟩

end Stm

end RmStm
