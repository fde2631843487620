import Redpanda.Cluster.RmStm

/-! # The last stable offset over whole runs of `rm_stm`

    What a well-formed transactional log says about each producer id is a
    small automaton (`TxPhase`): a producer writes idempotent batches
    outside transactions, or a sequence of transactions, each a `tx_fence`,
    transactional data and one commit or abort, of non-decreasing epochs.
    A suffix of such a log may start inside a transaction, so a producer
    whose first batch is data or an end marker is accepted too.  `LogState`
    runs the automaton of every producer over a log, with the offsets.

    The stm represents the log state (`Represents`): a producer is linked
    into `_active_tx_producers` exactly when the log has a transaction of it
    open, and its transaction state holds that transaction's first and
    last offsets.  Each batch the stm applies keeps the representation
    (`represents_apply`).  The list stays sorted by first offset, since a
    producer joins it at the batch being applied.

    `last_stable_offset` keeps the maximum of what it returned, so a value
    it returns bounds every later one from below until `sync` finds a new
    in-sync term and forgets it (`outputs_pairwise`); `sync` keeps the
    rest of the invariant (`inv_sync`).  The
    bound by open transactions needs what the code's synced-leader branch
    assumes: that no batch at or below the last visible index that opens a
    transaction is still to be applied (`Admits`).  Under it the returned
    value never passes the first offset of an open transaction
    (`lso_bounded_by_open_transactions`); without it a leader whose stm
    lags behind a committed `tx_fence` returns an offset above that fence
    and keeps returning it after the fence is applied
    (`lso_passes_fence_applied_after_leader_call`). -/

namespace RmStm

/-! ## Transactions as the log tells them -/

/-- What a log says about one producer id so far. -/
inductive TxPhase where
  /-- No batch of the producer yet. -/
  | fresh
  /-- Idempotent batches outside transactions only. -/
  | nonTransactional
  /-- Every transaction the log shows of it has ended. -/
  | idle (epoch : Int)
  /-- A transaction is open, from `first` to `last` so far. -/
  | open (epoch first last : Int)
deriving DecidableEq, Repr

namespace TxPhase

def isOpen : TxPhase → Bool
  | .open .. => true
  | _ => false

/-- The range of the open transaction of producer `q`. -/
def range (q : Int) : TxPhase → Option TxRange
  | .open e f l => some ⟨⟨q, e⟩, f, l⟩
  | _ => none

/-- The next batch of the producer, of epoch `e` over `[base, last]`;
    `none` where a well-formed log cannot go on. -/
def step (e base last : Int) : TxPhase → BatchKind → Option TxPhase
  | .fresh, .fence => some (.open e base last)
  | .idle e', .fence => if e' ≤ e then some (.open e base last) else none
  | .fresh, .txData => some (.open e base last)
  | .open e' first _, .txData => if e' = e then some (.open e first last) else none
  | .fresh, .marker crt => if crt = .unknown then none else some (.idle e)
  | .open e' _ _, .marker crt => if crt ≠ .unknown ∧ e' = e then some (.idle e) else none
  | .fresh, .nonTxData => some .nonTransactional
  | .nonTransactional, .nonTxData => some .nonTransactional
  | ph, .ignored => some ph
  | _, _ => none

end TxPhase

/-- The phase of every producer id and the last offset of the log so far. -/
structure LogState where
  phases : Int → TxPhase
  lastOffset : Int

namespace LogState

def init (lastOffset : Int) : LogState := ⟨fun _ => .fresh, lastOffset⟩

/-- The log goes on with a batch: offsets grow, and the batch's producer
    moves on in its automaton. -/
def step (σ : LogState) (b : RecordBatch) : Option LogState :=
  let h := b.header
  if σ.lastOffset < h.baseOffset ∧ 0 ≤ h.baseOffset ∧ 0 ≤ h.lastOffsetDelta ∧
      h.lastOffset < offsetMax then
    ((σ.phases h.producerId).step h.producerEpoch h.baseOffset h.lastOffset b.kind).map
      fun ph => ⟨Function.update σ.phases h.producerId ph, h.lastOffset⟩
  else none

def run : LogState → List RecordBatch → Option LogState
  | σ, [] => some σ
  | σ, b :: bs => (σ.step b).bind fun σ' => σ'.run bs

/-- The open transaction of a producer, as a range. -/
def openRange (σ : LogState) (q : Int) : Option TxRange := (σ.phases q).range q

end LogState

/-- A log that goes on well formed from a log state. -/
def WellFormedFrom (σ : LogState) (bs : List RecordBatch) : Prop := (σ.run bs).isSome

instance (σ : LogState) (bs : List RecordBatch) : Decidable (WellFormedFrom σ bs) :=
  inferInstanceAs (Decidable ((σ.run bs).isSome = true))

/-- The open transaction of a producer after the batches applied so far. -/
def openTransaction (lastApplied : Int) (q : Int) (applied : List RecordBatch) : Option TxRange :=
  ((LogState.init lastApplied).run applied).bind fun σ => σ.openRange q

/-! ## The stm represents the log -/

/-- The stm's producer of an id agrees with the id's phase. -/
def ProducerMatches (q : Int) : TxPhase → Option Producer → Prop
  | .fresh, po => po = none
  | .nonTransactional, po => ∃ p, po = some p ∧ p.transactionState = none
  | .idle e, po => ∃ p, po = some p ∧ p.id = ⟨q, e⟩ ∧ p.hasTransactionInProgress = false
  | .open e f l, po => ∃ p st, po = some p ∧ p.id = ⟨q, e⟩ ∧
      p.transactionState = some ⟨f, l, st⟩ ∧ (st = .ongoing ∨ st = .initialized)

/-- The stm holds what the log says of every producer. -/
structure Represents (σ : LogState) (s : Stm) : Prop where
  lastApplied_eq : s.lastApplied = σ.lastOffset
  producers : ∀ q, ProducerMatches q (σ.phases q) (s.producers q)
  linked_iff : ∀ q, q ∈ s.activeTxProducers ↔ (σ.phases q).isOpen
  nodup : s.activeTxProducers.Nodup

/-! ## The log automaton -/

namespace TxPhase

variable {ph ph' : TxPhase} {e base last : Int}

/-- Everything a step of the automaton can do, by the kind of the batch: a
    fence opens a transaction, from nothing or after ended ones of an epoch
    not above its own; data opens one or goes on with the open one of its
    epoch; an end marker other than `unknown` ends the open one of its
    epoch, or is the producer's first batch; data outside transactions
    comes only outside them; an ignored batch changes nothing. -/
theorem step_cases {k : BatchKind} (h : ph.step e base last k = some ph') :
    (k = .fence ∧ (ph = .fresh ∨ ∃ e', ph = .idle e' ∧ e' ≤ e) ∧ ph' = .open e base last) ∨
    (k = .txData ∧ (ph = .fresh ∧ ph' = .open e base last ∨
      ∃ f l, ph = .open e f l ∧ ph' = .open e f last)) ∨
    (∃ crt, k = .marker crt ∧ crt ≠ .unknown ∧ (ph = .fresh ∨ ∃ f l, ph = .open e f l) ∧
      ph' = .idle e) ∨
    (k = .nonTxData ∧ (ph = .fresh ∨ ph = .nonTransactional) ∧ ph' = .nonTransactional) ∨
    (k = .ignored ∧ ph' = ph) := by
  -- the one place that unfolds the automaton
  cases ph <;> cases k <;> simp only [step, Option.some.injEq, reduceCtorEq] at h
  all_goals first
    | (split at h <;> simp_all)
    | simp_all

theorem step_fence (h : ph.step e base last .fence = some ph') :
    (ph = .fresh ∨ ∃ e', ph = .idle e' ∧ e' ≤ e) ∧ ph' = .open e base last := by
  rcases step_cases h with ⟨-, hph, rfl⟩ | ⟨hk, -⟩ | ⟨crt, hk, -⟩ | ⟨hk, -⟩ | ⟨hk, -⟩
  · exact ⟨hph, rfl⟩
  all_goals cases hk

theorem step_txData (h : ph.step e base last .txData = some ph') :
    ph = .fresh ∧ ph' = .open e base last ∨ ∃ f l, ph = .open e f l ∧ ph' = .open e f last := by
  rcases step_cases h with ⟨hk, -⟩ | ⟨-, hph⟩ | ⟨crt, hk, -⟩ | ⟨hk, -⟩ | ⟨hk, -⟩
  · cases hk
  · exact hph
  all_goals cases hk

theorem step_marker {crt : ControlRecordType} (h : ph.step e base last (.marker crt) = some ph') :
    crt ≠ .unknown ∧ (ph = .fresh ∨ ∃ f l, ph = .open e f l) ∧ ph' = .idle e := by
  rcases step_cases h with ⟨hk, -⟩ | ⟨hk, -⟩ | ⟨crt', hk, hcrt, hph, rfl⟩ | ⟨hk, -⟩ | ⟨hk, -⟩
  · cases hk
  · cases hk
  · cases hk
    exact ⟨hcrt, hph, rfl⟩
  all_goals cases hk

theorem step_nonTxData (h : ph.step e base last .nonTxData = some ph') :
    (ph = .fresh ∨ ph = .nonTransactional) ∧ ph' = .nonTransactional := by
  rcases step_cases h with ⟨hk, -⟩ | ⟨hk, -⟩ | ⟨crt, hk, -⟩ | ⟨-, hph⟩ | ⟨hk, -⟩
  · cases hk
  · cases hk
  · cases hk
  · exact hph
  · cases hk

theorem step_ignored (h : ph.step e base last .ignored = some ph') : ph' = ph := by
  rcases step_cases h with ⟨hk, -⟩ | ⟨hk, -⟩ | ⟨crt, hk, -⟩ | ⟨hk, -⟩ | ⟨-, hph⟩
  · cases hk
  · cases hk
  · cases hk
  · cases hk
  · exact hph

/-- A transaction that is open after a step started at the batch, by a
    fence or by data, or was open before with the same first offset. -/
theorem step_eq_open {ph : TxPhase} {k : BatchKind} {e base last e' f l : Int}
    (h : ph.step e base last k = some (.open e' f l)) :
    (f = base ∧ l = last ∧ (k = .fence ∨ k = .txData)) ∨ ∃ e₀ l₀, ph = .open e₀ f l₀ := by
  rcases step_cases h with ⟨rfl, -, hph'⟩ | ⟨rfl, ⟨-, hph'⟩ | ⟨f₀, l₀, rfl, hph'⟩⟩ |
      ⟨crt, -, -, -, hph'⟩ | ⟨-, -, hph'⟩ | ⟨-, hph'⟩
  · -- a fence opens a transaction at the batch
    obtain ⟨-, rfl, rfl⟩ := TxPhase.open.inj hph'
    exact .inl ⟨rfl, rfl, .inl rfl⟩
  · -- so does the producer's first data
    obtain ⟨-, rfl, rfl⟩ := TxPhase.open.inj hph'
    exact .inl ⟨rfl, rfl, .inr rfl⟩
  · -- data goes on with the open transaction
    obtain ⟨-, rfl, -⟩ := TxPhase.open.inj hph'
    exact .inr ⟨e, l₀, rfl⟩
  · cases hph'
  · cases hph'
  · -- an ignored batch leaves the transaction as it was
    exact .inr ⟨e', l, hph'.symm⟩

theorem isOpen_step_fence (h : ph.step e base last .fence = some ph') :
    ph.isOpen = false ∧ ph'.isOpen = true := by
  obtain ⟨hph, rfl⟩ := step_fence h
  rcases hph with rfl | ⟨e', rfl, -⟩ <;> exact ⟨rfl, rfl⟩

theorem isOpen_step_marker {crt : ControlRecordType} (h : ph.step e base last (.marker crt) = some ph') :
    ph'.isOpen = false := by
  obtain ⟨-, -, rfl⟩ := step_marker h
  rfl

theorem isOpen_step_txData (h : ph.step e base last .txData = some ph') : ph'.isOpen = true := by
  rcases step_txData h with ⟨-, rfl⟩ | ⟨f, l, -, rfl⟩ <;> rfl

theorem isOpen_step_nonTxData (h : ph.step e base last .nonTxData = some ph') :
    ph.isOpen = false ∧ ph'.isOpen = false := by
  obtain ⟨hph, rfl⟩ := step_nonTxData h
  rcases hph with rfl | rfl <;> exact ⟨rfl, rfl⟩

theorem isOpen_iff : ph.isOpen = true ↔ ∃ e f l, ph = .open e f l := by
  cases ph <;> simp [isOpen]

/-- A step keeps the first offset of an open transaction. -/
theorem first_step_of_open {k : BatchKind} {e₀ f₀ l₀ e' f l : Int}
    (h : (TxPhase.open e₀ f₀ l₀).step e base last k = some (.open e' f l)) : f = f₀ := by
  rcases step_eq_open h with ⟨-, -, hk⟩ | ⟨e₁, l₁, hph⟩
  · -- a fence or data from an open transaction does not open another
    rcases hk with rfl | rfl
    · obtain ⟨hph, -⟩ := step_fence h
      rcases hph with hph | ⟨_, hph, -⟩ <;> cases hph
    · rcases step_txData h with ⟨hph, -⟩ | ⟨f₁, l₁, hph, hph'⟩
      · cases hph
      · obtain ⟨-, rfl, -⟩ := TxPhase.open.inj hph
        obtain ⟨-, rfl, -⟩ := TxPhase.open.inj hph'
        rfl
  · obtain ⟨-, rfl, -⟩ := TxPhase.open.inj hph
    rfl

/-- A transaction that a step opens starts at the batch. -/
theorem first_step_of_not_open {k : BatchKind} {e' f l : Int} (hph : ph.isOpen = false)
    (h : ph.step e base last k = some (.open e' f l)) : f = base := by
  rcases step_eq_open h with ⟨hf, -, -⟩ | ⟨e₀, l₀, rfl⟩
  · exact hf
  · cases hph

end TxPhase

namespace LogState

variable {σ σ' : LogState} {b : RecordBatch}

/-- Everything a step of the log checks, and what it changes. -/
theorem step_some (h : σ.step b = some σ') :
    σ.lastOffset < b.header.baseOffset ∧ 0 ≤ b.header.baseOffset ∧
      b.header.baseOffset ≤ b.header.lastOffset ∧ b.header.lastOffset < offsetMax ∧
      ∃ ph, (σ.phases b.header.producerId).step b.header.producerEpoch b.header.baseOffset
          b.header.lastOffset b.kind = some ph ∧
        σ' = ⟨Function.update σ.phases b.header.producerId ph, b.header.lastOffset⟩ := by
  unfold step at h
  dsimp only at h
  split at h
  · rename_i hchk
    obtain ⟨ph, hph, rfl⟩ := Option.map_eq_some_iff.mp h
    refine ⟨hchk.1, hchk.2.1, ?_, hchk.2.2.2, ph, hph, rfl⟩
    have := hchk.2.2.1
    unfold RecordBatchHeader.lastOffset
    omega
  · cases h

theorem run_append (σ : LogState) (xs ys : List RecordBatch) :
    σ.run (xs ++ ys) = (σ.run xs).bind fun σ' => σ'.run ys := by
  induction xs generalizing σ with
  | nil => rfl
  | cons x xs ih =>
      show (σ.step x).bind (fun σ' => σ'.run (xs ++ ys)) = ((σ.step x).bind fun σ' => σ'.run xs).bind _
      cases σ.step x with
      | none => rfl
      | some σ'' => exact ih σ''

end LogState

/-- A transaction open after a step was opened by the batch, or was open
    before with the same first offset. -/
theorem LogState.open_after_step {σ σ' : LogState} {b : RecordBatch} (hstep : σ.step b = some σ')
    {x e f l : Int} (h : σ'.phases x = .open e f l) :
    (x = b.header.producerId ∧ f = b.header.baseOffset ∧ (b.kind = .fence ∨ b.kind = .txData)) ∨
      ∃ e₀ l₀, σ.phases x = .open e₀ f l₀ := by
  obtain ⟨-, -, -, -, ph', hph, rfl⟩ := LogState.step_some hstep
  by_cases hx : x = b.header.producerId
  · subst hx
    simp only [Function.update_self] at h
    rw [h] at hph
    rcases TxPhase.step_eq_open hph with ⟨hf, -, hk⟩ | hold
    · exact .inl ⟨rfl, hf, hk⟩
    · exact .inr hold
  · simp only [Function.update_of_ne hx] at h
    exact .inr ⟨e, l, h⟩

theorem wellFormedFrom_cons {σ : LogState} {b : RecordBatch} {bs : List RecordBatch} :
    WellFormedFrom σ (b :: bs) ↔ ∃ σ', σ.step b = some σ' ∧ WellFormedFrom σ' bs := by
  unfold WellFormedFrom
  show ((σ.step b).bind fun σ' => σ'.run bs).isSome ↔ _
  cases σ.step b with
  | none => simp
  | some σ' => simp

/-- Every batch still to come lies past the log's last offset and below
    `offset::max()`. -/
theorem bounds_of_wellFormedFrom {σ : LogState} {bs : List RecordBatch} (hwf : WellFormedFrom σ bs) :
    ∀ b ∈ bs, σ.lastOffset < b.header.baseOffset ∧ 0 ≤ b.header.baseOffset ∧
      b.header.baseOffset < offsetMax := by
  induction bs generalizing σ with
  | nil => intro b hb; cases hb
  | cons b' bs ih =>
      obtain ⟨σ', hstep, hrest⟩ := wellFormedFrom_cons.mp hwf
      obtain ⟨hlt, hpos, hle, hmax, ph, -, rfl⟩ := LogState.step_some hstep
      intro b hb
      rcases List.mem_cons.mp hb with rfl | hb
      · exact ⟨hlt, hpos, by omega⟩
      · have := ih hrest b hb
        dsimp only at this
        exact ⟨by omega, this.2⟩

/-! ## What the representation says -/

namespace Represents

variable {σ : LogState} {s : Stm}

/-- **LINKED IFF IN PROGRESS**, read off the log: a producer has a
    transaction in progress exactly when the log has one of it open. -/
theorem hasTransactionInProgress_eq (hr : Represents σ s) (q : Int) :
    s.hasTransactionInProgress q = (σ.phases q).isOpen := by
  have hm := hr.producers q
  unfold Stm.hasTransactionInProgress
  cases hph : σ.phases q with
  | fresh =>
      rw [hph] at hm
      rw [show s.producers q = none from hm]
      rfl
  | nonTransactional =>
      rw [hph] at hm
      obtain ⟨p, hp, hts⟩ := hm
      rw [hp]
      simp [Producer.hasTransactionInProgress, hts, TxPhase.isOpen]
  | idle e =>
      rw [hph] at hm
      obtain ⟨p, hp, -, hprog⟩ := hm
      rw [hp]
      exact hprog
  | «open» e f l =>
      rw [hph] at hm
      obtain ⟨p, st, hp, -, hts, hst⟩ := hm
      rw [hp]
      rcases hst with rfl | rfl <;>
        simp [Producer.hasTransactionInProgress, hts, TransactionState.isInProgress, TxPhase.isOpen]

theorem firstOf_of_open (hr : Represents σ s) {q e f l : Int} (hopen : σ.phases q = .open e f l) :
    s.firstOf q = f := by
  have hm := hr.producers q
  rw [hopen] at hm
  obtain ⟨p, st, hp, -, hts, -⟩ := hm
  unfold Stm.firstOf
  rw [hp]
  obtain ⟨id, requests, ts⟩ := p
  dsimp only at hts
  rw [hts]

/-- A step that stores one producer and moves its phase keeps the
    representation of every producer. -/
theorem update (hr : Represents σ s) {q : Int} {ph : TxPhase} {p : Producer} {s' : Stm}
    {lastOffset : Int} (hm : ProducerMatches q ph (some p))
    (hprod : s'.producers = Function.update s.producers q (some p))
    (hlinked : ∀ x, x ∈ s'.activeTxProducers ↔
      (x = q ∧ ph.isOpen = true) ∨ (x ≠ q ∧ x ∈ s.activeTxProducers))
    (hnodup : s'.activeTxProducers.Nodup) (hla : s'.lastApplied = lastOffset) :
    Represents ⟨Function.update σ.phases q ph, lastOffset⟩ s' := by
  refine ⟨hla, ?_, ?_, hnodup⟩
  · intro x
    rw [hprod]
    by_cases hx : x = q
    · subst hx
      simpa using hm
    · simpa [Function.update_of_ne hx] using hr.producers x
  · intro x
    rw [hlinked]
    by_cases hx : x = q
    · subst hx
      simp
    · simp [hx, hr.linked_iff x]

end Represents

/-! ## Each path keeps the producer's phase -/

section Paths

variable {q e : Int} {h : RecordBatchHeader} {ph ph' : TxPhase} {po : Option Producer}

theorem matches_fence (hm : ProducerMatches q ph po)
    (hstep : ph.step e h.baseOffset h.lastOffset .fence = some ph') :
    ProducerMatches q ph'
      (some ((po.getD (Producer.init ⟨q, e⟩)).applyTransactionBegin h ⟨q, e⟩)) := by
  obtain ⟨hph, rfl⟩ := TxPhase.step_fence hstep
  rcases hph with rfl | ⟨e', rfl, hle⟩
  · -- the producer's first batch
    rw [show po = none from hm, Option.getD_none,
      Producer.applyTransactionBegin_of_le (le_refl e)]
    exact ⟨_, .initialized, rfl, rfl, rfl, .inr rfl⟩
  · -- after ended transactions of an epoch not above the fence's
    obtain ⟨p, rfl, hid, -⟩ := hm
    rw [Option.getD_some, Producer.applyTransactionBegin_of_le (by rw [hid]; exact hle)]
    exact ⟨_, .initialized, rfl, rfl, rfl, .inr rfl⟩

/-- An end marker ends the open transaction, and returns its range. -/
theorem matches_marker {crt : ControlRecordType} (hm : ProducerMatches q ph po)
    (hstep : ph.step e h.baseOffset h.lastOffset (.marker crt) = some ph') :
    ProducerMatches q ph' (some ((po.getD (Producer.init ⟨q, e⟩)).applyTransactionEnd crt).2) ∧
      ((po.getD (Producer.init ⟨q, e⟩)).applyTransactionEnd crt).1 = ph.range q := by
  obtain ⟨hcrt, hph, rfl⟩ := TxPhase.step_marker hstep
  rcases hph with rfl | ⟨f, l, rfl⟩
  · -- a marker with no transaction ends nothing
    rw [show po = none from hm, Option.getD_none, Producer.applyTransactionEnd_of_none crt rfl]
    exact ⟨⟨_, rfl, rfl, rfl⟩, rfl⟩
  · obtain ⟨p, st, rfl, hid, hts, -⟩ := hm
    rw [Option.getD_some, Producer.applyTransactionEnd_of_some hcrt hts]
    refine ⟨⟨_, rfl, by rw [hid], ?_⟩, by simp [hid, TxPhase.range]⟩
    by_cases hc : crt = .txCommit <;>
      simp [Producer.hasTransactionInProgress, TransactionState.isInProgress, hc]

/-- Transactional data goes on with the open transaction, or opens one. -/
theorem matches_txData (o : Int) (hm : ProducerMatches q ph po)
    (hstep : ph.step e h.baseOffset h.lastOffset .txData = some ph')
    (hidem : (BatchIdentity.ofHeader h).isIdempotent) (htx : h.isTransactional = true) :
    ProducerMatches q ph' (some ((po.getD (Producer.init ⟨q, e⟩)).applyData h o)) := by
  rcases TxPhase.step_txData hstep with ⟨rfl, rfl⟩ | ⟨f, l, rfl, rfl⟩
  · rw [show po = none from hm, Option.getD_none]
    obtain ⟨hid, hts⟩ := Producer.applyData_of_transactional (p := Producer.init ⟨q, e⟩) o hidem htx
    exact ⟨_, .ongoing, rfl, hid, hts, .inl rfl⟩
  · obtain ⟨p, st, rfl, hid, hts, -⟩ := hm
    obtain ⟨hid', hts'⟩ := Producer.applyData_of_transactional (p := p) o hidem htx
    rw [Option.getD_some]
    refine ⟨_, .ongoing, rfl, by rw [hid', hid], ?_, .inl rfl⟩
    rw [hts', hts]

theorem matches_nonTxData (o : Int) (hm : ProducerMatches q ph po)
    (hstep : ph.step e h.baseOffset h.lastOffset .nonTxData = some ph')
    (htx : h.isTransactional = false) :
    ProducerMatches q ph' (some ((po.getD (Producer.init ⟨q, e⟩)).applyData h o)) := by
  obtain ⟨hph, rfl⟩ := TxPhase.step_nonTxData hstep
  rcases hph with rfl | rfl
  · rw [show po = none from hm, Option.getD_none]
    exact ⟨_, rfl, Producer.transactionState_applyData_of_not_transactional o htx⟩
  · obtain ⟨p, rfl, hts⟩ := hm
    rw [Option.getD_some]
    exact ⟨_, rfl, by rw [Producer.transactionState_applyData_of_not_transactional o htx, hts]⟩

theorem matches_gc (t : Int) (hm : ProducerMatches q ph po) :
    ProducerMatches q ph (po.map fun p => p.gcRequestsFromOlderTerms t) := by
  cases ph with
  | fresh => rw [show po = none from hm]; rfl
  | nonTransactional =>
      obtain ⟨p, rfl, hts⟩ := hm
      exact ⟨_, rfl, hts⟩
  | idle e =>
      obtain ⟨p, rfl, hid, hprog⟩ := hm
      exact ⟨_, rfl, hid, hprog⟩
  | «open» e f l =>
      obtain ⟨p, st, rfl, hid, hts, hst⟩ := hm
      exact ⟨_, st, rfl, hid, hts, hst⟩

end Paths

/-- Linking a producer that was not linked. -/
theorem mem_append_singleton_iff {l : List Int} {q : Int} (x : Int) :
    x ∈ l ++ [q] ↔ (x = q ∧ true = true) ∨ (x ≠ q ∧ x ∈ l) := by
  by_cases hx : x = q <;> simp [hx]

/-- Unlinking a producer from a list without repeats. -/
theorem mem_erase_iff_of_nodup {l : List Int} (hl : l.Nodup) {q : Int} (x : Int) :
    x ∈ l.erase q ↔ (x = q ∧ false = true) ∨ (x ≠ q ∧ x ∈ l) := by
  rw [hl.mem_erase_iff]
  simp

/-- **ONE APPLIED BATCH KEEPS THE REPRESENTATION**: the stm, after applying
    the next batch of a well-formed log, represents the log one batch on. -/
theorem represents_apply {σ σ' : LogState} {s : Stm} (translate : Int → Int) {b : RecordBatch}
    (hr : Represents σ s) (hstep : σ.step b = some σ') : Represents σ' (s.apply translate b) := by
  obtain ⟨-, -, -, -, ph', hph, rfl⟩ := LogState.step_some hstep
  have hm := hr.producers b.header.producerId
  have hlinked := hr.linked_iff b.header.producerId
  -- one case per path of do_apply; each stores the producer and relinks it
  cases hk : b.kind with
  | fence =>
      rw [hk] at hph
      obtain ⟨hprod, hact, -⟩ := Stm.apply_of_fence (s := s) translate hk
      obtain ⟨hwas, hnow⟩ := TxPhase.isOpen_step_fence hph
      have hnot : b.header.producerId ∉ s.activeTxProducers := by simp [hlinked, hwas]
      refine hr.update (matches_fence hm hph) hprod ?_ ?_ rfl
      · intro x
        rw [hact, hnow]
        exact mem_append_singleton_iff x
      · rw [hact]
        exact hr.nodup.append (List.nodup_singleton _) (by simpa using hnot)
  | marker crt =>
      rw [hk] at hph
      obtain ⟨hprod, hact, -⟩ := Stm.apply_of_marker (s := s) translate hk
      refine hr.update (matches_marker hm hph).1 hprod ?_ ?_ rfl
      · intro x
        rw [hact, TxPhase.isOpen_step_marker hph]
        exact mem_erase_iff_of_nodup hr.nodup x
      · rw [hact]
        exact hr.nodup.erase _
  | txData =>
      rw [hk] at hph
      obtain ⟨hidem, htx⟩ := Stm.kind_txData hk
      obtain ⟨hprod, hact, -⟩ := Stm.apply_of_data (s := s) translate (.inl hk)
      refine hr.update (matches_txData _ hm hph hidem htx) hprod ?_ ?_ rfl
      · intro x
        rw [hact, TxPhase.isOpen_step_txData hph]
        split
        · exact mem_append_singleton_iff x
        · rename_i hin
          have hq : b.header.producerId ∈ s.activeTxProducers := by simpa [htx] using hin
          by_cases hx : x = b.header.producerId <;> simp [hx, hq]
      · rw [hact]
        split
        · rename_i hin
          exact hr.nodup.append (List.nodup_singleton _) (by simpa using hin.2)
        · exact hr.nodup
  | nonTxData =>
      rw [hk] at hph
      obtain ⟨-, htx⟩ := Stm.kind_nonTxData hk
      obtain ⟨hprod, hact, -⟩ := Stm.apply_of_data (s := s) translate (.inr hk)
      obtain ⟨hwas, hnow⟩ := TxPhase.isOpen_step_nonTxData hph
      have hnot : b.header.producerId ∉ s.activeTxProducers := by simp [hlinked, hwas]
      have hact' : (s.apply translate b).activeTxProducers = s.activeTxProducers := by
        rw [hact, if_neg (by simp [htx])]
      refine hr.update (matches_nonTxData _ hm hph htx) hprod ?_ ?_ rfl
      · intro x
        rw [hact', hnow]
        by_cases hx : x = b.header.producerId
        · subst hx; simp [hnot]
        · simp [hx]
      · rw [hact']
        exact hr.nodup
  | ignored =>
      rw [hk] at hph
      obtain ⟨hprod, hact, -⟩ := Stm.apply_of_ignored (s := s) translate hk
      rw [TxPhase.step_ignored hph, Function.update_eq_self]
      exact ⟨rfl, hprod ▸ hr.producers, hact ▸ hr.linked_iff, hact ▸ hr.nodup⟩

/-! ## The order of `_active_tx_producers` -/

section Order

variable {σ σ' : LogState} {s : Stm} (translate : Int → Int) {b : RecordBatch}

/-- The list after a batch: the batch's producer linked at the back, or a
    sublist of what was linked. -/
theorem activeTxProducers_apply_cases (hr : Represents σ s) (hstep : σ.step b = some σ') :
    ((s.apply translate b).activeTxProducers = s.activeTxProducers ++ [b.header.producerId] ∧
        b.header.producerId ∉ s.activeTxProducers) ∨
      (s.apply translate b).activeTxProducers.Sublist s.activeTxProducers := by
  obtain ⟨-, -, -, -, ph', hph, -⟩ := LogState.step_some hstep
  cases hk : b.kind with
  | fence =>
      rw [hk] at hph
      have hnot : b.header.producerId ∉ s.activeTxProducers := by
        simp [hr.linked_iff, (TxPhase.isOpen_step_fence hph).1]
      exact .inl ⟨(Stm.apply_of_fence (s := s) translate hk).2.1, hnot⟩
  | marker crt =>
      rw [(Stm.apply_of_marker (s := s) translate hk).2.1]
      exact .inr (List.erase_sublist)
  | txData =>
      rw [(Stm.apply_of_data (s := s) translate (.inl hk)).2.1]
      split
      · rename_i hin
        exact .inl ⟨rfl, hin.2⟩
      · exact .inr (List.Sublist.refl _)
  | nonTxData =>
      rw [(Stm.apply_of_data (s := s) translate (.inr hk)).2.1,
        if_neg (by simp [(Stm.kind_nonTxData hk).2])]
      exact .inr (List.Sublist.refl _)
  | ignored =>
      rw [(Stm.apply_of_ignored (s := s) translate hk).2.1]
      exact .inr (List.Sublist.refl _)

/-- A producer linked before and after a batch keeps its first offset. -/
theorem firstOf_apply_of_linked (hr : Represents σ s) (hstep : σ.step b = some σ') {x : Int}
    (hx : x ∈ s.activeTxProducers) (hx' : x ∈ (s.apply translate b).activeTxProducers) :
    (s.apply translate b).firstOf x = s.firstOf x := by
  have hr' := represents_apply translate hr hstep
  obtain ⟨e₀, f₀, l₀, hph⟩ := TxPhase.isOpen_iff.mp ((hr.linked_iff x).mp hx)
  obtain ⟨e, f, l, hph'⟩ := TxPhase.isOpen_iff.mp ((hr'.linked_iff x).mp hx')
  rw [hr'.firstOf_of_open hph', hr.firstOf_of_open hph]
  obtain ⟨-, -, -, -, ph', hstep', rfl⟩ := LogState.step_some hstep
  by_cases hxq : x = b.header.producerId
  · subst hxq
    simp only [Function.update_self] at hph'
    rw [hph, hph'] at hstep'
    exact TxPhase.first_step_of_open hstep'
  · simp only [Function.update_of_ne hxq] at hph'
    rw [hph] at hph'
    cases hph'
    rfl

/-- A producer that a batch links starts its transaction at the batch. -/
theorem firstOf_apply_of_new (hr : Represents σ s) (hstep : σ.step b = some σ')
    (hnot : b.header.producerId ∉ s.activeTxProducers)
    (hin : b.header.producerId ∈ (s.apply translate b).activeTxProducers) :
    (s.apply translate b).firstOf b.header.producerId = b.header.baseOffset := by
  have hr' := represents_apply translate hr hstep
  obtain ⟨e, f, l, hph'⟩ := TxPhase.isOpen_iff.mp ((hr'.linked_iff _).mp hin)
  rw [hr'.firstOf_of_open hph']
  obtain ⟨-, -, -, -, ph', hstep', rfl⟩ := LogState.step_some hstep
  simp only [Function.update_self] at hph'
  rw [hph'] at hstep'
  have hwas : (σ.phases b.header.producerId).isOpen = false := by
    simpa [hr.linked_iff] using hnot
  exact TxPhase.first_step_of_not_open hwas hstep'

end Order

/-! ## The invariant of a run -/

/-- What holds of the stm, with the log state it represents and the
    batches it has still to apply. -/
structure Inv (σ : LogState) (s : Stm) (pending : List RecordBatch) : Prop where
  represents : Represents σ s
  wellFormed : WellFormedFrom σ pending
  txEnabled : s.isTxEnabled = true
  sorted : (s.activeTxProducers.map s.firstOf).Pairwise (· ≤ ·)
  open_bounds : ∀ q e f l, σ.phases q = .open e f l → 0 ≤ f ∧ f ≤ σ.lastOffset
  known_le_open : ∀ q e f l, σ.phases q = .open e f l → s.lastKnownLso ≤ f
  known_le_pending : ∀ b ∈ pending, b.kind = .fence ∨ b.kind = .txData →
    s.lastKnownLso ≤ b.header.baseOffset

theorem inv_init (lastApplied : Int) {log : List RecordBatch}
    (hwf : WellFormedFrom (LogState.init lastApplied) log) :
    Inv (LogState.init lastApplied) (Stm.init true lastApplied) log where
  represents := ⟨rfl, fun _ => rfl, fun _ => by simp [Stm.init, LogState.init, TxPhase.isOpen],
    List.nodup_nil⟩
  wellFormed := hwf
  txEnabled := rfl
  sorted := List.Pairwise.nil
  open_bounds := fun _ _ _ _ h => by cases h
  known_le_open := fun _ _ _ _ h => by cases h
  known_le_pending := fun b hb _ => by
    have := (bounds_of_wellFormedFrom hwf b hb).2.1
    show (-1 : Int) ≤ _
    omega

/-- **APPLYING THE NEXT BATCH KEEPS THE INVARIANT**. -/
theorem inv_apply (translate : Int → Int) {σ : LogState} {s : Stm} {b : RecordBatch}
    {bs : List RecordBatch} (hinv : Inv σ s (b :: bs)) :
    ∃ σ', σ.step b = some σ' ∧ Inv σ' (s.apply translate b) bs := by
  obtain ⟨σ', hstep, hwf'⟩ := wellFormedFrom_cons.mp hinv.wellFormed
  obtain ⟨hlt, hpos, hle, -, ph', -, hσ'⟩ := LogState.step_some hstep
  have hr := hinv.represents
  have hlast : σ'.lastOffset = b.header.lastOffset := by rw [hσ']
  obtain ⟨htx, hknown⟩ := Stm.apply_frame (s := s) translate b
  refine ⟨σ', hstep, represents_apply translate hr hstep, hwf', htx ▸ hinv.txEnabled,
    ?_, ?_, ?_, ?_⟩
  · -- the list grows at the back with the latest first offset, or shrinks
    rcases activeTxProducers_apply_cases translate hr hstep with ⟨hact, hnot⟩ | hsub
    · have hin : b.header.producerId ∈ (s.apply translate b).activeTxProducers := by
        rw [hact]
        simp
      have hkeep : ∀ x ∈ s.activeTxProducers,
          (s.apply translate b).firstOf x = s.firstOf x := fun x hx =>
        firstOf_apply_of_linked translate hr hstep hx (by rw [hact]; exact List.mem_append_left _ hx)
      rw [hact, List.map_append, List.pairwise_append, List.map_congr_left hkeep]
      refine ⟨hinv.sorted, List.pairwise_singleton _ _, ?_⟩
      intro a ha c hc
      rw [List.map_singleton, List.mem_singleton] at hc
      subst hc
      obtain ⟨x, hx, rfl⟩ := List.mem_map.mp ha
      obtain ⟨e₀, f₀, l₀, hph⟩ := TxPhase.isOpen_iff.mp ((hr.linked_iff x).mp hx)
      rw [firstOf_apply_of_new translate hr hstep hnot hin, hr.firstOf_of_open hph]
      have := (hinv.open_bounds x e₀ f₀ l₀ hph).2
      omega
    · rw [List.map_congr_left fun x hx =>
        firstOf_apply_of_linked translate hr hstep (hsub.subset hx) hx]
      exact hinv.sorted.sublist (hsub.map _)
  · intro x e f l h
    rcases LogState.open_after_step hstep h with ⟨-, rfl, -⟩ | ⟨e₀, l₀, h₀⟩
    · exact ⟨hpos, by omega⟩
    · have := hinv.open_bounds x e₀ f l₀ h₀
      omega
  · intro x e f l h
    rw [hknown]
    rcases LogState.open_after_step hstep h with ⟨-, rfl, hk⟩ | ⟨e₀, l₀, h₀⟩
    · exact hinv.known_le_pending b List.mem_cons_self hk
    · exact hinv.known_le_open x e₀ f l₀ h₀
  · intro b' hb' hk
    rw [hknown]
    exact hinv.known_le_pending b' (List.mem_cons_of_mem b hb') hk

/-- A marker ends the open transaction of its producer, as the log has it:
    an abort adds that transaction's range to the aborted list. -/
theorem aborted_apply_of_marker (translate : Int → Int) {σ σ' : LogState} {s : Stm}
    {b : RecordBatch} {crt : ControlRecordType} (hr : Represents σ s) (hstep : σ.step b = some σ')
    (hk : b.kind = .marker crt) :
    b.header.producerId ∉ (s.apply translate b).activeTxProducers ∧
      (s.apply translate b).aborted = s.aborted ++
        if crt = .txAbort then (σ.openRange b.header.producerId).toList else [] := by
  obtain ⟨-, -, -, -, ph', hph, -⟩ := LogState.step_some hstep
  rw [hk] at hph
  obtain ⟨-, hact, hab⟩ := Stm.apply_of_marker (s := s) translate hk
  have hrange : ((s.producerOf b.pid).applyTransactionEnd crt).1 =
      (σ.phases b.header.producerId).range b.header.producerId :=
    (matches_marker (hr.producers _) hph).2
  refine ⟨?_, ?_⟩
  · rw [hact]
    exact hr.nodup.not_mem_erase
  · rw [hab, hrange]
    rfl

/-! ## What a call of `last_stable_offset` may assume -/

/-- A batch that starts a transaction when the stm applies it: a fence, or
    transactional data of a producer with no transaction in progress. -/
def Stm.opensTransaction (s : Stm) (b : RecordBatch) : Bool :=
  match b.kind with
  | .fence => true
  | .txData => !s.hasTransactionInProgress b.header.producerId
  | _ => false

/-- What the branches of `last_stable_offset` rely on: the stm has applied
    nothing past the last visible index, and a synced leader, which answers
    the offset after the last visible one, has applied every batch up to it
    that starts a transaction. -/
def Admits (s : Stm) (pending : List RecordBatch) (env : LsoInputs) : Prop :=
  s.lastApplied ≤ env.lastVisibleIndex ∧
    ((env.isLeader && env.term = env.insyncTerm) = true →
      ∀ b ∈ pending, b.header.baseOffset ≤ env.lastVisibleIndex → s.opensTransaction b = false)

instance (s : Stm) (pending : List RecordBatch) (env : LsoInputs) :
    Decidable (Admits s pending env) :=
  inferInstanceAs (Decidable (s.lastApplied ≤ env.lastVisibleIndex ∧
    ((env.isLeader && env.term = env.insyncTerm) = true →
      ∀ b ∈ pending, b.header.baseOffset ≤ env.lastVisibleIndex → s.opensTransaction b = false)))

/-! ## The bound of one call -/

section Bounds

variable {σ : LogState} {s : Stm} {pending : List RecordBatch} {env : LsoInputs}

/-- The head of `_active_tx_producers` starts the earliest open transaction. -/
theorem firstTxStart_le_of_open (hinv : Inv σ s pending) {q e f l : Int}
    (h : σ.phases q = .open e f l) : s.firstTxStart ≤ f := by
  have hq : q ∈ s.activeTxProducers := (hinv.represents.linked_iff q).mpr (by rw [h]; rfl)
  have hf := hinv.represents.firstOf_of_open h
  have hs := hinv.sorted
  unfold Stm.firstTxStart
  rw [if_pos hinv.txEnabled]
  cases hact : s.activeTxProducers with
  | nil =>
      rw [hact] at hq
      cases hq
  | cons y rest =>
      rw [hact, List.map_cons, List.pairwise_cons] at hs
      rw [hact] at hq
      show s.firstOf y ≤ f
      rcases List.mem_cons.mp hq with rfl | hq
      · exact hf.le
      · rw [← hf]
        exact hs.1 _ (List.mem_map_of_mem hq)

/-- Past the last applied offset no transaction is open. -/
theorem not_open_of_lt_firstTxStart (hinv : Inv σ s pending) {lvi : Int}
    (hla : s.lastApplied ≤ lvi) (hlt : lvi < s.firstTxStart) (q e f l : Int) :
    σ.phases q ≠ .open e f l := by
  intro h
  have h1 := firstTxStart_le_of_open hinv h
  have h2 := (hinv.open_bounds q e f l h).2
  have h3 := hinv.represents.lastApplied_eq
  omega

theorem opensTransaction_of_lt_firstTxStart (hinv : Inv σ s pending) {lvi : Int}
    (hla : s.lastApplied ≤ lvi) (hlt : lvi < s.firstTxStart) {b : RecordBatch}
    (hk : b.kind = .fence ∨ b.kind = .txData) : s.opensTransaction b = true := by
  unfold Stm.opensTransaction
  rcases hk with hk | hk
  · rw [hk]
  · rw [hk]
    show (!s.hasTransactionInProgress b.header.producerId) = true
    rw [hinv.represents.hasTransactionInProgress_eq]
    cases hph : σ.phases b.header.producerId with
    | «open» e f l => exact absurd hph (not_open_of_lt_firstTxStart hinv hla hlt _ e f l)
    | _ => rfl

/-- The three branches stay at or below the start of every open transaction. -/
theorem lsoCandidate_le_open (hinv : Inv σ s pending) (hadm : Admits s pending env)
    {q e f l : Int} (h : σ.phases q = .open e f l) : s.lsoCandidate env ≤ f := by
  unfold Stm.lsoCandidate
  dsimp only
  split
  · exact le_trans (min_le_left _ _) (firstTxStart_le_of_open hinv h)
  · exact absurd h (not_open_of_lt_firstTxStart hinv hadm.1 (by omega) q e f l)

/-- The three branches stay at or below the start of every batch still to
    apply that may open a transaction. -/
theorem lsoCandidate_le_pending (hinv : Inv σ s pending) (hadm : Admits s pending env)
    {b : RecordBatch} (hb : b ∈ pending) (hk : b.kind = .fence ∨ b.kind = .txData) :
    s.lsoCandidate env ≤ b.header.baseOffset := by
  obtain ⟨hlt, hpos, hmax⟩ := bounds_of_wellFormedFrom hinv.wellFormed b hb
  have hla := hinv.represents.lastApplied_eq
  have hnext : nextOffset s.lastApplied ≤ b.header.baseOffset :=
    nextOffset_le_of_lt (by omega) hpos hmax.le
  unfold Stm.lsoCandidate
  dsimp only
  split
  · exact le_trans (min_le_right _ _) hnext
  · rename_i hgt
    split
    · -- a synced leader answers past the last visible index, which no
      -- transaction still to apply starts at or below
      rename_i hsync
      have hopens := opensTransaction_of_lt_firstTxStart hinv hadm.1 (by omega) hk
      have hbig : env.lastVisibleIndex < b.header.baseOffset := by
        by_contra hle
        have hnot := hadm.2 hsync b hb (by omega)
        rw [hopens] at hnot
        cases hnot
      exact nextOffset_le_of_lt hbig hpos hmax.le
    · exact hnext

/-- **AN ADMISSIBLE CALL KEEPS THE INVARIANT**: it raises `_last_known_lso`
    to an offset below every open transaction and every one to come. -/
theorem inv_lastStableOffset (hinv : Inv σ s pending) (hadm : Admits s pending env) :
    Inv σ (s.lastStableOffset env).2 pending := by
  rcases s.lastStableOffset_cases env with ⟨-, h⟩ | ⟨-, h⟩
  · rw [h]
    exact hinv
  · rw [h]
    have hr := hinv.represents
    exact ⟨⟨hr.lastApplied_eq, hr.producers, hr.linked_iff, hr.nodup⟩, hinv.wellFormed,
      hinv.txEnabled, hinv.sorted, hinv.open_bounds,
      fun q e f l hq => max_le (hinv.known_le_open q e f l hq) (lsoCandidate_le_open hinv hadm hq),
      fun b hb hk => max_le (hinv.known_le_pending b hb hk) (lsoCandidate_le_pending hinv hadm hb hk)⟩

/-- **A `sync` KEEPS THE INVARIANT**: the producers keep their
    transactions, and a new term drops `_last_known_lso` to `-1`, below
    every offset of the log. -/
theorem inv_sync (hinv : Inv σ s pending) (c t : Int) : Inv σ (s.sync c t) pending := by
  obtain ⟨htx, hactive, happlied, hfirst, hknown⟩ := s.sync_frame c t
  have hr := hinv.represents
  refine ⟨⟨happlied.trans hr.lastApplied_eq, fun q => ?_, fun q => hactive ▸ hr.linked_iff q,
      hactive ▸ hr.nodup⟩, hinv.wellFormed, htx.trans hinv.txEnabled, ?_, hinv.open_bounds,
    fun q e f l hq => ?_, fun b hb hk => ?_⟩
  · unfold Stm.sync
    split
    · exact matches_gc t (hr.producers q)
    · exact hr.producers q
  · rw [hactive, hfirst]
    exact hinv.sorted
  · rcases hknown with h | h
    · have := (hinv.open_bounds q e f l hq).1
      omega
    · exact h ▸ hinv.known_le_open q e f l hq
  · rcases hknown with h | h
    · have := (bounds_of_wellFormedFrom hinv.wellFormed b hb).2.1
      omega
    · exact h ▸ hinv.known_le_pending b hb hk

/-- What an admissible call returns is at most the first offset of every
    transaction in progress. -/
theorem lastStableOffset_le_firstOf (hinv : Inv σ s pending) (hadm : Admits s pending env)
    {q : Int} (hq : s.hasTransactionInProgress q = true) :
    (s.lastStableOffset env).1 ≤ s.firstOf q := by
  rw [hinv.represents.hasTransactionInProgress_eq, TxPhase.isOpen_iff] at hq
  obtain ⟨e, f, l, h⟩ := hq
  rw [hinv.represents.firstOf_of_open h]
  rcases s.lastStableOffset_cases env with ⟨hv, -⟩ | ⟨hv, -⟩
  · rw [hv, invalidLso_eq_zero]
    exact (hinv.open_bounds q e f l h).1
  · rw [hv]
    exact max_le (hinv.known_le_open q e f l h) (lsoCandidate_le_open hinv hadm h)

end Bounds

/-! ## Runs of a partition -/

/-- A partition's stm, the batches of its log it has applied and those it
    has still to apply. -/
structure Partition where
  stm : Stm
  applied : List RecordBatch
  pending : List RecordBatch

/-- What happens next on a partition: the stm applies its next batch, a
    reader calls `last_stable_offset`, or `sync` runs and finds the in-sync
    term moved from `currentInsyncTerm` to `insyncTerm`. -/
inductive Event where
  | apply
  | lastStableOffset (env : LsoInputs)
  | sync (currentInsyncTerm insyncTerm : Int)

/-- Whether an event leaves the in-sync term where it was. -/
def Event.keepsTerm : Event → Bool
  | .sync currentInsyncTerm insyncTerm => decide (currentInsyncTerm = insyncTerm)
  | _ => true

namespace Partition

/-- A transactional stm that starts at `lastApplied`, before a log. -/
def start (lastApplied : Int) (log : List RecordBatch) : Partition :=
  ⟨Stm.init true lastApplied, [], log⟩

/-- One event, and the offset a call returns. -/
def step (translate : Int → Int) (p : Partition) : Event → Partition × Option Int
  | .apply =>
      match p.pending with
      | [] => (p, none)
      | b :: bs => (⟨p.stm.apply translate b, p.applied ++ [b], bs⟩, none)
  | .lastStableOffset env =>
      let r := p.stm.lastStableOffset env
      (⟨r.2, p.applied, p.pending⟩, some r.1)
  | .sync currentInsyncTerm insyncTerm =>
      (⟨p.stm.sync currentInsyncTerm insyncTerm, p.applied, p.pending⟩, none)

/-- A run of events, and the offsets its calls returned in order. -/
def run (translate : Int → Int) : Partition → List Event → Partition × List Int
  | p, [] => (p, [])
  | p, e :: es =>
      let r := p.step translate e
      let t := run translate r.1 es
      (t.1, r.2.toList ++ t.2)

/-- Every call of the run may assume what `Admits` says. -/
def admissible (translate : Int → Int) : Partition → List Event → Bool
  | _, [] => true
  | p, e :: es =>
      (match e with
        | .lastStableOffset env => decide (Admits p.stm p.pending env)
        | _ => true) &&
        admissible translate (p.step translate e).1 es

/-- The stm keeps the invariant with the log state its applied batches reach. -/
def Consistent (lastApplied : Int) (p : Partition) : Prop :=
  ∃ σ, (LogState.init lastApplied).run p.applied = some σ ∧ Inv σ p.stm p.pending

variable (translate : Int → Int) {lastApplied : Int}

theorem consistent_start {log : List RecordBatch}
    (hwf : WellFormedFrom (LogState.init lastApplied) log) :
    Consistent lastApplied (start lastApplied log) :=
  ⟨_, rfl, inv_init lastApplied hwf⟩

theorem consistent_step {p : Partition} (hp : Consistent lastApplied p) (e : Event)
    (hadm : ∀ env, e = .lastStableOffset env → Admits p.stm p.pending env) :
    Consistent lastApplied (p.step translate e).1 := by
  obtain ⟨σ, hrun, hinv⟩ := hp
  cases e with
  | apply =>
      unfold step
      cases hpend : p.pending with
      | nil => exact ⟨σ, hrun, hinv⟩
      | cons b bs =>
          rw [hpend] at hinv
          obtain ⟨σ', hstep, hinv'⟩ := inv_apply translate hinv
          refine ⟨σ', ?_, hinv'⟩
          rw [LogState.run_append, hrun]
          simp [LogState.run, hstep]
  | lastStableOffset env => exact ⟨σ, hrun, inv_lastStableOffset hinv (hadm env rfl)⟩
  | sync c t => exact ⟨σ, hrun, inv_sync hinv c t⟩

/-- **EVERY ADMISSIBLE RUN KEEPS THE INVARIANT**. -/
theorem consistent_run {p : Partition} {es : List Event} (hp : Consistent lastApplied p)
    (hadm : admissible translate p es = true) : Consistent lastApplied (p.run translate es).1 := by
  induction es generalizing p with
  | nil => exact hp
  | cons e es ih =>
      unfold admissible at hadm
      rw [Bool.and_eq_true] at hadm
      have hp' := consistent_step translate hp e fun env he => by
        subst he
        simpa using hadm.1
      exact ih hp' hadm.2

/-- `_last_known_lso` never goes down while the in-sync term stays. -/
theorem lastKnownLso_le_step (p : Partition) (e : Event) (hk : e.keepsTerm = true) :
    p.stm.lastKnownLso ≤ (p.step translate e).1.stm.lastKnownLso := by
  cases e with
  | apply =>
      unfold step
      cases p.pending with
      | nil => exact le_rfl
      | cons b bs => exact (Stm.apply_frame translate b).2.ge
  | lastStableOffset env =>
      rcases p.stm.lastStableOffset_cases env with ⟨-, h⟩ | ⟨-, h⟩
      · exact (congrArg Stm.lastKnownLso h).ge
      · exact (congrArg Stm.lastKnownLso h).symm ▸ le_max_left _ _
  | sync c t =>
      obtain rfl : c = t := by simpa [Event.keepsTerm] using hk
      simp only [step, Stm.sync_of_eq, le_refl]

/-- A call that returns an offset other than `invalid_lso` returns the
    `_last_known_lso` it leaves. -/
theorem output_step_eq (p : Partition) (e : Event) {v : Int}
    (hv : (p.step translate e).2 = some v) (hne : v ≠ invalidLso) :
    v = (p.step translate e).1.stm.lastKnownLso := by
  cases e with
  | apply =>
      simp only [step] at hv
      split at hv <;> cases hv
  | sync c t => cases hv
  | lastStableOffset env =>
      simp only [step, Option.some.injEq] at hv
      subst hv
      rcases p.stm.lastStableOffset_cases env with ⟨h, -⟩ | ⟨h, h'⟩
      · exact absurd h hne
      · show _ = (p.stm.lastStableOffset env).2.lastKnownLso
        rw [h, h']

/-- Every offset a run that keeps the in-sync term returns, other than
    `invalid_lso`, is at least the `_last_known_lso` the run starts from. -/
theorem lastKnownLso_le_outputs (p : Partition) (es : List Event)
    (hk : ∀ e ∈ es, e.keepsTerm = true) :
    ∀ v ∈ (p.run translate es).2.filter (· ≠ invalidLso), p.stm.lastKnownLso ≤ v := by
  induction es generalizing p with
  | nil => intro v hv; cases hv
  | cons e es ih =>
      intro v hv
      have hle := lastKnownLso_le_step translate p e (hk e List.mem_cons_self)
      rw [show (p.run translate (e :: es)).2 =
          (p.step translate e).2.toList ++ ((p.step translate e).1.run translate es).2 from rfl,
        List.filter_append, List.mem_append] at hv
      rcases hv with hv | hv
      · obtain ⟨hv, hne⟩ := List.mem_filter.mp hv
        rw [output_step_eq translate p e (Option.mem_toList.mp hv) (by simpa using hne)]
        exact hle
      · exact le_trans hle (ih _ (fun e' he' => hk e' (List.mem_cons_of_mem e he')) v hv)

/-- **THE OFFSETS A RUN RETURNS NEVER GO DOWN**, `invalid_lso` apart, as
    long as no `sync` finds a new in-sync term: such a `sync` resets
    `_last_known_lso`. -/
theorem outputs_pairwise (p : Partition) (es : List Event) (hk : ∀ e ∈ es, e.keepsTerm = true) :
    ((p.run translate es).2.filter (· ≠ invalidLso)).Pairwise (· ≤ ·) := by
  induction es generalizing p with
  | nil => exact List.Pairwise.nil
  | cons e es ih =>
      rw [show (p.run translate (e :: es)).2 =
          (p.step translate e).2.toList ++ ((p.step translate e).1.run translate es).2 from rfl,
        List.filter_append, List.pairwise_append]
      have hk' : ∀ e' ∈ es, e'.keepsTerm = true := fun e' he' => hk e' (List.mem_cons_of_mem e he')
      refine ⟨?_, ih _ hk', ?_⟩
      · cases (p.step translate e).2 with
        | none => exact List.Pairwise.nil
        | some v => exact (List.pairwise_singleton _ v).sublist List.filter_sublist
      · intro a ha c hc
        obtain ⟨ha, hne⟩ := List.mem_filter.mp ha
        rw [output_step_eq translate p e (Option.mem_toList.mp ha) (by simpa using hne)]
        exact lastKnownLso_le_outputs translate _ es hk' c hc

end Partition

/-! ## Open transactions bound the last stable offset -/

/-- What `rm_stm` guarantees after a run: of its list of open transactions,
    of the next admissible call, and of the next end marker it applies. -/
structure LsoGuarantees (translate : Int → Int) (lastApplied : Int) (r : Partition × List Int) :
    Prop where
  linked_iff : ∀ q, q ∈ r.1.stm.activeTxProducers ↔ r.1.stm.hasTransactionInProgress q = true
  sorted : (r.1.stm.activeTxProducers.map r.1.stm.firstOf).Pairwise (· ≤ ·)
  bounded : ∀ env, Admits r.1.stm r.1.pending env → ∀ q,
    r.1.stm.hasTransactionInProgress q = true → (r.1.stm.lastStableOffset env).1 ≤ r.1.stm.firstOf q
  marker : ∀ b bs crt, r.1.pending = b :: bs → b.kind = .marker crt →
    b.header.producerId ∉ (r.1.stm.apply translate b).activeTxProducers ∧
      (r.1.stm.apply translate b).aborted = r.1.stm.aborted ++
        if crt = .txAbort then (openTransaction lastApplied b.header.producerId r.1.applied).toList
        else []

theorem lso_bounded_by_open_transactions (translate : Int → Int) (lastApplied : Int)
    {log : List RecordBatch} (hwf : WellFormedFrom (LogState.init lastApplied) log)
    {events : List Event}
    (hadm : (Partition.start lastApplied log).admissible translate events = true) :
    LsoGuarantees translate lastApplied ((Partition.start lastApplied log).run translate events) := by
  obtain ⟨σ, hrun, hinv⟩ :=
    Partition.consistent_run translate (Partition.consistent_start hwf) hadm
  have hr := hinv.represents
  refine ⟨fun q => ?_, hinv.sorted, fun env hadm' q hq => lastStableOffset_le_firstOf hinv hadm' hq, ?_⟩
  · rw [hr.linked_iff, hr.hasTransactionInProgress_eq]
  · intro b bs crt hpend hk
    rw [hpend] at hinv
    obtain ⟨σ', hstep, -⟩ := wellFormedFrom_cons.mp hinv.wellFormed
    rw [openTransaction, hrun]
    exact aborted_apply_of_marker translate hr hstep hk

/-- Producer 7 writes a transaction, a fence at 0, data at 1 and an abort
    at 2, and producer 8 opens one at 3. -/
def abortedThenOpenLog : List RecordBatch :=
  [⟨⟨.txFence, 0, 0, 7, 0, 0, false, true, 1⟩, .unknown⟩,
    ⟨⟨.raftData, 1, 0, 7, 0, 0, false, true, 1⟩, .unknown⟩,
    ⟨⟨.raftData, 2, 0, 7, 0, -1, true, true, 1⟩, .txAbort⟩,
    ⟨⟨.txFence, 3, 0, 8, 0, 0, false, true, 1⟩, .unknown⟩]

/-- A follower whose last visible index is 10. -/
def followerAtTen : LsoInputs := ⟨some (-1), false, 1, 1, 10⟩

/-- The stm applies each batch, and the follower calls after each. -/
def followerCalls : List Event :=
  [.apply, .lastStableOffset followerAtTen, .apply, .lastStableOffset followerAtTen,
    .apply, .lastStableOffset followerAtTen, .apply, .lastStableOffset followerAtTen]

example :
    WellFormedFrom (LogState.init (-1)) abortedThenOpenLog ∧
      (Partition.start (-1) abortedThenOpenLog).admissible id followerCalls = true ∧
      LsoGuarantees id (-1) ((Partition.start (-1) abortedThenOpenLog).run id followerCalls) := by
  have hwf : WellFormedFrom (LogState.init (-1)) abortedThenOpenLog := by decide
  have hadm : (Partition.start (-1) abortedThenOpenLog).admissible id followerCalls = true := by
    decide
  exact ⟨hwf, hadm, lso_bounded_by_open_transactions id (-1) hwf hadm⟩

/-- A `raft_configuration` batch at 0, then a `tx_fence` of producer 7 at 1. -/
def fenceAfterConfigurationLog : List RecordBatch :=
  [⟨⟨.raftConfiguration, 0, 0, -1, -1, -1, false, false, 1⟩, .unknown⟩,
    ⟨⟨.txFence, 1, 0, 7, 0, 0, false, true, 1⟩, .unknown⟩]

/-- A leader in its in-sync term whose last visible index is 1. -/
def syncedLeaderAtOne : LsoInputs := ⟨some (-1), true, 1, 1, 1⟩

/-- The leader calls once before the stm applies the committed fence, and
    once after. -/
def leaderCallsAroundFence : List Event :=
  [.apply, .lastStableOffset syncedLeaderAtOne, .apply, .lastStableOffset syncedLeaderAtOne]

theorem lso_passes_fence_applied_after_leader_call :
    WellFormedFrom (LogState.init (-1)) fenceAfterConfigurationLog ∧
      ((Partition.start (-1) fenceAfterConfigurationLog).run id leaderCallsAroundFence).2 = [2, 2] ∧
      ((Partition.start (-1) fenceAfterConfigurationLog).run id
        leaderCallsAroundFence).1.stm.hasTransactionInProgress 7 = true ∧
      ((Partition.start (-1) fenceAfterConfigurationLog).run id
        leaderCallsAroundFence).1.stm.firstOf 7 = 1 ∧
      syncedLeaderAtOne.lastVisibleIndex = 1 := by
  decide

end RmStm
