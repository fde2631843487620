import Mathlib

/-! # `requests` — the idempotency cache of a producer

    Model of the request cache of `cluster/producer_state.{h,cc}`: the queue
    of in-flight requests, the queue of finished ones, `try_emplace` with its
    term garbage collection, lookup, sequence check and eviction, and
    `stm_apply`, which promotes an applied request and records its offset.

    A request is shared between the cache and the producer waiting on its
    result (`ss::lw_shared_ptr`); the model keeps its value in the cache and
    changes it there when the producer's side completes it (`completeRequest`,
    the `set_value` that `rm_stm` calls after replication).  Errors set on
    requests that the cache drops in the same step (`reset`, the term
    garbage collection) reach only the waiting producer, so the model drops
    those requests without recording them.  Sequence numbers are `int32_t`;
    the model keeps them as integers and the code's own comparisons. -/

namespace ProducerState

/-- `seq_t` is `int32_t`: its largest value. -/
def seqMax : Int := 2 ^ 31 - 1

/-- `requests::requests_cached_max`. -/
def requestsCachedMax : Nat := 5

/-- `request_state`. -/
inductive RequestState where
  | initialized
  | inProgress
  | completed
deriving DecidableEq, Repr

/-- The `cluster::errc` values this code returns or sets. -/
inductive Errc where
  | sequenceOutOfOrder
  | invalidRequest
  | timeout
  | shuttingDown
deriving DecidableEq, Repr

/-- `request`: a sequence range, the term it was submitted in, and its
    result (`kafka_result::last_offset`, or an error) once it has one. -/
structure Request where
  firstSequence : Int
  lastSequence : Int
  term : Int
  state : RequestState
  result : Option (Except Errc Int)
deriving DecidableEq, Repr

namespace Request

/-- `request::has_completed`. -/
def hasCompleted (r : Request) : Bool := r.state = .completed

/-- `request::set_value`: only the first result counts. -/
def setValue (r : Request) (lastOffset : Int) : Request :=
  if r.state ≠ .completed then { r with result := some (.ok lastOffset), state := .completed }
  else r

/-- `request::set_error`: only the first result counts. -/
def setError (r : Request) (error : Errc) : Request :=
  if r.state ≠ .completed then { r with result := some (.error error), state := .completed }
  else r

/-- `request::mark_request_in_progress`. -/
def markRequestInProgress (r : Request) : Request := { r with state := .inProgress }

/-- The sequence range of a request. -/
def range (r : Request) : Int × Int := (r.firstSequence, r.lastSequence)

end Request

/-- `requests`: the two queues, oldest first. -/
structure Requests where
  inflight : List Request
  finished : List Request
deriving DecidableEq, Repr

/-- `model::batch_identity::increment_sequence`: wraps past `int32_t` max to
    zero. -/
def incrementSequence (sequence increment : Int) : Int :=
  if sequence > seqMax - increment then increment - (seqMax - sequence) - 1
  else sequence + increment

namespace Requests

/-- The empty cache. -/
def empty : Requests := ⟨[], []⟩

/-- `requests::last_request`: the newest in-flight request, else the newest
    finished one. -/
def lastRequest (s : Requests) : Option Request :=
  match s.inflight.getLast?, s.finished.getLast? with
  | some r, _ => some r
  | none, r => r

/-- `requests::is_valid_sequence`.  At `int32_t` max the code's `+ 1`
    overflows; the model's unbounded sum equals no `int32_t`, as the
    explicit roll-over disjunct expects. -/
def isValidSequence (s : Requests) (incoming : Int) : Bool :=
  match s.lastRequest with
  | none => incoming = 0
  | some r => r.lastSequence + 1 = incoming || (r.lastSequence = seqMax && incoming = 0)

/-- `requests::reset`: the requests fail with the given error and both
    queues are emptied. -/
def reset (_s : Requests) : Requests := empty

/-- `requests::gc_requests_from_older_terms`: drop the in-flight requests of
    older terms from the front. -/
def gcRequestsFromOlderTerms (s : Requests) (currentTerm : Int) : Requests :=
  { s with inflight := s.inflight.dropWhile fun r => decide (r.term < currentTerm) }

/-- The eviction loop of `try_emplace`: while more than
    `requests_cached_max` requests are in flight and the oldest has
    completed, drop it, and with it every finished request. -/
def evictCompleted : List Request → List Request → List Request × List Request
  | [], finished => ([], finished)
  | r :: rs, finished =>
      if (r :: rs).length > requestsCachedMax ∧ r.hasCompleted then
        evictCompleted rs (if finished.isEmpty then finished else [])
      else (r :: rs, finished)

/-- The two `find_if` searches of `try_emplace`: a finished request of the
    range, else an in-flight one of the range and the current term. -/
def lookup (s : Requests) (first last current : Int) : Option Request :=
  match s.finished.find? fun r => r.firstSequence = first && r.lastSequence = last with
  | some r => some r
  | none => s.inflight.find? fun r =>
      r.firstSequence = first && r.lastSequence = last && r.term = current

/-- A request `try_emplace` creates for a range. -/
def newRequest (first last current : Int) : Request := ⟨first, last, current, .initialized, none⟩

/-- The end of `try_emplace`: enqueue a new request, then evict. -/
def enqueue (s : Requests) (first last current : Int) : Except Errc Request × Requests :=
  let r := newRequest first last current
  let evicted := evictCompleted (s.inflight ++ [r]) s.finished
  (.ok r, ⟨evicted.1, evicted.2⟩)

/-- `requests::try_emplace`: the request for a range, an earlier one when
    the range is already cached, or `sequence_out_of_order`. -/
def tryEmplace (s : Requests) (first last current : Int) (resetSequences : Bool) :
    Except Errc Request × Requests :=
  if resetSequences then s.reset.enqueue first last current
  else
    let s := s.gcRequestsFromOlderTerms current
    match s.lookup first last current with
    | some r => (.ok r, s)
    | none =>
        if !s.isValidSequence first then (.error .sequenceOutOfOrder, s)
        else s.enqueue first last current

/-- The request `stm_apply` records: already completed with the offset, in
    term `-1`. -/
def finishedRequest (first last offset : Int) : Request :=
  ⟨first, last, -1, .completed, some (.ok offset)⟩

/-- The promotion in `stm_apply`: the front in-flight request leaves the
    queue when it is the applied range. -/
def promoteFront (inflight : List Request) (first last : Int) : List Request :=
  match inflight with
  | r :: rs => if r.firstSequence = first ∧ r.lastSequence = last then rs else r :: rs
  | [] => []

/-- `requests::stm_apply`: promote the front request if it is the applied
    range, collect older terms, record the applied range as finished, and
    keep the newest `requests_cached_max` finished requests. -/
def stmApply (s : Requests) (first last term offset : Int) : Requests :=
  let s := gcRequestsFromOlderTerms { s with inflight := promoteFront s.inflight first last } term
  let finished := s.finished ++ [finishedRequest first last offset]
  { s with finished := finished.drop (finished.length - requestsCachedMax) }

/-- The cached request of a range and term, changed through the pointer
    the producer's side holds. -/
def updateRequest (s : Requests) (first last term : Int) (f : Request → Request) : Requests :=
  { s with inflight := s.inflight.map fun r =>
      if r.firstSequence = first ∧ r.lastSequence = last ∧ r.term = term then f r else r }

/-- `rm_stm` completing a replicated request: `set_value` with the offset,
    or `set_error`. -/
def completeRequest (s : Requests) (first last term : Int) (result : Except Errc Int) :
    Requests :=
  s.updateRequest first last term fun r =>
    match result with
    | .ok lastOffset => r.setValue lastOffset
    | .error error => r.setError error

end Requests

/-! ## What each operation does to the queues -/

namespace Request

@[simp] theorem range_setValue (r : Request) (o : Int) : (r.setValue o).range = r.range := by
  unfold setValue
  split <;> rfl

@[simp] theorem range_setError (r : Request) (e : Errc) : (r.setError e).range = r.range := by
  unfold setError
  split <;> rfl

@[simp] theorem term_setValue (r : Request) (o : Int) : (r.setValue o).term = r.term := by
  unfold setValue
  split <;> rfl

@[simp] theorem term_setError (r : Request) (e : Errc) : (r.setError e).term = r.term := by
  unfold setError
  split <;> rfl

theorem setValue_ne_initialized (r : Request) (o : Int) :
    r.state ≠ .initialized → (r.setValue o).state ≠ .initialized := by
  intro h
  unfold setValue
  split
  · exact RequestState.noConfusion
  · exact h

theorem setError_ne_initialized (r : Request) (e : Errc) :
    r.state ≠ .initialized → (r.setError e).state ≠ .initialized := by
  intro h
  unfold setError
  split
  · exact RequestState.noConfusion
  · exact h

end Request

namespace Requests

variable {s : Requests}

/-- With every in-flight request in the current term, collection keeps
    them all. -/
theorem gcRequestsFromOlderTerms_of_terms {t : Int} (h : ∀ r ∈ s.inflight, r.term = t) :
    s.gcRequestsFromOlderTerms t = s := by
  obtain ⟨inflight, finished⟩ := s
  unfold gcRequestsFromOlderTerms
  cases inflight with
  | nil => rfl
  | cons r rs =>
      have hr : r.term = t := h r List.mem_cons_self
      dsimp only
      rw [List.dropWhile_cons_of_neg (by simp [hr])]

/-- Eviction drops some oldest in-flight requests; when it drops any, it
    empties the finished queue and leaves at least `requests_cached_max`
    in flight. -/
theorem evictCompleted_eq :
    ∀ (inflight finished : List Request), ∃ p,
      evictCompleted inflight finished = (inflight.drop p, if p = 0 then finished else []) ∧
        (0 < p → requestsCachedMax ≤ inflight.length - p)
  | [], finished => ⟨0, rfl, by omega⟩
  | r :: rs, finished => by
      unfold evictCompleted
      split
      · rename_i hevict
        obtain ⟨hover, -⟩ := hevict
        rw [List.length_cons] at hover
        obtain ⟨p, heq, hlen⟩ := evictCompleted_eq rs (if finished.isEmpty then finished else [])
        refine ⟨p + 1, ?_, fun _ => ?_⟩
        · rw [heq, List.drop_succ_cons]
          -- an emptied queue and a queue that was empty are both empty
          cases p with
          | zero =>
              cases finished with
              | nil => rfl
              | cons f fs => rfl
          | succ p => rfl
        · rw [List.length_cons]
          cases p with
          | zero => omega
          | succ p =>
              have := hlen (by omega)
              omega
      · exact ⟨0, rfl, by omega⟩

theorem mem_updateRequest {first last term : Int} {f : Request → Request} {r : Request}
    (h : r ∈ (s.updateRequest first last term f).inflight) :
    ∃ r₀ ∈ s.inflight, r = if r₀.firstSequence = first ∧ r₀.lastSequence = last ∧
      r₀.term = term then f r₀ else r₀ := by
  unfold updateRequest at h
  obtain ⟨r₀, hr₀, rfl⟩ := List.mem_map.mp h
  exact ⟨r₀, hr₀, rfl⟩

theorem updateRequest_ranges {first last term : Int} {f : Request → Request}
    (hf : ∀ r, (f r).range = r.range) :
    (s.updateRequest first last term f).inflight.map Request.range = s.inflight.map Request.range := by
  unfold updateRequest
  rw [List.map_map]
  apply List.map_congr_left
  intro r _
  simp only [Function.comp_apply]
  split
  · exact hf r
  · rfl

@[simp] theorem updateRequest_finished {first last term : Int} {f : Request → Request} :
    (s.updateRequest first last term f).finished = s.finished := rfl

/-- The predicate of the finished search holds of exactly the requests of
    the range. -/
theorem finished_match_iff (r : Request) (first last : Int) :
    (r.firstSequence = first && r.lastSequence = last) = true ↔ r.range = (first, last) := by
  simp [Request.range]

theorem inflight_match_iff (r : Request) (first last current : Int) :
    (r.firstSequence = first && r.lastSequence = last && r.term = current) = true ↔
      r.range = (first, last) ∧ r.term = current := by
  simp [Request.range, and_assoc]

theorem lookup_of_finished {first last : Int} (current : Int)
    (h : ∃ r ∈ s.finished, r.range = (first, last)) :
    ∃ r, s.lookup first last current = some r ∧ r ∈ s.finished ∧ r.range = (first, last) := by
  obtain ⟨r, hr, hrange⟩ := h
  have hsome : (s.finished.find? fun r => r.firstSequence = first && r.lastSequence = last).isSome :=
    List.find?_isSome.mpr ⟨r, hr, (finished_match_iff r first last).mpr hrange⟩
  obtain ⟨r', hfind⟩ := Option.isSome_iff_exists.mp hsome
  have hmatch := List.find?_some hfind
  refine ⟨r', ?_, List.mem_of_find?_eq_some hfind, (finished_match_iff r' first last).mp hmatch⟩
  unfold lookup
  rw [hfind]

theorem lookup_of_inflight {first last current : Int}
    (hfin : ∀ r ∈ s.finished, r.range ≠ (first, last))
    (h : ∃ r ∈ s.inflight, r.range = (first, last) ∧ r.term = current) :
    ∃ r, s.lookup first last current = some r ∧ r ∈ s.inflight ∧ r.range = (first, last) := by
  have hnone : (s.finished.find? fun r => r.firstSequence = first && r.lastSequence = last) = none := by
    rw [List.find?_eq_none]
    intro r hr hmatch
    exact hfin r hr ((finished_match_iff r first last).mp hmatch)
  obtain ⟨r, hr, hmatch⟩ := h
  have hsome : (s.inflight.find? fun r =>
      r.firstSequence = first && r.lastSequence = last && r.term = current).isSome :=
    List.find?_isSome.mpr ⟨r, hr, (inflight_match_iff r first last current).mpr hmatch⟩
  obtain ⟨r', hfind⟩ := Option.isSome_iff_exists.mp hsome
  have hmatch' := List.find?_some hfind
  refine ⟨r', ?_, List.mem_of_find?_eq_some hfind,
    ((inflight_match_iff r' first last current).mp hmatch').1⟩
  unfold lookup
  rw [hnone, hfind]

theorem lookup_eq_none {first last current : Int}
    (hfin : ∀ r ∈ s.finished, r.range ≠ (first, last))
    (hinf : ∀ r ∈ s.inflight, r.range ≠ (first, last)) : s.lookup first last current = none := by
  unfold lookup
  have hnone : (s.finished.find? fun r => r.firstSequence = first && r.lastSequence = last) = none := by
    rw [List.find?_eq_none]
    intro r hr hmatch
    exact hfin r hr ((finished_match_iff r first last).mp hmatch)
  rw [hnone, List.find?_eq_none]
  intro r hr hmatch
  exact hinf r hr ((inflight_match_iff r first last current).mp hmatch).1

theorem enqueue_eq (first last current : Int) : ∃ p,
    s.enqueue first last current =
      (.ok (newRequest first last current),
        ⟨(s.inflight ++ [newRequest first last current]).drop p, if p = 0 then s.finished else []⟩) ∧
      (0 < p → requestsCachedMax ≤ s.inflight.length + 1 - p) := by
  obtain ⟨p, heq, hlen⟩ := evictCompleted_eq (s.inflight ++ [newRequest first last current]) s.finished
  refine ⟨p, ?_, ?_⟩
  · unfold enqueue
    dsimp only
    rw [heq]
  · intro hp
    have := hlen hp
    rw [List.length_append, List.length_singleton] at this
    exact this

theorem promoteFront_sublist (inflight : List Request) (first last : Int) :
    (promoteFront inflight first last).Sublist inflight := by
  unfold promoteFront
  split
  · split
    · exact List.sublist_cons_self _ _
    · exact List.Sublist.refl _
  · exact List.Sublist.refl _

/-- The ranges left in flight: the front one goes when it is the applied
    range. -/
theorem promoteFront_ranges (inflight : List Request) (first last : Int) :
    (promoteFront inflight first last).map Request.range =
      if (inflight.map Request.range).head? = some (first, last) then (inflight.map Request.range).tail
      else inflight.map Request.range := by
  unfold promoteFront
  cases inflight with
  | nil => rfl
  | cons r rs =>
      dsimp only
      by_cases h : r.firstSequence = first ∧ r.lastSequence = last
      · rw [if_pos h, if_pos (by simp [Request.range, h.1, h.2])]
        rfl
      · rw [if_neg h, if_neg (by simp only [List.map_cons, List.head?_cons, Option.some.injEq,
          Request.range, Prod.mk.injEq]; exact h)]

/-- With every in-flight request in the current term, `stm_apply` only
    promotes and records. -/
theorem stmApply_eq {t : Int} (hterms : ∀ r ∈ s.inflight, r.term = t) (first last offset : Int) :
    s.stmApply first last t offset =
      ⟨promoteFront s.inflight first last,
        (s.finished ++ [finishedRequest first last offset]).drop
          (s.finished.length + 1 - requestsCachedMax)⟩ := by
  have hterms' : ∀ r ∈ promoteFront s.inflight first last, r.term = t :=
    fun r hr => hterms r ((promoteFront_sublist _ _ _).subset hr)
  unfold stmApply
  rw [gcRequestsFromOlderTerms_of_terms (s := { s with inflight := promoteFront s.inflight first last })
    hterms']
  simp only [List.length_append, List.length_singleton]

theorem completeRequest_ranges (first last term : Int) (result : Except Errc Int) :
    (s.completeRequest first last term result).inflight.map Request.range =
      s.inflight.map Request.range := by
  apply updateRequest_ranges
  intro r
  cases result with
  | ok o => exact r.range_setValue o
  | error e => exact r.range_setError e

/-- A completed request keeps its term, and a started one stays started. -/
theorem mem_completeRequest {first last term : Int} {result : Except Errc Int} {r : Request}
    (h : r ∈ (s.completeRequest first last term result).inflight) :
    ∃ r₀ ∈ s.inflight, r.term = r₀.term ∧ (r₀.state ≠ .initialized → r.state ≠ .initialized) := by
  obtain ⟨r₀, hr₀, rfl⟩ := mem_updateRequest h
  refine ⟨r₀, hr₀, ?_, ?_⟩
  · split
    · cases result with
      | ok o => exact r₀.term_setValue o
      | error e => exact r₀.term_setError e
    · rfl
  · intro hstarted
    split
    · cases result with
      | ok o => exact r₀.setValue_ne_initialized o hstarted
      | error e => exact r₀.setError_ne_initialized e hstarted
    · exact hstarted

section Emplace

variable {first last t : Int} (hterms : ∀ r ∈ s.inflight, r.term = t)
include hterms

/-- A cached range is answered with its request, the cache unchanged. -/
theorem tryEmplace_of_lookup {r : Request} (h : s.lookup first last t = some r) :
    s.tryEmplace first last t false = (.ok r, s) := by
  unfold tryEmplace
  rw [if_neg Bool.false_ne_true, gcRequestsFromOlderTerms_of_terms hterms]
  dsimp only
  rw [h]

/-- A range that is not cached and continues the sequence is enqueued. -/
theorem tryEmplace_of_valid (hnone : s.lookup first last t = none)
    (hvalid : s.isValidSequence first = true) :
    s.tryEmplace first last t false = s.enqueue first last t := by
  unfold tryEmplace
  rw [if_neg Bool.false_ne_true, gcRequestsFromOlderTerms_of_terms hterms]
  dsimp only
  rw [hnone, hvalid]
  rfl

/-- A range that is not cached and does not continue the sequence is
    refused, the cache unchanged. -/
theorem tryEmplace_of_invalid (hnone : s.lookup first last t = none)
    (hinvalid : s.isValidSequence first = false) :
    s.tryEmplace first last t false = (.error .sequenceOutOfOrder, s) := by
  unfold tryEmplace
  rw [if_neg Bool.false_ne_true, gcRequestsFromOlderTerms_of_terms hterms]
  dsimp only
  rw [hnone, hinvalid]
  rfl

end Emplace

end Requests

/-- `producer_state::try_emplace_request` (its `requests` part): a range
    that ends before it starts is malformed. -/
def tryEmplaceRequest (s : Requests) (first last currentTerm : Int) (reset : Bool) :
    Except Errc Request × Requests :=
  if first > last then (.error .invalidRequest, s)
  else s.tryEmplace first last currentTerm reset

/-- A batch that straddles `int32_t` max is malformed to
    `try_emplace_request`, whatever the cache: `increment_sequence` wraps its
    last sequence below its first. -/
theorem tryEmplaceRequest_of_straddles (s : Requests) {base delta : Int} (currentTerm : Int)
    (reset : Bool) (hdelta : delta ≤ seqMax) (hstraddle : seqMax < base + delta) :
    tryEmplaceRequest s base (incrementSequence base delta) currentTerm reset =
      (.error .invalidRequest, s) := by
  have hlast : incrementSequence base delta = base + delta - seqMax - 1 := by
    rw [incrementSequence, if_pos (by omega)]
    omega
  rw [tryEmplaceRequest, if_pos (by omega)]

/-- The start of `rm_stm::do_idempotent_replicate`: a request that is not
    new is answered with its result; a new one is marked in progress and
    replicated, which the last component reports. -/
def doIdempotentReplicate (s : Requests) (first last term : Int) (skipSequenceChecks : Bool) :
    Except Errc Request × Requests × Bool :=
  match tryEmplaceRequest s first last term skipSequenceChecks with
  | (.error e, s) => (.error e, s, false)
  | (.ok r, s) =>
      if r.state ≠ .initialized then (.ok r, s, false)
      else (.ok r.markRequestInProgress,
        s.updateRequest first last term Request.markRequestInProgress, true)

section Replicate

variable {s : Requests} {first last t : Int} (hle : first ≤ last)
  (hterms : ∀ r ∈ s.inflight, r.term = t)
include hle hterms

/-- A retry of a cached, started request is answered with it and not
    replicated again. -/
theorem doIdempotentReplicate_of_lookup {r : Request} (h : s.lookup first last t = some r)
    (hstarted : r.state ≠ .initialized) :
    doIdempotentReplicate s first last t false = (.ok r, s, false) := by
  unfold doIdempotentReplicate tryEmplaceRequest
  rw [if_neg (by omega), Requests.tryEmplace_of_lookup hterms h]
  dsimp only
  rw [if_pos hstarted]

/-- The next batch is enqueued, marked in progress and replicated. -/
theorem doIdempotentReplicate_of_valid (hnone : s.lookup first last t = none)
    (hvalid : s.isValidSequence first = true) :
    doIdempotentReplicate s first last t false =
      (.ok (Requests.newRequest first last t).markRequestInProgress,
        (s.enqueue first last t).2.updateRequest first last t Request.markRequestInProgress, true) := by
  obtain ⟨p, heq, -⟩ := s.enqueue_eq first last t
  unfold doIdempotentReplicate tryEmplaceRequest
  rw [if_neg (by omega), Requests.tryEmplace_of_valid hterms hnone hvalid, heq]
  dsimp only
  rw [if_neg (fun h => h rfl)]

end Replicate

end ProducerState
