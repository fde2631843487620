import Mathlib
import Redpanda.Utils.S3FifoInvariant

/-! # chunked_kv_cache: a lossy map over the s3-fifo cache

    Model of `utils/chunked_kv_cache.h`.  The index `_map` owns one
    `cached_value` per key; the entries are queued in an `s3_fifo::cache`
    whose evictor, `evict`, drops an evicted entry's value and links the
    entry on a second intrusive list, `_ghost_fifo`.  `gc_ghost_fifo`, at the
    head of both operations, destroys the entries at the front of that list
    that are no longer on the cache's ghost queue, and stops at the first
    one that still is.

    An entry is its key, which `cached_value::key` holds, and the number of
    entries of that key made before it: a new `cached_value` is a new entry,
    with a default-constructed hook.  The evictor's calls are read off the
    cache's log: it accepts every entry, so the entries the cache logged
    during an `insert` are those it was called on, in order
    (`S3Fifo.Inv.run_departs`).  `inserted` is a history variable that
    nothing reads: the value of the latest successful `try_insert` of each
    key.

    `KvInv` is what holds between the operations: every entry of the index
    is queued in the cache or linked on the ghost FIFO and never both, an
    entry on the ghost FIFO holds no value, and a queued entry holds the
    value of its key's latest successful `try_insert`.  So `get_value`
    returns nothing or that value, `try_insert` succeeds exactly when the
    key has no queued entry, and `gc_ghost_fifo` destroys only entries that
    are not queued (`chunked_kv_cache_sound`). -/

namespace Utils

open S3Fifo

/-- `s3_fifo::default_cache_cost`: every entry costs one. -/
def defaultCacheCost {E : Type} (_ : E) : Nat := 1

/-- `chunked_kv_cache::config`, the configuration of its `s3_fifo::cache`,
    whose constructor asserts that the small queue is smaller than the
    cache. -/
structure KvConfig where
  cacheSize : Nat
  smallSize : Nat
  small_lt_cache : smallSize < cacheSize

/-- The configuration of `_cache`: the sizes, and `default_cache_cost`. -/
def KvConfig.toConfig {K : Type} (L : KvConfig) : Config (K × Nat) :=
  ⟨L.cacheSize, L.smallSize, defaultCacheCost, L.small_lt_cache⟩

/-- A `chunked_kv_cache`: the index, the entries' values (`none` is the
    null pointer), the cache, the ghost FIFO, the number of entries made
    of each key, the two counters of `stat()`, and the history variable
    `inserted`. -/
structure ChunkedKvCache (K V : Type) where
  map : K → Option Nat
  values : K × Nat → Option V
  cache : Cache (K × Nat)
  ghostFifo : List (K × Nat)
  made : K → Nat
  hitCount : Nat
  accessCount : Nat
  inserted : K → Option V

namespace ChunkedKvCache

variable {K V : Type} [DecidableEq K] (L : KvConfig)

/-- A new cache. -/
def empty : ChunkedKvCache K V :=
  ⟨fun _ => none, fun _ => none, .empty, [], fun _ => 0, 0, 0, fun _ => none⟩

/-- `evict::operator()`, as the cache sees it: it accepts every entry. -/
def evict (_ : K × Nat) : Bool := true

/-- The side effects of `evict` on the entries it was called on, in
    order: `e.value = nullptr`, and `e` onto the back of `_ghost_fifo`. -/
def onEvicted (kv : ChunkedKvCache K V) (evicted : List (K × Nat)) : ChunkedKvCache K V :=
  { kv with
    values := fun e => if e ∈ evicted then none else kv.values e
    ghostFifo := kv.ghostFifo ++ evicted }

/-- `_cache.insert(entry)`, with the evictor's calls those the cache's log
    gained. -/
def cacheInsert (kv : ChunkedKvCache K V) (e : K × Nat) : ChunkedKvCache K V :=
  let c := kv.cache.insert L.toConfig evict e
  { kv.onEvicted ((c.departures.drop kv.cache.departures.length).map Departure.entry) with
    cache := c }

/-- The loop of `gc_ghost_fifo` over the ghost FIFO from the iterator:
    the entries before the first one still on the ghost queue are erased
    from `_ghost_fifo` and, by their key, from `_map`. -/
def gcGhostFifoLoop (kv : ChunkedKvCache K V) : List (K × Nat) → ChunkedKvCache K V
  | [] => { kv with ghostFifo := [] }
  | e :: rest =>
    if kv.cache.ghostQueueContains L.toConfig e then { kv with ghostFifo := e :: rest }
    else gcGhostFifoLoop { kv with map := Function.update kv.map e.1 none } rest

/-- `gc_ghost_fifo()`. -/
def gcGhostFifo (kv : ChunkedKvCache K V) : ChunkedKvCache K V :=
  kv.gcGhostFifoLoop L kv.ghostFifo

/-- `_map.try_emplace(key, std::make_unique<cached_value>(key, val))`: a
    new entry of the key, holding the value, with a default-constructed
    hook. -/
def emplace (kv : ChunkedKvCache K V) (key : K) (val : Option V) : ChunkedKvCache K V :=
  let e := (key, kv.made key)
  { kv with
    map := Function.update kv.map key (some (kv.made key))
    values := Function.update kv.values e val
    made := Function.update kv.made key (kv.made key + 1)
    cache := { kv.cache with hooks := Function.update kv.cache.hooks e .init } }

/-- `entry.value = std::move(val)` and `_ghost_fifo.erase(...)`, on an entry
    that the cache evicted. -/
def revive (kv : ChunkedKvCache K V) (e : K × Nat) (val : Option V) : ChunkedKvCache K V :=
  { kv with
    values := Function.update kv.values e val
    ghostFifo := kv.ghostFifo.erase e }

/-- The history variable: `val` is now the latest value inserted for the
    key. -/
def record (kv : ChunkedKvCache K V) (key : K) (val : Option V) : ChunkedKvCache K V :=
  { kv with inserted := Function.update kv.inserted key val }

/-- `try_insert(key, val)`: after `gc_ghost_fifo()`, a key with no entry
    gets a new one, linked; an entry that the cache evicted gets the value,
    leaves the ghost FIFO and is linked again; a linked entry is left
    alone, and the call fails.  (`try_emplace` after a failed `find` always
    succeeds.) -/
def tryInsert (kv : ChunkedKvCache K V) (key : K) (val : Option V) :
    Bool × ChunkedKvCache K V :=
  let kv := kv.gcGhostFifo L
  match kv.map key with
  | none => (true, (((kv.emplace key val).record key val).cacheInsert L (key, kv.made key)))
  | some n =>
    if kv.cache.evicted (key, n) then
      (true, ((kv.revive (key, n) val).record key val).cacheInsert L (key, n))
    else (false, kv)

/-- `get_value(key)`: after `gc_ghost_fifo()`, one more access; the value
    of a linked entry, which is touched and counts as a hit. -/
def getValue (kv : ChunkedKvCache K V) (key : K) : Option V × ChunkedKvCache K V :=
  let kv := kv.gcGhostFifo L
  let kv := { kv with accessCount := kv.accessCount + 1 }
  match kv.map key with
  | none => (none, kv)
  | some n =>
    if kv.cache.evicted (key, n) then (none, kv)
    else (kv.values (key, n), { kv with cache := kv.cache.touch (key, n), hitCount := kv.hitCount + 1 })

/-- The calls a user makes. -/
inductive Op (K V : Type) where
  | tryInsert (key : K) (val : Option V)
  | getValue (key : K)

/-- The state after a call. -/
def Op.run : Op K V → ChunkedKvCache K V → ChunkedKvCache K V
  | .tryInsert key val, kv => (kv.tryInsert L key val).2
  | .getValue key, kv => (kv.getValue L key).2

/-- The states that a sequence of calls builds from a new cache. -/
inductive Reachable : ChunkedKvCache K V → Prop where
  | empty : Reachable empty
  | step {kv : ChunkedKvCache K V} (op : Op K V) : Reachable kv → Reachable (op.run L kv)

/-! ## `gc_ghost_fifo` -/

/-- The loop erases the keys of the run of entries off the ghost queue at
    the front, and leaves the rest of the list. -/
theorem gcGhostFifoLoop_eq (kv : ChunkedKvCache K V) (l : List (K × Nat)) :
    kv.gcGhostFifoLoop L l =
      { kv with
        map := fun k => if k ∈ (l.takeWhile fun e => !kv.cache.ghostQueueContains L.toConfig e).map
          Prod.fst then none else kv.map k
        ghostFifo := l.dropWhile fun e => !kv.cache.ghostQueueContains L.toConfig e } := by
  induction l generalizing kv with
  | nil => simp [gcGhostFifoLoop]
  | cons e rest ih =>
    by_cases hg : kv.cache.ghostQueueContains L.toConfig e = true
    · simp [gcGhostFifoLoop, hg]
    · rw [gcGhostFifoLoop, if_neg hg, ih]
      -- one more key erased, in front of those the rest of the loop erases
      have hg' : (!kv.cache.ghostQueueContains L.toConfig e) = true := by simpa using hg
      simp only [List.takeWhile_cons, List.dropWhile_cons, hg', if_true, List.map_cons,
        List.mem_cons, mk.injEq, and_true]
      funext k
      by_cases hk : k = e.1
      · simp [hk]
      · simp only [hk, false_or, Function.update_of_ne hk]

theorem gcGhostFifo_eq (kv : ChunkedKvCache K V) :
    kv.gcGhostFifo L =
      { kv with
        map := fun k => if k ∈ (kv.ghostFifo.takeWhile fun e =>
          !kv.cache.ghostQueueContains L.toConfig e).map Prod.fst then none else kv.map k
        ghostFifo := kv.ghostFifo.dropWhile fun e => !kv.cache.ghostQueueContains L.toConfig e } :=
  gcGhostFifoLoop_eq L kv kv.ghostFifo

section Fields

variable (kv : ChunkedKvCache K V) (key : K) (val : Option V) (e : K × Nat)

@[simp] theorem gcGhostFifo_cache : (kv.gcGhostFifo L).cache = kv.cache := by
  rw [gcGhostFifo_eq]

@[simp] theorem gcGhostFifo_values : (kv.gcGhostFifo L).values = kv.values := by
  rw [gcGhostFifo_eq]

@[simp] theorem gcGhostFifo_made : (kv.gcGhostFifo L).made = kv.made := by
  rw [gcGhostFifo_eq]

@[simp] theorem gcGhostFifo_inserted : (kv.gcGhostFifo L).inserted = kv.inserted := by
  rw [gcGhostFifo_eq]

@[simp] theorem emplace_map :
    (kv.emplace key val).map = Function.update kv.map key (some (kv.made key)) := rfl

@[simp] theorem emplace_values :
    (kv.emplace key val).values = Function.update kv.values (key, kv.made key) val := rfl

@[simp] theorem emplace_made :
    (kv.emplace key val).made = Function.update kv.made key (kv.made key + 1) := rfl

@[simp] theorem emplace_ghostFifo : (kv.emplace key val).ghostFifo = kv.ghostFifo := rfl

@[simp] theorem emplace_inserted : (kv.emplace key val).inserted = kv.inserted := rfl

@[simp] theorem emplace_queued : (kv.emplace key val).cache.queued = kv.cache.queued := rfl

@[simp] theorem emplace_departures :
    (kv.emplace key val).cache.departures = kv.cache.departures := rfl

theorem emplace_cache : (kv.emplace key val).cache =
    { kv.cache with hooks := Function.update kv.cache.hooks (key, kv.made key) .init } := rfl

@[simp] theorem revive_map : (kv.revive e val).map = kv.map := rfl

@[simp] theorem revive_values : (kv.revive e val).values = Function.update kv.values e val := rfl

@[simp] theorem revive_ghostFifo : (kv.revive e val).ghostFifo = kv.ghostFifo.erase e := rfl

@[simp] theorem revive_made : (kv.revive e val).made = kv.made := rfl

@[simp] theorem revive_cache : (kv.revive e val).cache = kv.cache := rfl

@[simp] theorem revive_inserted : (kv.revive e val).inserted = kv.inserted := rfl

@[simp] theorem record_map : (kv.record key val).map = kv.map := rfl

@[simp] theorem record_values : (kv.record key val).values = kv.values := rfl

@[simp] theorem record_ghostFifo : (kv.record key val).ghostFifo = kv.ghostFifo := rfl

@[simp] theorem record_made : (kv.record key val).made = kv.made := rfl

@[simp] theorem record_cache : (kv.record key val).cache = kv.cache := rfl

@[simp] theorem record_inserted :
    (kv.record key val).inserted = Function.update kv.inserted key val := rfl

@[simp] theorem cacheInsert_map : (kv.cacheInsert L e).map = kv.map := rfl

@[simp] theorem cacheInsert_inserted : (kv.cacheInsert L e).inserted = kv.inserted := rfl

theorem cacheInsert_cache : (kv.cacheInsert L e).cache = kv.cache.insert L.toConfig evict e := rfl

end Fields

/-! ## The branches of the calls -/

section Branches

variable {L} {kv : ChunkedKvCache K V} {key : K} {val : Option V} {n : Nat}

theorem tryInsert_of_none (h : (kv.gcGhostFifo L).map key = none) :
    kv.tryInsert L key val =
      (true, (((kv.gcGhostFifo L).emplace key val).record key val).cacheInsert L
        (key, (kv.gcGhostFifo L).made key)) := by
  unfold tryInsert
  simp only [h]

theorem tryInsert_of_evicted (h : (kv.gcGhostFifo L).map key = some n)
    (hev : (key, n) ∉ kv.cache.queued) :
    kv.tryInsert L key val =
      (true, (((kv.gcGhostFifo L).revive (key, n) val).record key val).cacheInsert L (key, n)) := by
  have hev' : kv.cache.evicted (key, n) = true := by simpa [Cache.evicted] using hev
  unfold tryInsert
  simp only [h, gcGhostFifo_cache, hev', if_true]

theorem tryInsert_of_queued (h : (kv.gcGhostFifo L).map key = some n)
    (hq : (key, n) ∈ kv.cache.queued) :
    kv.tryInsert L key val = (false, kv.gcGhostFifo L) := by
  have hev' : kv.cache.evicted (key, n) = false := by simpa [Cache.evicted] using hq
  unfold tryInsert
  simp only [h, gcGhostFifo_cache, hev', Bool.false_eq_true, if_false]

theorem getValue_of_none (h : (kv.gcGhostFifo L).map key = none) :
    kv.getValue L key =
      (none, { kv.gcGhostFifo L with accessCount := (kv.gcGhostFifo L).accessCount + 1 }) := by
  unfold getValue
  simp only [h]

theorem getValue_of_evicted (h : (kv.gcGhostFifo L).map key = some n)
    (hev : (key, n) ∉ kv.cache.queued) :
    kv.getValue L key =
      (none, { kv.gcGhostFifo L with accessCount := (kv.gcGhostFifo L).accessCount + 1 }) := by
  have hev' : kv.cache.evicted (key, n) = true := by simpa [Cache.evicted] using hev
  unfold getValue
  simp only [h, gcGhostFifo_cache, hev', if_true]

theorem getValue_of_queued (h : (kv.gcGhostFifo L).map key = some n)
    (hq : (key, n) ∈ kv.cache.queued) :
    kv.getValue L key =
      (kv.values (key, n),
        { kv.gcGhostFifo L with
          accessCount := (kv.gcGhostFifo L).accessCount + 1
          cache := kv.cache.touch (key, n)
          hitCount := (kv.gcGhostFifo L).hitCount + 1 }) := by
  have hev' : kv.cache.evicted (key, n) = false := by simpa [Cache.evicted] using hq
  unfold getValue
  simp only [h, gcGhostFifo_cache, hev', Bool.false_eq_true, if_false, gcGhostFifo_values]

end Branches

/-! ## The invariant -/

/-- What holds of a cache between its calls, and inside `try_insert`
    between making or unlinking an entry and linking it: the cache keeps
    its own invariant; an entry is numbered below the count of its key; the
    queued entries and those on the ghost FIFO belong to the index and are
    never on both, the ghost FIFO holds each once; a queued entry holds its
    key's latest inserted value, and one on the ghost FIFO holds none. -/
structure Owned (kv : ChunkedKvCache K V) : Prop where
  cache_inv : Inv L.toConfig kv.cache
  owned_lt : ∀ k n, kv.map k = some n → n < kv.made k
  departed_lt : ∀ d ∈ kv.cache.departures, d.entry.2 < kv.made d.entry.1
  queued_owned : ∀ e ∈ kv.cache.queued, kv.map e.1 = some e.2
  ghost_owned : ∀ e ∈ kv.ghostFifo, kv.map e.1 = some e.2
  disjoint : ∀ e ∈ kv.cache.queued, e ∉ kv.ghostFifo
  ghost_nodup : kv.ghostFifo.Nodup
  value_of : ∀ e ∈ kv.cache.queued, kv.values e = kv.inserted e.1
  ghost_value : ∀ e ∈ kv.ghostFifo, kv.values e = none

/-- The invariant between calls: besides, every entry of the index is
    queued in the cache or on the ghost FIFO. -/
structure KvInv (kv : ChunkedKvCache K V) : Prop extends Owned L kv where
  linked : ∀ k n, kv.map k = some n → (k, n) ∈ kv.cache.queued ∨ (k, n) ∈ kv.ghostFifo

omit [DecidableEq K] in
theorem kvInv_empty : KvInv L (empty : ChunkedKvCache K V) where
  cache_inv := inv_empty
  owned_lt _ _ h := by cases h
  departed_lt _ h := by cases h
  queued_owned _ h := by cases h
  ghost_owned _ h := by cases h
  disjoint _ h := by cases h
  ghost_nodup := List.nodup_nil
  value_of _ h := by cases h
  ghost_value _ h := by cases h
  linked _ _ h := by cases h

/-- A hook set back to a default-constructed one keeps the cache's
    invariant when its entry is not linked and never left the FIFOs: the
    entry is a new one. -/
theorem inv_resetHook {E : Type} [DecidableEq E] {C : Config E} {c : Cache E} {x : E}
    (h : Inv C c) (hx : x ∉ c.queued) (hd : ∀ d ∈ c.departures, d.entry ≠ x) :
    Inv C { c with hooks := Function.update c.hooks x .init } := by
  have hq : ∀ e ∈ c.queued, e ≠ x := fun e he hex => hx (hex ▸ he)
  refine ⟨⟨h.small_size, h.main_size, fun e he => ?_, fun e he => ?_, h.nodup⟩,
    ⟨h.age_eq, fun e t het => ?_, fun e pre he hl => ?_⟩⟩
  · simp only [Function.update_of_ne (hq e (List.mem_append_left _ he))]
    exact h.small_location e he
  · simp only [Function.update_of_ne (hq e (List.mem_append_right _ he))]
    exact h.main_location e he
  · by_cases hex : e = x
    · subst hex
      have hinit : (Function.update c.hooks e CacheHook.init e).ghostInsertionTime = some t := het
      simp [CacheHook.init] at hinit
    · simp only [Function.update_of_ne hex] at het
      exact h.time_of e t het
  · -- an entry with a departure in the log is not the new one
    have hex : e ≠ x := by
      rintro rfl
      obtain ⟨post, hlog, -⟩ := hl
      have hlog' : c.departures = pre ++ .smallEviction e :: post := hlog
      exact hd (.smallEviction e) (by simp [hlog']) rfl
    show (Function.update c.hooks x .init e).ghostInsertionTime = _
    rw [Function.update_of_ne hex]
    exact h.time_set e pre he hl

/-- `insert` links the entry it is given. -/
theorem mem_queued_insert {E : Type} [DecidableEq E] (C : Config E) (ev : E → Bool) (c : Cache E)
    (e : E) : e ∈ (c.insert C ev e).queued := by
  simp only [Cache.insert]
  split <;> simp [Cache.queued, Cache.pushMain, Cache.pushSmall]

variable {L} {kv : ChunkedKvCache K V}

/-- `_cache.insert` of an entry that is not linked: the log gains the
    evictions of entries that were linked, the evictor's effects fall on
    them in that order, and they and the new entry account for the change
    of the FIFOs. -/
theorem cacheInsert_spec (h : Inv L.toConfig kv.cache) {e : K × Nat} (he : e ∉ kv.cache.queued) :
    ∃ new : List (Departure (K × Nat)),
      (kv.cache.insert L.toConfig evict e).departures = kv.cache.departures ++ new ∧
      kv.cacheInsert L e =
        { kv with
          values := fun x => if x ∈ new.map Departure.entry then none else kv.values x
          ghostFifo := kv.ghostFifo ++ new.map Departure.entry
          cache := kv.cache.insert L.toConfig evict e } ∧
      ((kv.cache.insert L.toConfig evict e).queued ++ new.map Departure.entry).Perm
        (kv.cache.queued ++ [e]) := by
  obtain ⟨new, hlog, -, hperm⟩ := h.run_departs (.insert evict e) he
  refine ⟨new, hlog, ?_, hperm⟩
  have hdrop : ((kv.cache.insert L.toConfig evict e).departures.drop
      kv.cache.departures.length) = new := by
    rw [show (kv.cache.insert L.toConfig evict e) = (Op.insert evict e).run L.toConfig kv.cache
      from rfl, hlog, List.drop_left]
  simp only [cacheInsert, onEvicted, hdrop]

/-- Linking an entry of the index that is neither queued nor on the ghost
    FIFO and holds its key's latest value restores the invariant, when every
    other entry of the index is linked. -/
theorem Owned.cacheInsert (h : Owned L kv) {e : K × Nat} (he : kv.map e.1 = some e.2)
    (hq : e ∉ kv.cache.queued) (hg : e ∉ kv.ghostFifo) (hv : kv.values e = kv.inserted e.1)
    (hl : ∀ k n, kv.map k = some n → (k, n) ≠ e →
      (k, n) ∈ kv.cache.queued ∨ (k, n) ∈ kv.ghostFifo) :
    KvInv L (kv.cacheInsert L e) := by
  obtain ⟨new, hlog, hkv, hperm⟩ := cacheInsert_spec h.cache_inv hq
  rw [hkv]
  set c' := kv.cache.insert L.toConfig evict e
  set ev := new.map Departure.entry
  have hnd : (c'.queued ++ ev).Nodup :=
    hperm.nodup_iff.2 (List.nodup_append.2 ⟨h.cache_inv.nodup, List.nodup_singleton e,
      fun x hx y hy hxy => hq (by rw [← List.mem_singleton.1 hy, ← hxy]; exact hx)⟩)
  -- an entry queued or evicted now was queued before, or is the new one
  have hmem : ∀ x, x ∈ c'.queued ∨ x ∈ ev ↔ x ∈ kv.cache.queued ∨ x = e := by
    intro x
    simpa using hperm.mem_iff (a := x)
  have hsep : ∀ x ∈ c'.queued, x ∉ ev := fun x hx hev =>
    List.disjoint_of_nodup_append hnd hx hev
  have hev : ∀ x ∈ ev, x ∈ kv.cache.queued := by
    intro x hx
    rcases (hmem x).1 (.inr hx) with hx' | rfl
    · exact hx'
    · exact absurd hx (hsep _ (mem_queued_insert _ _ _ _))
  have hown : ∀ x, x ∈ kv.cache.queued ∨ x = e → kv.map x.1 = some x.2 := by
    rintro x (hx | rfl)
    · exact h.queued_owned x hx
    · exact he
  refine ⟨⟨h.cache_inv.insert evict hq, h.owned_lt, ?_, ?_, ?_, ?_, ?_, ?_, ?_⟩, ?_⟩
  · -- the new departures are of owned entries
    intro d hd
    rw [hlog, List.mem_append] at hd
    rcases hd with hd | hd
    · exact h.departed_lt d hd
    · have hx := hev d.entry (List.mem_map_of_mem hd)
      exact h.owned_lt _ _ (h.queued_owned _ hx)
  · exact fun x hx => hown x ((hmem x).1 (.inl hx))
  · intro x hx
    rcases List.mem_append.1 hx with hx | hx
    · exact h.ghost_owned x hx
    · exact h.queued_owned x (hev x hx)
  · intro x hx hgx
    rcases List.mem_append.1 hgx with hgx' | hgx'
    · rcases (hmem x).1 (.inl hx) with hx' | rfl
      · exact h.disjoint x hx' hgx'
      · exact hg hgx'
    · exact hsep x hx hgx'
  · refine List.nodup_append.2 ⟨h.ghost_nodup, (List.nodup_append.1 hnd).2.1, ?_⟩
    intro x hx y hy hxy
    subst hxy
    exact h.disjoint x (hev x hy) hx
  · intro x hx
    show (if x ∈ ev then none else kv.values x) = kv.inserted x.1
    rw [if_neg (hsep x hx)]
    rcases (hmem x).1 (.inl hx) with hx' | rfl
    · exact h.value_of x hx'
    · exact hv
  · intro x hx
    show (if x ∈ ev then none else kv.values x) = none
    by_cases hxe : x ∈ ev
    · rw [if_pos hxe]
    · rw [if_neg hxe]
      exact h.ghost_value x ((List.mem_append.1 hx).resolve_right hxe)
  · -- the new entry is queued; another one stays queued, or went to the ghost FIFO
    intro k n hkn
    by_cases hke : (k, n) = e
    · exact .inl (hke ▸ mem_queued_insert _ _ _ _)
    · rcases hl k n hkn hke with hx | hx
      · rcases (hmem (k, n)).2 (.inl hx) with hx' | hx'
        · exact .inl hx'
        · exact .inr (List.mem_append_right _ hx')
      · exact .inr (List.mem_append_left _ hx)


/-! ## The calls keep the invariant -/

/-- An entry of the index survives `gc_ghost_fifo` unless it is in the run
    at the front of the ghost FIFO that is off the ghost queue: the key of
    a destroyed entry names only that entry. -/
theorem KvInv.map_gcGhostFifo (h : KvInv L kv) (k : K) (n : Nat) :
    (kv.gcGhostFifo L).map k = some n ↔ kv.map k = some n ∧
      (k, n) ∉ kv.ghostFifo.takeWhile fun e => !kv.cache.ghostQueueContains L.toConfig e := by
  rw [gcGhostFifo_eq]
  set D := kv.ghostFifo.takeWhile fun e => !kv.cache.ghostQueueContains L.toConfig e
  show (if k ∈ D.map Prod.fst then none else kv.map k) = some n ↔ _
  by_cases hk : k ∈ D.map Prod.fst
  · rw [if_pos hk]
    obtain ⟨d, hd, rfl⟩ := List.mem_map.1 hk
    have hown := h.ghost_owned d ((List.takeWhile_sublist _).subset hd)
    simp only [reduceCtorEq, false_iff, not_and, not_not]
    intro hkn
    rw [hown, Option.some.injEq] at hkn
    rw [← hkn]
    exact hd
  · rw [if_neg hk]
    exact ⟨fun hkn => ⟨hkn, fun hD => hk (List.mem_map_of_mem hD)⟩, fun h => h.1⟩

/-- `gc_ghost_fifo` keeps every queued entry of the index. -/
theorem KvInv.map_gcGhostFifo_of_queued (h : KvInv L kv) {k : K} {n : Nat} (hkn : kv.map k = some n)
    (hq : (k, n) ∈ kv.cache.queued) : (kv.gcGhostFifo L).map k = some n :=
  (h.map_gcGhostFifo k n).2 ⟨hkn, fun hD => h.disjoint _ hq ((List.takeWhile_sublist _).subset hD)⟩

theorem KvInv.gcGhostFifo (h : KvInv L kv) : KvInv L (kv.gcGhostFifo L) := by
  set D := kv.ghostFifo.takeWhile fun e => !kv.cache.ghostQueueContains L.toConfig e
  set R := kv.ghostFifo.dropWhile fun e => !kv.cache.ghostQueueContains L.toConfig e
  have hsplit : D ++ R = kv.ghostFifo := List.takeWhile_append_dropWhile
  have hghost : (kv.gcGhostFifo L).ghostFifo = R := by rw [gcGhostFifo_eq]
  have hnd : (D ++ R).Nodup := hsplit ▸ h.ghost_nodup
  have hD : ∀ e ∈ D, e ∈ kv.ghostFifo := fun e he => hsplit ▸ List.mem_append_left _ he
  have hR : ∀ e ∈ R, e ∈ kv.ghostFifo := fun e he => hsplit ▸ List.mem_append_right _ he
  have hmap := h.map_gcGhostFifo
  have hqueued : ∀ e ∈ kv.cache.queued, (kv.gcGhostFifo L).map e.1 = some e.2 := fun e he =>
    h.map_gcGhostFifo_of_queued (h.queued_owned e he) he
  refine ⟨⟨?_, ?_, ?_, ?_, ?_, ?_, ?_, ?_, ?_⟩, ?_⟩
  · rw [gcGhostFifo_cache]
    exact h.cache_inv
  · intro k n hkn
    rw [gcGhostFifo_made]
    exact h.owned_lt k n ((hmap k n).1 hkn).1
  · simpa using h.departed_lt
  · simpa using hqueued
  · rw [hghost]
    intro e he
    exact (hmap e.1 e.2).2 ⟨h.ghost_owned e (hR e he),
      fun heD => List.disjoint_of_nodup_append hnd heD he⟩
  · rw [hghost, gcGhostFifo_cache]
    exact fun e he heR => h.disjoint e he (hR e heR)
  · rw [hghost]
    exact (List.nodup_append.1 hnd).2.1
  · simpa using h.value_of
  · rw [hghost, gcGhostFifo_values]
    exact fun e he => h.ghost_value e (hR e he)
  · -- an entry that stays was queued, or on the ghost FIFO past the run
    intro k n hkn
    obtain ⟨hkn, hnD⟩ := (hmap k n).1 hkn
    rw [hghost, gcGhostFifo_cache]
    rcases h.linked k n hkn with hq | hg
    · exact .inl hq
    · rw [← hsplit] at hg
      exact .inr ((List.mem_append.1 hg).resolve_left hnD)


/-- A new entry of a key with no entry, holding the inserted value, keeps
    the invariant once linked: it is not linked yet, and no departure in
    the cache's log is of it. -/
theorem KvInv.emplace (h : KvInv L kv) {key : K} (hkey : kv.map key = none) (val : Option V) :
    KvInv L (((kv.emplace key val).record key val).cacheInsert L (key, kv.made key)) := by
  -- no entry of the index has the key
  have hq : ∀ x ∈ kv.cache.queued, x.1 ≠ key := fun x hx hxk => by
    have hown := h.queued_owned x hx
    rw [hxk, hkey] at hown
    cases hown
  have hg : ∀ x ∈ kv.ghostFifo, x.1 ≠ key := fun x hx hxk => by
    have hown := h.ghost_owned x hx
    rw [hxk, hkey] at hown
    cases hown
  have hfresh : ∀ d ∈ kv.cache.departures, d.entry ≠ (key, kv.made key) := fun d hd hde => by
    have hlt := h.departed_lt d hd
    rw [hde] at hlt
    exact lt_irrefl _ hlt
  have hne : ∀ x : K × Nat, x.1 ≠ key → x ≠ (key, kv.made key) := fun x hx hxe => hx (by rw [hxe])
  apply Owned.cacheInsert
  · refine ⟨?_, ?_, ?_, ?_, ?_, ?_, ?_, ?_, ?_⟩
    · rw [record_cache, emplace_cache]
      exact inv_resetHook h.cache_inv (fun he => hq _ he rfl) hfresh
    · intro k n hkn
      simp only [record_map, emplace_map, record_made, emplace_made] at hkn ⊢
      by_cases hk : k = key
      · subst hk
        simp only [Function.update_self, Option.some.injEq] at hkn ⊢
        omega
      · rw [Function.update_of_ne hk] at hkn ⊢
        exact h.owned_lt k n hkn
    · intro d hd
      simp only [record_cache, emplace_departures, record_made, emplace_made] at hd ⊢
      have hlt := h.departed_lt d hd
      by_cases hk : d.entry.1 = key
      · rw [hk] at hlt ⊢
        simp only [Function.update_self]
        omega
      · rw [Function.update_of_ne hk]
        exact hlt
    · intro x hx
      simp only [record_cache, emplace_queued, record_map, emplace_map] at hx ⊢
      rw [Function.update_of_ne (hq x hx)]
      exact h.queued_owned x hx
    · intro x hx
      simp only [record_ghostFifo, emplace_ghostFifo, record_map, emplace_map] at hx ⊢
      rw [Function.update_of_ne (hg x hx)]
      exact h.ghost_owned x hx
    · simpa using h.disjoint
    · simpa using h.ghost_nodup
    · intro x hx
      simp only [record_cache, emplace_queued, record_values, emplace_values, record_inserted,
        emplace_inserted] at hx ⊢
      rw [Function.update_of_ne (hne x (hq x hx)), Function.update_of_ne (hq x hx)]
      exact h.value_of x hx
    · intro x hx
      simp only [record_ghostFifo, emplace_ghostFifo, record_values, emplace_values] at hx ⊢
      rw [Function.update_of_ne (hne x (hg x hx))]
      exact h.ghost_value x hx
  · simp
  · simpa using fun he => hq _ he rfl
  · simpa using fun he => hg _ he rfl
  · simp
  · -- every other entry of the index is an old one, and linked
    intro k n hkn hke
    simp only [record_map, emplace_map, record_cache, emplace_queued, record_ghostFifo,
      emplace_ghostFifo] at hkn ⊢
    have hk : k ≠ key := by
      rintro rfl
      simp only [Function.update_self, Option.some.injEq] at hkn
      exact hke (by rw [hkn])
    rw [Function.update_of_ne hk] at hkn
    exact h.linked k n hkn

/-- An evicted entry of the index, given the inserted value and taken off
    the ghost FIFO, keeps the invariant once linked again. -/
theorem KvInv.revive (h : KvInv L kv) {key : K} {n : Nat} (hkey : kv.map key = some n)
    (hev : (key, n) ∉ kv.cache.queued) (val : Option V) :
    KvInv L (((kv.revive (key, n) val).record key val).cacheInsert L (key, n)) := by
  have hghost : (key, n) ∈ kv.ghostFifo := (h.linked key n hkey).resolve_left hev
  -- a queued entry of the same key would be this one
  have hq : ∀ x ∈ kv.cache.queued, x.1 ≠ key := fun x hx hxk => by
    have hown := h.queued_owned x hx
    rw [hxk, hkey, Option.some.injEq] at hown
    exact hev (by rw [hown, ← hxk]; exact hx)
  have hne : ∀ x : K × Nat, x.1 ≠ key → x ≠ (key, n) := fun x hx hxe => hx (by rw [hxe])
  have herase : ∀ x ∈ kv.ghostFifo.erase (key, n), x ≠ (key, n) ∧ x ∈ kv.ghostFifo :=
    fun x hx => (h.ghost_nodup.mem_erase_iff).1 hx
  apply Owned.cacheInsert
  · refine ⟨?_, ?_, ?_, ?_, ?_, ?_, ?_, ?_, ?_⟩
    · simpa using h.cache_inv
    · simpa using h.owned_lt
    · simpa using h.departed_lt
    · simpa using h.queued_owned
    · intro x hx
      simp only [record_ghostFifo, revive_ghostFifo, record_map, revive_map] at hx ⊢
      exact h.ghost_owned x (herase x hx).2
    · intro x hx hxg
      simp only [record_ghostFifo, revive_ghostFifo, record_cache, revive_cache] at hx hxg
      exact h.disjoint x hx (herase x hxg).2
    · simpa using h.ghost_nodup.erase (key, n)
    · intro x hx
      simp only [record_cache, revive_cache, record_values, revive_values, record_inserted,
        revive_inserted] at hx ⊢
      rw [Function.update_of_ne (hne x (hq x hx)), Function.update_of_ne (hq x hx)]
      exact h.value_of x hx
    · intro x hx
      simp only [record_ghostFifo, revive_ghostFifo, record_values, revive_values] at hx ⊢
      rw [Function.update_of_ne (herase x hx).1]
      exact h.ghost_value x (herase x hx).2
  · simpa using hkey
  · simpa using hev
  · simpa using h.ghost_nodup.not_mem_erase
  · simp
  · intro k m hkm hke
    simp only [record_map, revive_map, record_cache, revive_cache, record_ghostFifo,
      revive_ghostFifo] at hkm ⊢
    rcases h.linked k m hkm with hq' | hg'
    · exact .inl hq'
    · exact .inr ((List.mem_erase_of_ne hke).2 hg')

theorem KvInv.tryInsert (h : KvInv L kv) (key : K) (val : Option V) :
    KvInv L (kv.tryInsert L key val).2 := by
  have hg := h.gcGhostFifo
  rcases hm : (kv.gcGhostFifo L).map key with _ | n
  · rw [tryInsert_of_none hm]
    exact hg.emplace hm val
  · by_cases hq : (key, n) ∈ kv.cache.queued
    · rw [tryInsert_of_queued hm hq]
      exact hg
    · rw [tryInsert_of_evicted hm hq]
      exact hg.revive hm (by simpa using hq) val

omit [DecidableEq K] in
/-- The counters and the hooks' frequencies are not in the invariant. -/
theorem KvInv.withCache (h : KvInv L kv) {c : Cache (K × Nat)} (hc : Inv L.toConfig c)
    (hq : c.queued = kv.cache.queued) (hd : c.departures = kv.cache.departures) (hits accesses : Nat) :
    KvInv L { kv with cache := c, hitCount := hits, accessCount := accesses } := by
  refine ⟨⟨hc, h.owned_lt, ?_, ?_, h.ghost_owned, ?_, h.ghost_nodup, ?_, h.ghost_value⟩, ?_⟩ <;>
    simp only [hq, hd]
  exacts [h.departed_lt, h.queued_owned, h.disjoint, h.value_of, h.linked]

theorem KvInv.getValue (h : KvInv L kv) (key : K) : KvInv L (kv.getValue L key).2 := by
  have hg := h.gcGhostFifo
  rcases hm : (kv.gcGhostFifo L).map key with _ | n
  · rw [getValue_of_none hm]
    exact hg.withCache hg.cache_inv rfl rfl _ _
  · by_cases hq : (key, n) ∈ kv.cache.queued
    · rw [getValue_of_queued hm hq]
      exact hg.withCache h.cache_inv.touch (by rw [gcGhostFifo_cache]; rfl)
        (by rw [gcGhostFifo_cache]; rfl) _ _
    · rw [getValue_of_evicted hm hq]
      exact hg.withCache hg.cache_inv rfl rfl _ _

theorem Reachable.kvInv (h : Reachable L kv) : KvInv L kv := by
  induction h with
  | empty => exact kvInv_empty L
  | step op _ ih =>
    cases op with
    | tryInsert key val => exact ih.tryInsert key val
    | getValue key => exact ih.getValue key

/-! ## What the calls return -/

/-- `get_value` returns nothing, or the value of the key's latest
    successful `try_insert`: the entry it reads is queued. -/
theorem KvInv.getValue_fst (h : KvInv L kv) (key : K) :
    (kv.getValue L key).1 = none ∨ (kv.getValue L key).1 = kv.inserted key := by
  rcases hm : (kv.gcGhostFifo L).map key with _ | n
  · exact .inl (by rw [getValue_of_none hm])
  · by_cases hq : (key, n) ∈ kv.cache.queued
    · have hn := ((h.map_gcGhostFifo key n).1 hm).1
      exact .inr (by rw [getValue_of_queued hm hq, h.value_of _ hq])
    · exact .inl (by rw [getValue_of_evicted hm hq])

/-- `try_insert` succeeds exactly when the key has no queued entry:
    `gc_ghost_fifo` keeps the queued entries, and the entry of the index
    that is not queued is taken back. -/
theorem KvInv.tryInsert_fst (h : KvInv L kv) (key : K) (val : Option V) :
    (kv.tryInsert L key val).1 = true ↔
      ¬ ∃ n, kv.map key = some n ∧ (key, n) ∈ kv.cache.queued := by
  rcases hm : (kv.gcGhostFifo L).map key with _ | n
  · -- no entry after the collection, so none was queued before it
    rw [tryInsert_of_none hm]
    simp only [true_iff, not_exists, not_and]
    intro n hn hq
    rw [h.map_gcGhostFifo_of_queued hn hq] at hm
    cases hm
  · have hn := ((h.map_gcGhostFifo key n).1 hm).1
    by_cases hq : (key, n) ∈ kv.cache.queued
    · rw [tryInsert_of_queued hm hq]
      simpa using ⟨n, hn, hq⟩
    · rw [tryInsert_of_evicted hm hq]
      simp only [true_iff, not_exists, not_and]
      intro m hm' hq'
      rw [hn, Option.some.injEq] at hm'
      exact hq (hm' ▸ hq')

/-- `get_value` of a key whose entry is queued returns its value, the
    key's latest inserted one. -/
theorem KvInv.getValue_fst_of_queued (h : KvInv L kv) {key : K} {n : Nat} (hkn : kv.map key = some n)
    (hq : (key, n) ∈ kv.cache.queued) : (kv.getValue L key).1 = kv.inserted key := by
  rw [getValue_of_queued (h.map_gcGhostFifo_of_queued hkn hq) hq, h.value_of _ hq]

/-- After `try_insert` the key has a queued entry: the new one, the one
    taken back, or the one that made the call fail; and the latest inserted
    value is the call's exactly when it succeeded. -/
theorem tryInsert_queued (kv : ChunkedKvCache K V) (key : K) (val : Option V) :
    (∃ n, (kv.tryInsert L key val).2.map key = some n ∧
      (key, n) ∈ (kv.tryInsert L key val).2.cache.queued) ∧
      (kv.tryInsert L key val).2.inserted key =
        if (kv.tryInsert L key val).1 then val else kv.inserted key := by
  rcases hm : (kv.gcGhostFifo L).map key with _ | n
  · rw [tryInsert_of_none hm]
    refine ⟨⟨(kv.gcGhostFifo L).made key, by simp, ?_⟩, by simp⟩
    rw [cacheInsert_cache]
    exact mem_queued_insert _ _ _ _
  · by_cases hq : (key, n) ∈ kv.cache.queued
    · rw [tryInsert_of_queued hm hq]
      exact ⟨⟨n, hm, by simpa using hq⟩, by simp⟩
    · rw [tryInsert_of_evicted hm hq]
      refine ⟨⟨n, by simpa using hm, ?_⟩, by simp⟩
      rw [cacheInsert_cache]
      exact mem_queued_insert _ _ _ _

/-- **Read your write**: right after `try_insert(key, val)`, `get_value(key)`
    returns `val` when the insert succeeded, and otherwise the value already
    there: the cache links the inserted entry after it evicts, and
    `gc_ghost_fifo` keeps it. -/
theorem tryInsert_getValue {kv : ChunkedKvCache K V} (h : Reachable L kv) (key : K)
    (val : Option V) :
    ((kv.tryInsert L key val).2.getValue L key).1 =
      if (kv.tryInsert L key val).1 then val else kv.inserted key := by
  have hi := h.kvInv
  obtain ⟨⟨n, hkn, hq⟩, hins⟩ := tryInsert_queued kv key val
  rw [(hi.tryInsert key val).getValue_fst_of_queued hkn hq, hins]

/-- **chunked_kv_cache is a sound lossy map**: over every run, `get_value`
    returns nothing or the value of the key's latest successful
    `try_insert`, and right after a `try_insert` it returns that insert's
    value if it succeeded; `try_insert` succeeds exactly when the key has no queued
    entry; every entry of the index is queued or on the ghost FIFO and never
    both, and `gc_ghost_fifo` destroys no queued entry. -/
theorem chunked_kv_cache_sound {kv : ChunkedKvCache K V} (h : Reachable L kv) :
    (∀ key, (kv.getValue L key).1 = none ∨ (kv.getValue L key).1 = kv.inserted key) ∧
      (∀ key val, ((kv.tryInsert L key val).2.getValue L key).1 =
        if (kv.tryInsert L key val).1 then val else kv.inserted key) ∧
      (∀ key val, (kv.tryInsert L key val).1 = true ↔
        ¬ ∃ n, kv.map key = some n ∧ (key, n) ∈ kv.cache.queued) ∧
      (∀ key n, kv.map key = some n → ((key, n) ∈ kv.cache.queued ↔ (key, n) ∉ kv.ghostFifo)) ∧
      (∀ key n, kv.map key = some n → (kv.gcGhostFifo L).map key ≠ some n →
        (key, n) ∉ kv.cache.queued) := by
  have hi := h.kvInv
  refine ⟨hi.getValue_fst, tryInsert_getValue h, hi.tryInsert_fst, fun key n hkn => ?_,
    fun key n hkn hgc hq => ?_⟩
  · exact ⟨fun hq hg => hi.disjoint _ hq hg, fun hg => (hi.linked key n hkn).resolve_right hg⟩
  · exact hgc (hi.map_gcGhostFifo_of_queued hkn hq)

/-- A cache of two with room for one in the small queue, after three
    inserts: the third evicts, and everything the theorem says holds. -/
theorem chunked_kv_cache_sound_three :
    let L : KvConfig := ⟨2, 1, by decide⟩
    let kv := (Op.tryInsert 3 (some 30)).run L ((Op.tryInsert 2 (some 20)).run L
      ((Op.tryInsert 1 (some 10)).run L (empty : ChunkedKvCache Nat Nat)))
    (∀ key, (kv.getValue L key).1 = none ∨ (kv.getValue L key).1 = kv.inserted key) ∧
      (∀ key val, ((kv.tryInsert L key val).2.getValue L key).1 =
        if (kv.tryInsert L key val).1 then val else kv.inserted key) ∧
      (∀ key val, (kv.tryInsert L key val).1 = true ↔
        ¬ ∃ n, kv.map key = some n ∧ (key, n) ∈ kv.cache.queued) ∧
      (∀ key n, kv.map key = some n → ((key, n) ∈ kv.cache.queued ↔ (key, n) ∉ kv.ghostFifo)) ∧
      (∀ key n, kv.map key = some n → (kv.gcGhostFifo L).map key ≠ some n →
        (key, n) ∉ kv.cache.queued) :=
  chunked_kv_cache_sound (.step _ (.step _ (.step _ .empty)))

end ChunkedKvCache

end Utils
