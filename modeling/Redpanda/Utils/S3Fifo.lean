import Mathlib

/-! # s3-fifo: the cache

    Model of `utils/s3_fifo.h`.  A `cache` keeps two intrusive FIFOs of
    entries, `small_fifo_` and `main_fifo_`, with the summed cost of each in
    `small_queue_size_` and `main_queue_size_`; the ghost queue is not a
    container but a clock, `ghost_queue_age_`, that an eviction from the
    small FIFO advances by the entry's cost, and a time stamped on the
    entry's hook.  Here an entry is a value of a type with decidable
    equality (its address), the FIFOs are lists, front first, and the hooks
    of all entries are one function in the state, since `touch()` and
    `insert` reach them from outside the cache.  An entry is linked
    (`!evicted()`) when it is on one of the two lists.

    The evictor is a predicate on entries, given to each call that may
    evict.  Its side effects (the application's own) are not the cache's;
    what the cache records of it is the log `departures`, a history
    variable that the operations append to, one entry for each call of the
    evictor that returned true and for each `remove` of a linked entry, and
    that nothing reads.

    Both eviction loops keep the list they walk split at the iterator,
    `skipped ++ x :: rest`, and store it in the state after every change, as
    the intrusive list does.  `evict_main` moves a touched entry to the back
    and so may visit it again; the loop ends because each such visit spends
    one unit of the entry's frequency (`mainLoopMeasure`).  The loop at the
    head of `insert` ends because each successful `evict()` takes exactly
    one entry off the FIFOs (`evict_evicted`), which is also what the log
    says of every eviction (`Evicted`). -/

namespace Utils.S3Fifo

/-- `cache_hook::location`. -/
inductive Location where
  | main
  | small
deriving DecidableEq, Repr

/-- `cache_hook`, without the list hook itself: being linked is membership
    of one of the cache's FIFOs. -/
structure CacheHook where
  freq : Nat
  ghostInsertionTime : Option Nat
  location : Location
deriving DecidableEq, Repr

namespace CacheHook

/-- A default-constructed hook: `location_{}` is the first enumerator. -/
def init : CacheHook := ⟨0, none, .main⟩

/-- `touch()`: the frequency saturates at three. -/
def touch (h : CacheHook) : CacheHook := { h with freq := min (h.freq + 1) 3 }

end CacheHook

/-- The constructor's arguments: `config` and the cost function.  The
    constructor asserts that the small queue is smaller than the cache. -/
structure Config (E : Type) where
  cacheSize : Nat
  smallSize : Nat
  cost : E → Nat
  small_lt_cache : smallSize < cacheSize

/-- `max_main_queue_size_`. -/
def Config.maxMainQueueSize {E : Type} (L : Config E) : Nat := L.cacheSize - L.smallSize

/-- How an entry left the FIFOs: evicted from the small or from the main
    FIFO, by a call of the evictor that returned true, or removed. -/
inductive Departure (E : Type) where
  | smallEviction (entry : E)
  | mainEviction (entry : E)
  | removal (entry : E)
deriving DecidableEq, Repr

namespace Departure

variable {E : Type}

/-- The entry that left. -/
def entry : Departure E → E
  | smallEviction e | mainEviction e | removal e => e

/-- Whether the evictor was called and accepted. -/
def isEviction : Departure E → Bool
  | removal _ => false
  | _ => true

/-- What a departure adds to `ghost_queue_age_`: the cost of an entry
    evicted from the small FIFO. -/
def ghostCost (L : Config E) : Departure E → Nat
  | smallEviction e => L.cost e
  | _ => 0

end Departure

/-- The summed cost of the evictions from the small FIFO in a log. -/
def smallEvictionCost {E : Type} (L : Config E) (log : List (Departure E)) : Nat :=
  (log.map (Departure.ghostCost L)).sum

@[simp] theorem smallEvictionCost_nil {E : Type} (L : Config E) :
    smallEvictionCost L [] = 0 := rfl

@[simp] theorem smallEvictionCost_append {E : Type} (L : Config E) (l l' : List (Departure E)) :
    smallEvictionCost L (l ++ l') = smallEvictionCost L l + smallEvictionCost L l' := by
  simp [smallEvictionCost]

@[simp] theorem smallEvictionCost_cons {E : Type} (L : Config E) (d : Departure E)
    (l : List (Departure E)) :
    smallEvictionCost L (d :: l) = d.ghostCost L + smallEvictionCost L l := by
  simp [smallEvictionCost]

/-- The state of a `cache`: the counters, the two FIFOs, the hooks of all
    entries and the history variable `departures`. -/
structure Cache (E : Type) where
  smallQueueSize : Nat
  mainQueueSize : Nat
  ghostQueueAge : Nat
  smallFifo : List E
  mainFifo : List E
  hooks : E → CacheHook
  departures : List (Departure E)

namespace Cache

variable {E : Type} (L : Config E)

/-- A new cache, and every entry with a default-constructed hook. -/
def empty : Cache E := ⟨0, 0, 0, [], [], fun _ => .init, []⟩

/-- The linked entries, small FIFO first. -/
def queued (c : Cache E) : List E := c.smallFifo ++ c.mainFifo

/-- The total of `stat()`. -/
def totalSize (c : Cache E) : Nat := c.smallQueueSize + c.mainQueueSize

/-- What is left for `evict_main` to visit: the entries from the iterator
    on, each counted once more for every use it has left. -/
def mainLoopMeasure (c : Cache E) (rest : List E) : Nat :=
  rest.length + (rest.map fun y => (c.hooks y).freq).sum

theorem mainLoopMeasure_lt_cons (c : Cache E) (x : E) (rest : List E) :
    mainLoopMeasure c rest < mainLoopMeasure c (x :: rest) := by
  simp only [mainLoopMeasure, List.length_cons, List.map_cons, List.sum_cons]
  omega

/-- What a call of `evict()`, or of either loop, did from `c` to `c'`:
    with `true` exactly one entry left the FIFOs, logged as an eviction
    that the evictor accepted; with `false` none did.  The other entries
    are still linked, perhaps in another order. -/
def Evicted (ev : E → Bool) (c c' : Cache E) : Bool → Prop
  | true => ∃ d : Departure E, d.isEviction ∧ ev d.entry ∧
      c'.departures = c.departures ++ [d] ∧ (c'.queued ++ [d.entry]).Perm c.queued
  | false => c'.departures = c.departures ∧ c'.queued.Perm c.queued

section Evicted

variable {ev : E → Bool} {c c₁ c' : Cache E}

theorem Evicted.length_lt (h : Evicted ev c c' true) : c'.queued.length < c.queued.length := by
  obtain ⟨d, -, -, -, hperm⟩ := h
  have := hperm.length_eq
  simp only [List.length_append, List.length_singleton] at this
  omega

theorem Evicted.subset {b : Bool} (h : Evicted ev c c' b) : ∀ x ∈ c'.queued, x ∈ c.queued := by
  intro x hx
  cases b with
  | false => exact h.2.mem_iff.1 hx
  | true =>
    obtain ⟨d, -, -, -, hperm⟩ := h
    exact hperm.mem_iff.1 (List.mem_append_left _ hx)

/-- A pass that evicted nothing, followed by any other. -/
theorem Evicted.trans_false {b : Bool} (h₁ : Evicted ev c c₁ false) (h₂ : Evicted ev c₁ c' b) :
    Evicted ev c c' b := by
  obtain ⟨hd₁, hp₁⟩ := h₁
  cases b with
  | false => exact ⟨h₂.1.trans hd₁, h₂.2.trans hp₁⟩
  | true =>
    obtain ⟨d, hd, hev, hlog, hperm⟩ := h₂
    exact ⟨d, hd, hev, by rw [hlog, hd₁], hperm.trans hp₁⟩

end Evicted

variable [DecidableEq E]

/-- `hook.evicted()`: the entry is on neither FIFO. -/
def evicted (c : Cache E) (entry : E) : Bool := entry ∉ c.queued

/-! ## The steps of the eviction loops

    Each takes the FIFO it changes as `skipped ++ x :: rest`, with the
    iterator at `x`. -/

/-- `evict_main` on an entry with uses left: `--hook.freq_`, then it is
    erased at the iterator and pushed to the back. -/
def requeueMain (c : Cache E) (skipped rest : List E) (x : E) : Cache E :=
  { c with
    hooks := Function.update c.hooks x { c.hooks x with freq := (c.hooks x).freq - 1 }
    mainFifo := skipped ++ rest ++ [x] }

/-- `evict_main` when the evictor accepted the entry at the iterator. -/
def evictFromMain (c : Cache E) (skipped rest : List E) (x : E) : Cache E :=
  { c with
    mainFifo := skipped ++ rest
    mainQueueSize := c.mainQueueSize - L.cost x
    departures := c.departures ++ [.mainEviction x] }

/-- `evict_small` on an entry used more than once: its frequency is reset
    and it moves to the back of the main FIFO. -/
def promote (c : Cache E) (skipped rest : List E) (x : E) : Cache E :=
  { c with
    hooks := Function.update c.hooks x { c.hooks x with freq := 0, location := .main }
    smallFifo := skipped ++ rest
    smallQueueSize := c.smallQueueSize - L.cost x
    mainFifo := c.mainFifo ++ [x]
    mainQueueSize := c.mainQueueSize + L.cost x }

/-- `evict_small` when the evictor accepted the entry at the iterator: it
    goes onto the ghost queue at the current age, which its cost advances. -/
def evictFromSmall (c : Cache E) (skipped rest : List E) (x : E) : Cache E :=
  { c with
    smallFifo := skipped ++ rest
    smallQueueSize := c.smallQueueSize - L.cost x
    hooks := Function.update c.hooks x { c.hooks x with ghostInsertionTime := some c.ghostQueueAge }
    ghostQueueAge := c.ghostQueueAge + L.cost x
    departures := c.departures ++ [.smallEviction x] }

theorem mainLoopMeasure_requeueMain_lt (c : Cache E) (skipped rest : List E) (x : E)
    (hx : 0 < (c.hooks x).freq) :
    mainLoopMeasure (c.requeueMain skipped rest x) (rest ++ [x]) < mainLoopMeasure c (x :: rest) := by
  -- one use of `x` is spent, and no entry gains one
  have hle : ∀ y, ((c.requeueMain skipped rest x).hooks y).freq ≤ (c.hooks y).freq := by
    intro y
    by_cases hy : y = x
    · subst hy
      simp [requeueMain]
    · simp [requeueMain, Function.update_of_ne hy]
  have hrest := List.sum_le_sum (l := rest) fun y _ => hle y
  have hx' : ((c.requeueMain skipped rest x).hooks x).freq = (c.hooks x).freq - 1 := by
    simp [requeueMain]
  simp only [mainLoopMeasure, List.length_append, List.length_cons, List.length_nil,
    List.map_append, List.map_cons, List.map_nil, List.sum_append, List.sum_cons,
    List.sum_nil, hx'] at hrest ⊢
  omega

/-- The loop of `evict_main`, from the iterator at the front of `rest`;
    the main FIFO is `skipped ++ rest`. -/
def evictMainLoop (ev : E → Bool) : Cache E → List E → List E → Bool × Cache E
  | c, _, [] => (false, c)
  | c, skipped, x :: rest =>
    if hx : 0 < (c.hooks x).freq then
      evictMainLoop ev (c.requeueMain skipped rest x) skipped (rest ++ [x])
    else if ev x then (true, c.evictFromMain L skipped rest x)
    else evictMainLoop ev c (skipped ++ [x]) rest
termination_by c _ rest => mainLoopMeasure c rest
decreasing_by
  · exact mainLoopMeasure_requeueMain_lt c skipped rest x hx
  · exact mainLoopMeasure_lt_cons c x rest

@[simp] theorem evictMainLoop_nil (ev : E → Bool) (c : Cache E) (skipped : List E) :
    evictMainLoop L ev c skipped [] = (false, c) := by
  rw [evictMainLoop]

/-- `evict_main()`. -/
def evictMain (ev : E → Bool) (c : Cache E) : Bool × Cache E :=
  evictMainLoop L ev c [] c.mainFifo

/-- The loop of `evict_small`, from the iterator at the front of `rest`;
    the small FIFO is `skipped ++ rest`.  A promotion that overfills the
    main FIFO calls `evict_main()`, and its success ends the loop. -/
def evictSmallLoop (ev : E → Bool) : Cache E → List E → List E → Bool × Cache E
  | c, _, [] => (false, c)
  | c, skipped, x :: rest =>
    if 1 < (c.hooks x).freq then
      let p := c.promote L skipped rest x
      if L.maxMainQueueSize < p.mainQueueSize then
        let r := evictMain L ev p
        if r.1 then r else evictSmallLoop ev r.2 skipped rest
      else evictSmallLoop ev p skipped rest
    else if ev x then (true, c.evictFromSmall L skipped rest x)
    else evictSmallLoop ev c (skipped ++ [x]) rest

/-- `evict_small()`. -/
def evictSmall (ev : E → Bool) (c : Cache E) : Bool × Cache E :=
  evictSmallLoop L ev c [] c.smallFifo

/-- `evict()`. -/
def evict (ev : E → Bool) (c : Cache E) : Bool × Cache E :=
  if L.smallSize < c.smallQueueSize then c.evictSmall L ev else c.evictMain L ev

/-! ## What an eviction takes off the FIFOs -/

variable {L} {ev : E → Bool} {c : Cache E}

omit [DecidableEq E] in
/-- Erasing at an iterator and pushing to the back reorders a list. -/
theorem perm_append_singleton_middle (l₁ l₂ : List E) (x : E) :
    (l₁ ++ l₂ ++ [x]).Perm (l₁ ++ x :: l₂) :=
  (List.perm_append_singleton x (l₁ ++ l₂)).trans List.perm_middle.symm

variable {skipped rest : List E} {x : E}

theorem queued_requeueMain (h : c.mainFifo = skipped ++ x :: rest) :
    (c.requeueMain skipped rest x).queued.Perm c.queued := by
  simp only [queued, requeueMain, h]
  exact (perm_append_singleton_middle skipped rest x).append_left _

theorem queued_promote (h : c.smallFifo = skipped ++ x :: rest) :
    (c.promote L skipped rest x).queued.Perm c.queued := by
  simp only [queued, promote, h, List.append_assoc]
  simpa using perm_append_singleton_middle skipped (rest ++ c.mainFifo) x

omit [DecidableEq E] in
theorem queued_evictFromMain (h : c.mainFifo = skipped ++ x :: rest) :
    ((c.evictFromMain L skipped rest x).queued ++ [x]).Perm c.queued := by
  simp only [queued, evictFromMain, h]
  simpa using perm_append_singleton_middle (c.smallFifo ++ skipped) rest x

theorem queued_evictFromSmall (h : c.smallFifo = skipped ++ x :: rest) :
    ((c.evictFromSmall L skipped rest x).queued ++ [x]).Perm c.queued := by
  simp only [queued, evictFromSmall, h]
  simpa using perm_append_singleton_middle skipped (rest ++ c.mainFifo) x

theorem requeueMain_evicted (h : c.mainFifo = skipped ++ x :: rest) :
    Evicted ev c (c.requeueMain skipped rest x) false :=
  ⟨rfl, queued_requeueMain h⟩

theorem promote_evicted (h : c.smallFifo = skipped ++ x :: rest) :
    Evicted ev c (c.promote L skipped rest x) false :=
  ⟨rfl, queued_promote h⟩

omit [DecidableEq E] in
theorem evictFromMain_evicted (h : c.mainFifo = skipped ++ x :: rest) (hx : ev x = true) :
    Evicted ev c (c.evictFromMain L skipped rest x) true :=
  ⟨.mainEviction x, rfl, hx, rfl, queued_evictFromMain h⟩

theorem evictFromSmall_evicted (h : c.smallFifo = skipped ++ x :: rest) (hx : ev x = true) :
    Evicted ev c (c.evictFromSmall L skipped rest x) true :=
  ⟨.smallEviction x, rfl, hx, rfl, queued_evictFromSmall h⟩

variable (L ev)

/-- The loop of `evict_main` is one eviction pass. -/
theorem evictMainLoop_evicted (c : Cache E) (skipped rest : List E)
    (h : c.mainFifo = skipped ++ rest) :
    Evicted ev c (evictMainLoop L ev c skipped rest).2 (evictMainLoop L ev c skipped rest).1 := by
  fun_induction evictMainLoop L ev c skipped rest with
  | case1 c skipped => exact ⟨rfl, List.Perm.refl _⟩
  | case2 c skipped x rest hx ih =>
    exact (requeueMain_evicted h).trans_false (ih (by simp [requeueMain]))
  | case3 c skipped x rest hx hev => exact evictFromMain_evicted h hev
  | case4 c skipped x rest hx hev ih => exact ih (by simp [h])

theorem evictMain_evicted (c : Cache E) : Evicted ev c (c.evictMain L ev).2 (c.evictMain L ev).1 :=
  evictMainLoop_evicted L ev c [] c.mainFifo rfl

/-- `evict_main()` leaves the small FIFO alone. -/
theorem evictMain_smallFifo (c : Cache E) : (c.evictMain L ev).2.smallFifo = c.smallFifo := by
  unfold evictMain
  fun_induction evictMainLoop L ev c [] c.mainFifo with
  | case1 => rfl
  | case2 c skipped x rest hx ih => exact ih
  | case3 => rfl
  | case4 c skipped x rest hx hev ih => exact ih

/-- The loop of `evict_small` is one eviction pass, the calls of
    `evict_main()` it makes included. -/
theorem evictSmallLoop_evicted (c : Cache E) (skipped rest : List E)
    (h : c.smallFifo = skipped ++ rest) :
    Evicted ev c (evictSmallLoop L ev c skipped rest).2 (evictSmallLoop L ev c skipped rest).1 := by
  induction rest generalizing c skipped with
  | nil => exact ⟨rfl, List.Perm.refl _⟩
  | cons x rest ih =>
    have hp : Evicted ev c (c.promote L skipped rest x) false := promote_evicted h
    have hp' : (c.promote L skipped rest x).smallFifo = skipped ++ rest := rfl
    simp only [evictSmallLoop]
    split
    · -- promoted, and `evict_main()` called if the main FIFO is over its size
      split
      · have hm := evictMain_evicted L ev (c.promote L skipped rest x)
        split
        · rename_i hr
          rw [hr] at hm ⊢
          exact hp.trans_false hm
        · rename_i hr
          rw [Bool.not_eq_true] at hr
          rw [hr] at hm
          exact hp.trans_false (hm.trans_false (ih _ _ (by rw [evictMain_smallFifo]; exact hp')))
      · exact hp.trans_false (ih _ _ hp')
    · split
      · exact evictFromSmall_evicted h ‹_›
      · exact ih c (skipped ++ [x]) (by simp [h])

theorem evictSmall_evicted (c : Cache E) :
    Evicted ev c (c.evictSmall L ev).2 (c.evictSmall L ev).1 :=
  evictSmallLoop_evicted L ev c [] c.smallFifo rfl

/-- `evict()` returns true exactly when it evicted one entry. -/
theorem evict_evicted (c : Cache E) : Evicted ev c (c.evict L ev).2 (c.evict L ev).1 := by
  unfold evict
  split
  · exact evictSmall_evicted L ev c
  · exact evictMain_evicted L ev c

/-! ## The public operations -/

/-- The loop at the head of `insert`: while the FIFOs hold more than the
    cache's size, evict, and stop at the first eviction that fails. -/
def evictToFit (ev : E → Bool) (c : Cache E) : Cache E :=
  if L.cacheSize < c.totalSize then
    if h : (c.evict L ev).1 then evictToFit ev (c.evict L ev).2 else (c.evict L ev).2
  else c
termination_by c.queued.length
decreasing_by
  have he := evict_evicted L ev c
  rw [h] at he
  exact he.length_lt

/-- Every entry that the loop at the head of `insert` takes off the FIFOs is
    logged as an eviction that the evictor accepted. -/
theorem evictToFit_departs (c : Cache E) : ∃ new : List (Departure E),
    (c.evictToFit L ev).departures = c.departures ++ new ∧
      (∀ d ∈ new, d.isEviction ∧ ev d.entry) ∧
      ((c.evictToFit L ev).queued ++ new.map Departure.entry).Perm c.queued := by
  fun_induction evictToFit L ev c with
  | case1 c hfull hev ih =>
    -- one eviction, then the rest of the loop
    obtain ⟨new, hlog, hnew, hperm⟩ := ih
    have he := evict_evicted L ev c
    rw [hev] at he
    obtain ⟨d, hd, hdev, hlog', hperm'⟩ := he
    refine ⟨d :: new, by rw [hlog, hlog', List.append_assoc, List.singleton_append], ?_, ?_⟩
    · intro d' hd'
      rcases List.mem_cons.1 hd' with rfl | hd'
      · exact ⟨hd, hdev⟩
      · exact hnew d' hd'
    · rw [List.map_cons]
      calc List.Perm _ (_ ++ new.map Departure.entry ++ [d.entry]) :=
            perm_append_singleton_middle _ _ _ |>.symm
        List.Perm _ ((c.evict L ev).2.queued ++ [d.entry]) := hperm.append_right _
        List.Perm _ c.queued := hperm'
  | case2 c hfull hev =>
    have he := evict_evicted L ev c
    rw [Bool.not_eq_true] at hev
    rw [hev] at he
    exact ⟨[], by rw [he.1, List.append_nil], by simp, by simpa using he.2⟩
  | case3 c hfit => exact ⟨[], by simp, by simp, by simp⟩

/-- `ghost_queue_contains`: the entry has an insertion time that has not
    yet expired, the ghost queue having since aged by less than the main
    FIFO's size. -/
def ghostQueueContains (c : Cache E) (entry : E) : Bool :=
  match (c.hooks entry).ghostInsertionTime with
  | some t => decide (c.ghostQueueAge < t + L.maxMainQueueSize)
  | none => false

/-- `insert` on a hit in the ghost queue: off the ghost queue, and onto the
    back of the main FIFO. -/
def pushMain (c : Cache E) (entry : E) : Cache E :=
  { c with
    hooks := Function.update c.hooks entry
      { c.hooks entry with ghostInsertionTime := none, location := .main }
    mainFifo := c.mainFifo ++ [entry]
    mainQueueSize := c.mainQueueSize + L.cost entry }

/-- `insert` otherwise: onto the back of the small FIFO. -/
def pushSmall (c : Cache E) (entry : E) : Cache E :=
  { c with
    smallFifo := c.smallFifo ++ [entry]
    hooks := Function.update c.hooks entry { c.hooks entry with location := .small }
    smallQueueSize := c.smallQueueSize + L.cost entry }

/-- `insert(entry)`, of an entry that is not linked. -/
def insert (ev : E → Bool) (c : Cache E) (entry : E) : Cache E :=
  let c := c.evictToFit L ev
  if c.ghostQueueContains L entry then c.pushMain L entry else c.pushSmall L entry

/-- `remove(entry)`: nothing for an entry that is not linked, else it is
    erased from the FIFO its hook names. -/
def remove (c : Cache E) (entry : E) : Cache E :=
  if c.evicted entry then c
  else
    match (c.hooks entry).location with
    | .main =>
      { c with
        mainQueueSize := c.mainQueueSize - L.cost entry
        mainFifo := c.mainFifo.erase entry
        departures := c.departures ++ [.removal entry] }
    | .small =>
      { c with
        smallQueueSize := c.smallQueueSize - L.cost entry
        smallFifo := c.smallFifo.erase entry
        departures := c.departures ++ [.removal entry] }

@[simp] theorem remove_hooks (c : Cache E) (entry : E) : (c.remove L entry).hooks = c.hooks := by
  unfold remove
  split
  · rfl
  · split <;> rfl

@[simp] theorem remove_ghostQueueAge (c : Cache E) (entry : E) :
    (c.remove L entry).ghostQueueAge = c.ghostQueueAge := by
  unfold remove
  split
  · rfl
  · split <;> rfl

/-- `entry.hook.touch()`. -/
def touch (c : Cache E) (entry : E) : Cache E :=
  { c with hooks := Function.update c.hooks entry (c.hooks entry).touch }

end Cache

/-! ## Runs -/

/-- What a user does to a cache: its operations, and `touch()` on the hook
    of an entry. -/
inductive Op (E : Type) where
  | insert (ev : E → Bool) (entry : E)
  | remove (entry : E)
  | evict (ev : E → Bool)
  | touch (entry : E)

namespace Op

variable {E : Type} [DecidableEq E] (L : Config E)

/-- The state after the operation. -/
def run : Op E → Cache E → Cache E
  | insert ev e, c => c.insert L ev e
  | remove e, c => c.remove L e
  | evict ev, c => (c.evict L ev).2
  | touch e, c => c.touch e

/-- `insert` takes only an entry that is not linked. -/
def Allowed (c : Cache E) : Op E → Prop
  | insert _ e => e ∉ c.queued
  | _ => True

/-- The entry the operation links. -/
def entering : Op E → List E
  | insert _ e => [e]
  | _ => []

/-- The departures the operation may log: evictions the evictor accepted,
    or the removal of the entry it names. -/
def Departs : Op E → Departure E → Prop
  | insert ev _, d | evict ev, d => d.isEviction ∧ ev d.entry
  | remove e, d => d = .removal e
  | touch _, _ => False

end Op

/-- The caches that a run of operations builds from a new one. -/
inductive Reachable {E : Type} [DecidableEq E] (L : Config E) : Cache E → Prop where
  | empty : Reachable L .empty
  | step {c : Cache E} (op : Op E) : Reachable L c → op.Allowed c → Reachable L (op.run L c)

end Utils.S3Fifo
