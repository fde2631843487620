import Redpanda.Utils.S3Fifo

/-! # s3-fifo: the bookkeeping invariant

    What every cache that `insert` (of unlinked entries), `remove`,
    `evict` and `touch()` build from a new one satisfies, `Inv`:

    * `Accounting`: `small_queue_size_` and `main_queue_size_` are the
      summed costs of the two FIFOs, each linked entry's hook names the
      FIFO it is on, and no entry is linked twice;
    * `GhostLog`: the ghost queue's age is the summed cost of all
      evictions from the small FIFO so far, and an entry's insertion time
      is either expired or the age at its latest departure, an eviction
      from the small FIFO; conversely, every unlinked entry whose latest
      departure was one carries that time.

    The second part needs no reset of stale times: an entry that is
    linked again after its time expired keeps that time, but the age only
    grows, so it stays expired.  Each step of the two eviction loops and
    each operation keeps `Inv` (`Inv.requeueMain` to `Inv.touch`), so every
    reachable cache has it (`Reachable.inv`).  Read back, it says that
    `ghost_queue_contains` holds of exactly the entries whose latest
    departure was an eviction from the small FIFO that the evictions since
    have not yet pushed past the main FIFO's size
    (`Inv.ghostQueueContains_iff`), and, with an evictor that accepts every
    entry, that the loop at the head of `insert` brings the cache within
    its size (`Inv.totalSize_evictToFit_le`). -/

namespace Utils.S3Fifo

open Cache

variable {E : Type}

/-! ## The log of departures -/

/-- The latest departure of `e` in `log` is an eviction from the small
    FIFO, after the departures `pre`. -/
def LeftSmallLast (log : List (Departure E)) (e : E) (pre : List (Departure E)) : Prop :=
  ∃ post, log = pre ++ .smallEviction e :: post ∧ ∀ d ∈ post, d.entry ≠ e

/-- One more departure either is the eviction from the small FIFO that
    becomes an entry's latest departure, or leaves the entry's latest
    departure where it was. -/
theorem leftSmallLast_append_singleton {log pre : List (Departure E)} {e : E}
    {d : Departure E} :
    LeftSmallLast (log ++ [d]) e pre ↔
      d = .smallEviction e ∧ pre = log ∨ d.entry ≠ e ∧ LeftSmallLast log e pre := by
  constructor
  · rintro ⟨post, hlog, hpost⟩
    rcases List.eq_nil_or_concat post with rfl | ⟨post, d', rfl⟩
    · -- `d` is the eviction itself
      obtain ⟨hpre, hd⟩ := List.append_inj' hlog rfl
      exact .inl ⟨List.singleton_inj.1 hd, hpre.symm⟩
    · have hlog' : log ++ [d] = (pre ++ .smallEviction e :: post) ++ [d'] := by
        simpa using hlog
      obtain ⟨hlog'', hd⟩ := List.append_inj' hlog' rfl
      obtain rfl : d = d' := List.singleton_inj.1 hd
      refine .inr ⟨hpost d (by simp), post, hlog'', fun x hx => hpost x (by simp [hx])⟩
  · rintro (⟨rfl, rfl⟩ | ⟨hne, post, rfl, hpost⟩)
    · exact ⟨[], rfl, by simp⟩
    · refine ⟨post ++ [d], by simp, ?_⟩
      intro x hx
      rcases List.mem_append.1 hx with hx | hx
      · exact hpost x hx
      · rw [List.mem_singleton.1 hx]
        exact hne

theorem not_leftSmallLast_nil (e : E) (pre : List (Departure E)) : ¬ LeftSmallLast [] e pre := by
  rintro ⟨post, hlog, -⟩
  simp at hlog

/-- An update of one hook that keeps one of its fields keeps that field of
    every hook. -/
theorem update_hooks_of_eq [DecidableEq E] {α : Type} (g : CacheHook → α) {hk : E → CacheHook}
    {x : E} {v : CacheHook} (hv : g v = g (hk x)) (e : E) :
    g (Function.update hk x v e) = g (hk e) := by
  by_cases he : e = x
  · subst he
    rw [Function.update_self, hv]
  · rw [Function.update_of_ne he]

theorem not_mem_of_nodup_middle {l₁ l₂ : List E} {x : E} (h : (l₁ ++ x :: l₂).Nodup) :
    x ∉ l₁ ++ l₂ :=
  (List.nodup_cons.1 (List.perm_middle.nodup_iff.1 h)).1

theorem nodup_of_append_singleton {l : List E} {x : E} (h : (l ++ [x]).Nodup) :
    l.Nodup ∧ x ∉ l :=
  ⟨(List.nodup_append.1 h).1,
    fun hx => (List.nodup_append.1 h).2.2 x hx x (List.mem_singleton_self x) rfl⟩

/-- What the iterator steps past is still on the list it erased from. -/
theorem mem_of_mem_skip {l skipped rest : List E} {x e : E} (hl : l = skipped ++ x :: rest)
    (he : e ∈ skipped ++ rest) : e ∈ l := by
  rw [hl]
  exact ((List.sublist_cons_self x rest).append_left skipped).subset he

/-! ## The invariant -/

variable (L : Config E)

/-- The counters are the summed costs of the FIFOs, each linked entry's
    hook names its FIFO, and no entry is linked twice. -/
structure Accounting (c : Cache E) : Prop where
  small_size : c.smallQueueSize = (c.smallFifo.map L.cost).sum
  main_size : c.mainQueueSize = (c.mainFifo.map L.cost).sum
  small_location : ∀ e ∈ c.smallFifo, (c.hooks e).location = .small
  main_location : ∀ e ∈ c.mainFifo, (c.hooks e).location = .main
  nodup : c.queued.Nodup

/-- The ghost queue's age is the cost of the evictions from the small FIFO
    so far; a stored insertion time is expired, or the age at the entry's
    latest departure, an eviction from the small FIFO, of an entry that is
    not linked; and every such entry has its time. -/
structure GhostLog (c : Cache E) : Prop where
  age_eq : c.ghostQueueAge = smallEvictionCost L c.departures
  time_of : ∀ e t, (c.hooks e).ghostInsertionTime = some t →
    t + L.maxMainQueueSize ≤ c.ghostQueueAge ∨
      e ∉ c.queued ∧ ∃ pre, LeftSmallLast c.departures e pre ∧ t = smallEvictionCost L pre
  time_set : ∀ e pre, e ∉ c.queued → LeftSmallLast c.departures e pre →
    (c.hooks e).ghostInsertionTime = some (smallEvictionCost L pre)

/-- The bookkeeping invariant of a cache. -/
structure Inv (c : Cache E) : Prop extends Accounting L c, GhostLog L c

variable {L} {c c' : Cache E} {skipped rest : List E} {x : E}

namespace GhostLog

/-- A step that links and unlinks nothing, and keeps the log, the age and
    the insertion times, keeps the ghost queue. -/
theorem of_frame (h : GhostLog L c) (hlog : c'.departures = c.departures)
    (ha : c'.ghostQueueAge = c.ghostQueueAge)
    (ht : ∀ e, (c'.hooks e).ghostInsertionTime = (c.hooks e).ghostInsertionTime)
    (hq : ∀ e, e ∈ c'.queued ↔ e ∈ c.queued) : GhostLog L c' where
  age_eq := by rw [ha, hlog, h.age_eq]
  time_of e t het := by
    rw [ht] at het
    rw [ha, hlog, hq]
    exact h.time_of e t het
  time_set e pre he hl := by
    rw [hq] at he
    rw [hlog] at hl
    rw [ht]
    exact h.time_set e pre he hl

/-- A linked entry that leaves other than by an eviction from the small
    FIFO keeps the ghost queue: its own time, if any, had expired. -/
theorem depart (h : GhostLog L c) {d : Departure E} (hd : d = .mainEviction x ∨ d = .removal x)
    (hx : x ∈ c.queued) (hlog : c'.departures = c.departures ++ [d])
    (ha : c'.ghostQueueAge = c.ghostQueueAge)
    (ht : ∀ e, (c'.hooks e).ghostInsertionTime = (c.hooks e).ghostInsertionTime)
    (hq : ∀ e, e ∈ c.queued ↔ e ∈ c'.queued ∨ e = x) : GhostLog L c' := by
  have hdx : d.entry = x := by rcases hd with rfl | rfl <;> rfl
  have hcost : d.ghostCost L = 0 := by rcases hd with rfl | rfl <;> rfl
  constructor
  · rw [ha, hlog, smallEvictionCost_append, h.age_eq]
    simp [hcost]
  · intro e t het
    rw [ht] at het
    rcases h.time_of e t het with hexp | ⟨he, pre, hl, rfl⟩
    · exact .inl (by rw [ha]; exact hexp)
    · have hex : e ≠ x := fun hex => he (hex ▸ hx)
      refine .inr ⟨fun he' => he ((hq e).2 (.inl he')), pre, ?_, rfl⟩
      rw [hlog]
      exact leftSmallLast_append_singleton.2 (.inr ⟨by rw [hdx]; exact hex.symm, hl⟩)
  · intro e pre he hl
    rw [hlog] at hl
    rcases leftSmallLast_append_singleton.1 hl with ⟨rfl, -⟩ | ⟨hne, hl⟩
    · rcases hd with hd | hd <;> cases hd
    · have hex : e ≠ x := fun hex => hne (hdx.trans hex.symm)
      have he' : e ∉ c.queued := fun hmem => ((hq e).1 hmem).elim he hex
      rw [ht]
      exact h.time_set e pre he' hl

/-- Linking an entry whose insertion time is gone or expired keeps the
    ghost queue. -/
theorem join (h : GhostLog L c) (hlog : c'.departures = c.departures)
    (ha : c'.ghostQueueAge = c.ghostQueueAge)
    (ht : ∀ e, e ≠ x → (c'.hooks e).ghostInsertionTime = (c.hooks e).ghostInsertionTime)
    (htx : ∀ t, (c'.hooks x).ghostInsertionTime = some t → t + L.maxMainQueueSize ≤ c.ghostQueueAge)
    (hq : ∀ e, e ∈ c'.queued ↔ e = x ∨ e ∈ c.queued) : GhostLog L c' := by
  constructor
  · rw [ha, hlog, h.age_eq]
  · intro e t het
    by_cases hex : e = x
    · subst hex
      exact .inl (by rw [ha]; exact htx t het)
    · rw [ht e hex] at het
      rcases h.time_of e t het with hexp | ⟨he, pre, hl, rfl⟩
      · exact .inl (by rw [ha]; exact hexp)
      · refine .inr ⟨?_, pre, hlog ▸ hl, rfl⟩
        rw [hq, not_or]
        exact ⟨hex, he⟩
  · intro e pre he hl
    rw [hq, not_or] at he
    rw [ht e he.1]
    exact h.time_set e pre he.2 (hlog ▸ hl)

end GhostLog

theorem inv_empty : Inv L (Cache.empty : Cache E) where
  small_size := rfl
  main_size := rfl
  small_location _ he := absurd he List.not_mem_nil
  main_location _ he := absurd he List.not_mem_nil
  nodup := List.nodup_nil
  age_eq := rfl
  time_of _ _ het := by cases het
  time_set e pre _ hl := absurd hl (not_leftSmallLast_nil e pre)

/-! ## The steps of the eviction loops keep the invariant -/

namespace Inv

variable [DecidableEq E]

theorem requeueMain (h : Inv L c) (hf : c.mainFifo = skipped ++ x :: rest) :
    Inv L (c.requeueMain skipped rest x) := by
  have hperm : (skipped ++ rest ++ [x]).Perm c.mainFifo := by
    rw [hf]
    exact perm_append_singleton_middle skipped rest x
  have hq := queued_requeueMain hf
  have hloc : ∀ e, ((c.requeueMain skipped rest x).hooks e).location = (c.hooks e).location :=
    update_hooks_of_eq CacheHook.location rfl
  refine ⟨⟨h.small_size, ?_, ?_, ?_, hq.nodup_iff.2 h.nodup⟩, h.toGhostLog.of_frame rfl rfl
    (update_hooks_of_eq CacheHook.ghostInsertionTime rfl) fun e => hq.mem_iff⟩
  · show c.mainQueueSize = ((skipped ++ rest ++ [x]).map L.cost).sum
    rw [h.main_size, (hperm.map L.cost).sum_eq]
  · intro e he
    rw [hloc]
    exact h.small_location e he
  · intro e he
    rw [hloc]
    exact h.main_location e (hperm.subset he)

omit [DecidableEq E] in
theorem evictFromMain (h : Inv L c) (hf : c.mainFifo = skipped ++ x :: rest) :
    Inv L (c.evictFromMain L skipped rest x) := by
  have hq := queued_evictFromMain (L := L) hf
  have hx : x ∈ c.queued := by simp [queued, hf]
  refine ⟨⟨h.small_size, ?_, h.small_location, fun e he => h.main_location e (mem_of_mem_skip hf he),
    (nodup_of_append_singleton (hq.nodup_iff.2 h.nodup)).1⟩, h.toGhostLog.depart (.inl rfl) hx rfl rfl
    (fun _ => rfl) fun e => by simpa using hq.mem_iff.symm⟩
  · show c.mainQueueSize - L.cost x = ((skipped ++ rest).map L.cost).sum
    rw [h.main_size, hf]
    simp only [List.map_append, List.map_cons, List.sum_append, List.sum_cons]
    omega

theorem promote (h : Inv L c) (hf : c.smallFifo = skipped ++ x :: rest) :
    Inv L (c.promote L skipped rest x) := by
  have hq := queued_promote (L := L) hf
  -- `x` is linked once, on the small FIFO
  have hx : x ∉ skipped ++ (rest ++ c.mainFifo) := by
    have := h.nodup
    rw [queued, hf, List.append_assoc, List.cons_append] at this
    exact not_mem_of_nodup_middle this
  have hxs : x ∉ skipped ++ rest := fun hm => hx (by simp only [List.mem_append] at hm ⊢; tauto)
  have hxm : x ∉ c.mainFifo := fun hm => hx (by simp [hm])
  have hloc : ∀ e, e ≠ x → ((c.promote L skipped rest x).hooks e).location = (c.hooks e).location :=
    fun e he => by simp [Cache.promote, Function.update_of_ne he]
  refine ⟨⟨?_, ?_, ?_, ?_, hq.nodup_iff.2 h.nodup⟩, h.toGhostLog.of_frame rfl rfl
    (update_hooks_of_eq CacheHook.ghostInsertionTime rfl) fun e => hq.mem_iff⟩
  · show c.smallQueueSize - L.cost x = ((skipped ++ rest).map L.cost).sum
    rw [h.small_size, hf]
    simp only [List.map_append, List.map_cons, List.sum_append, List.sum_cons]
    omega
  · show c.mainQueueSize + L.cost x = ((c.mainFifo ++ [x]).map L.cost).sum
    simp [h.main_size]
  · intro e he
    have hex : e ≠ x := fun hex => hxs (hex ▸ he)
    rw [hloc e hex]
    exact h.small_location e (mem_of_mem_skip hf he)
  · intro e he
    rcases List.mem_append.1 he with he | he
    · have hex : e ≠ x := fun hex => hxm (hex ▸ he)
      rw [hloc e hex]
      exact h.main_location e he
    · rw [List.mem_singleton.1 he]
      simp [Cache.promote]

theorem evictFromSmall (h : Inv L c) (hf : c.smallFifo = skipped ++ x :: rest) :
    Inv L (c.evictFromSmall L skipped rest x) := by
  have hq := queued_evictFromSmall (L := L) hf
  obtain ⟨hnd, hx'⟩ := nodup_of_append_singleton (hq.nodup_iff.2 h.nodup)
  have hmem : ∀ e, e ∈ c.queued ↔ e ∈ (c.evictFromSmall L skipped rest x).queued ∨ e = x := by
    intro e
    simpa using hq.mem_iff.symm
  have hloc : ∀ e, ((c.evictFromSmall L skipped rest x).hooks e).location = (c.hooks e).location :=
    update_hooks_of_eq CacheHook.location rfl
  have ht : ∀ e, e ≠ x → ((c.evictFromSmall L skipped rest x).hooks e).ghostInsertionTime =
      (c.hooks e).ghostInsertionTime :=
    fun e he => by simp [Cache.evictFromSmall, Function.update_of_ne he]
  have htx : ((c.evictFromSmall L skipped rest x).hooks x).ghostInsertionTime =
      some c.ghostQueueAge := by
    simp [Cache.evictFromSmall]
  refine ⟨⟨?_, h.main_size, ?_, ?_, hnd⟩, ?_, ?_, ?_⟩
  · show c.smallQueueSize - L.cost x = ((skipped ++ rest).map L.cost).sum
    rw [h.small_size, hf]
    simp only [List.map_append, List.map_cons, List.sum_append, List.sum_cons]
    omega
  · intro e he
    rw [hloc]
    exact h.small_location e (mem_of_mem_skip hf he)
  · intro e he
    rw [hloc]
    exact h.main_location e he
  · -- the age advances by the cost of the entry evicted
    show c.ghostQueueAge + L.cost x = smallEvictionCost L (c.departures ++ [.smallEviction x])
    simp [h.age_eq, Departure.ghostCost]
  · intro e t het
    by_cases hex : e = x
    · -- the evicted entry now has its time
      subst hex
      rw [htx, Option.some.injEq] at het
      exact .inr ⟨hx', c.departures, leftSmallLast_append_singleton.2 (.inl ⟨rfl, rfl⟩),
        het ▸ h.age_eq⟩
    · rw [ht e hex] at het
      rcases h.time_of e t het with hexp | ⟨he, pre, hl, rfl⟩
      · exact .inl (by show _ ≤ c.ghostQueueAge + L.cost x; omega)
      · refine .inr ⟨fun he' => he ((hmem e).2 (.inl he')), pre, ?_, rfl⟩
        exact leftSmallLast_append_singleton.2 (.inr ⟨Ne.symm hex, hl⟩)
  · intro e pre he hl
    rcases leftSmallLast_append_singleton.1 hl with ⟨hd, rfl⟩ | ⟨hne, hl⟩
    · cases hd
      rw [htx, h.age_eq]
    · have hex : e ≠ x := fun hex => hne hex.symm
      rw [ht e hex]
      exact h.time_set e pre (fun hmem' => ((hmem e).1 hmem').elim he hex) hl

/-! ## The eviction loops and `evict()` keep the invariant -/

variable (ev : E → Bool)

theorem evictMainLoop (h : Inv L c) (hf : c.mainFifo = skipped ++ rest) :
    Inv L (Cache.evictMainLoop L ev c skipped rest).2 := by
  fun_induction Cache.evictMainLoop L ev c skipped rest with
  | case1 => exact h
  | case2 c skipped x rest hx ih => exact ih (h.requeueMain hf) (by simp [Cache.requeueMain])
  | case3 c skipped x rest hx hev => exact h.evictFromMain hf
  | case4 c skipped x rest hx hev ih => exact ih h (by simp [hf])

theorem evictMain (h : Inv L c) : Inv L (c.evictMain L ev).2 :=
  h.evictMainLoop ev rfl

theorem evictSmallLoop (h : Inv L c) (hf : c.smallFifo = skipped ++ rest) :
    Inv L (Cache.evictSmallLoop L ev c skipped rest).2 := by
  induction rest generalizing c skipped with
  | nil => exact h
  | cons x rest ih =>
    have hp := h.promote hf
    have hp' : (c.promote L skipped rest x).smallFifo = skipped ++ rest := rfl
    simp only [Cache.evictSmallLoop]
    split
    · split
      · split
        · exact hp.evictMain ev
        · exact ih (hp.evictMain ev) (by rw [evictMain_smallFifo]; exact hp')
      · exact ih hp hp'
    · split
      · exact h.evictFromSmall hf
      · exact ih h (by simp [hf])

theorem evict (h : Inv L c) : Inv L (c.evict L ev).2 := by
  unfold Cache.evict
  split
  · exact h.evictSmallLoop ev rfl
  · exact h.evictMain ev

theorem evictToFit (h : Inv L c) : Inv L (c.evictToFit L ev) := by
  fun_induction Cache.evictToFit L ev c with
  | case1 c hfull hev ih => exact ih (h.evict ev)
  | case2 c hfull hev => exact h.evict ev
  | case3 => exact h

/-! ## The operations keep the invariant -/

theorem pushMain (h : Inv L c) (hx : x ∉ c.queued) : Inv L (c.pushMain L x) := by
  have hq : ∀ e, e ∈ (c.pushMain L x).queued ↔ e = x ∨ e ∈ c.queued := by
    intro e
    simp only [queued, Cache.pushMain, List.mem_append, List.mem_singleton]
    tauto
  have hloc : ∀ e, e ≠ x → ((c.pushMain L x).hooks e).location = (c.hooks e).location :=
    fun e he => by simp [Cache.pushMain, Function.update_of_ne he]
  have hnd : (c.pushMain L x).queued.Nodup := by
    have hperm : (c.pushMain L x).queued.Perm (x :: c.queued) := by
      show (c.smallFifo ++ (c.mainFifo ++ [x])).Perm (x :: (c.smallFifo ++ c.mainFifo))
      rw [← List.append_assoc]
      exact List.perm_append_singleton x _
    exact hperm.nodup_iff.2 (List.nodup_cons.2 ⟨hx, h.nodup⟩)
  refine ⟨⟨h.small_size, ?_, ?_, ?_, hnd⟩, h.toGhostLog.join rfl rfl ?_ ?_ hq⟩
  · show c.mainQueueSize + L.cost x = ((c.mainFifo ++ [x]).map L.cost).sum
    simp [h.main_size]
  · intro e he
    have hex : e ≠ x := fun hex => hx (hex ▸ List.mem_append_left _ he)
    rw [hloc e hex]
    exact h.small_location e he
  · intro e he
    rcases List.mem_append.1 he with he | he
    · have hex : e ≠ x := fun hex => hx (hex ▸ List.mem_append_right _ he)
      rw [hloc e hex]
      exact h.main_location e he
    · rw [List.mem_singleton.1 he]
      simp [Cache.pushMain]
  · intro e he
    simp [Cache.pushMain, Function.update_of_ne he]
  · intro t ht
    simp [Cache.pushMain] at ht

theorem pushSmall (h : Inv L c) (hx : x ∉ c.queued) (hg : c.ghostQueueContains L x = false) :
    Inv L (c.pushSmall L x) := by
  have hq : ∀ e, e ∈ (c.pushSmall L x).queued ↔ e = x ∨ e ∈ c.queued := by
    intro e
    simp only [queued, Cache.pushSmall, List.mem_append, List.mem_singleton]
    tauto
  have hloc : ∀ e, e ≠ x → ((c.pushSmall L x).hooks e).location = (c.hooks e).location :=
    fun e he => by simp [Cache.pushSmall, Function.update_of_ne he]
  have hnd : (c.pushSmall L x).queued.Nodup := by
    have hperm : (c.pushSmall L x).queued.Perm (x :: c.queued) := by
      show (c.smallFifo ++ [x] ++ c.mainFifo).Perm (x :: (c.smallFifo ++ c.mainFifo))
      rw [List.append_assoc, List.singleton_append]
      exact List.perm_middle
    exact hperm.nodup_iff.2 (List.nodup_cons.2 ⟨hx, h.nodup⟩)
  refine ⟨⟨?_, h.main_size, ?_, ?_, hnd⟩, h.toGhostLog.join rfl rfl ?_ ?_ hq⟩
  · show c.smallQueueSize + L.cost x = ((c.smallFifo ++ [x]).map L.cost).sum
    simp [h.small_size]
  · intro e he
    rcases List.mem_append.1 he with he | he
    · have hex : e ≠ x := fun hex => hx (hex ▸ List.mem_append_left _ he)
      rw [hloc e hex]
      exact h.small_location e he
    · rw [List.mem_singleton.1 he]
      simp [Cache.pushSmall]
  · intro e he
    have hex : e ≠ x := fun hex => hx (hex ▸ List.mem_append_right _ he)
    rw [hloc e hex]
    exact h.main_location e he
  · intro e he
    simp [Cache.pushSmall, Function.update_of_ne he]
  · -- the entry was not on the ghost queue: its time, if any, has expired
    intro t ht
    have ht' : (c.hooks x).ghostInsertionTime = some t := by simpa [Cache.pushSmall] using ht
    simp only [ghostQueueContains, ht', decide_eq_false_iff_not, Nat.not_lt] at hg
    exact hg

theorem insert (h : Inv L c) (hx : x ∉ c.queued) : Inv L (c.insert L ev x) := by
  have hfit := h.evictToFit ev
  have hx' : x ∉ (c.evictToFit L ev).queued := by
    obtain ⟨new, -, -, hperm⟩ := evictToFit_departs L ev c
    exact fun hmem => hx (hperm.subset (List.mem_append_left _ hmem))
  simp only [Cache.insert]
  split
  · exact hfit.pushMain hx'
  · rename_i hg
    exact hfit.pushSmall hx' (by simpa using hg)

omit [DecidableEq E] in
theorem mem_main_of_location (h : Inv L c) (hx : x ∈ c.queued)
    (hloc : (c.hooks x).location = .main) : x ∈ c.mainFifo := by
  rcases List.mem_append.1 hx with hs | hm
  · exact absurd (h.small_location x hs) (by rw [hloc]; decide)
  · exact hm

omit [DecidableEq E] in
theorem mem_small_of_location (h : Inv L c) (hx : x ∈ c.queued)
    (hloc : (c.hooks x).location = .small) : x ∈ c.smallFifo := by
  rcases List.mem_append.1 hx with hs | hm
  · exact hs
  · exact absurd (h.main_location x hm) (by rw [hloc]; decide)

/-- `remove` of a linked entry erases it from the FIFO it is on, and logs
    it. -/
theorem remove_linked (h : Inv L c) (hx : x ∈ c.queued) :
    (c.remove L x).departures = c.departures ++ [.removal x] ∧
      ((c.remove L x).queued ++ [x]).Perm c.queued := by
  have hev : c.evicted x = false := by simpa [evicted] using hx
  cases hloc : (c.hooks x).location with
  | main =>
    have hm := h.mem_main_of_location hx hloc
    simp only [Cache.remove, hev, hloc, Bool.false_eq_true, if_false, queued, true_and]
    rw [List.append_assoc]
    exact ((List.perm_append_singleton x _).trans (List.perm_cons_erase hm).symm).append_left _
  | small =>
    have hs := h.mem_small_of_location hx hloc
    simp only [Cache.remove, hev, hloc, Bool.false_eq_true, if_false, queued, true_and]
    calc List.Perm _ (c.smallFifo.erase x ++ [x] ++ c.mainFifo) := by
          simpa using perm_append_singleton_middle (c.smallFifo.erase x) c.mainFifo x
      List.Perm _ (c.smallFifo ++ c.mainFifo) :=
        ((List.perm_append_singleton x _).trans (List.perm_cons_erase hs).symm).append_right _

theorem remove_accounting (h : Inv L c) (hx : x ∈ c.queued) : Accounting L (c.remove L x) := by
  have hev : c.evicted x = false := by simpa [evicted] using hx
  cases hloc : (c.hooks x).location with
  | main =>
    have hm := h.mem_main_of_location hx hloc
    have hsum := (List.perm_cons_erase hm).map L.cost |>.sum_eq
    simp only [Cache.remove, hev, hloc, Bool.false_eq_true, if_false]
    refine ⟨h.small_size, ?_, h.small_location, fun e he => h.main_location e
      (List.mem_of_mem_erase he), h.nodup.sublist (List.erase_sublist.append_left _)⟩
    show c.mainQueueSize - L.cost x = ((c.mainFifo.erase x).map L.cost).sum
    rw [h.main_size, hsum, List.map_cons, List.sum_cons]
    omega
  | small =>
    have hs := h.mem_small_of_location hx hloc
    have hsum := (List.perm_cons_erase hs).map L.cost |>.sum_eq
    simp only [Cache.remove, hev, hloc, Bool.false_eq_true, if_false]
    refine ⟨?_, h.main_size, fun e he => h.small_location e (List.mem_of_mem_erase he),
      h.main_location, h.nodup.sublist (List.erase_sublist.append_right _)⟩
    show c.smallQueueSize - L.cost x = ((c.smallFifo.erase x).map L.cost).sum
    rw [h.small_size, hsum, List.map_cons, List.sum_cons]
    omega

theorem remove (h : Inv L c) : Inv L (c.remove L x) := by
  by_cases hx : x ∈ c.queued
  · obtain ⟨hlog, hq⟩ := h.remove_linked hx
    have hmem : ∀ e, e ∈ c.queued ↔ e ∈ (c.remove L x).queued ∨ e = x := by
      intro e
      simpa using hq.mem_iff.symm
    exact ⟨h.remove_accounting hx, h.toGhostLog.depart (.inr rfl) hx hlog (remove_ghostQueueAge ..)
      (fun e => by rw [remove_hooks]) hmem⟩
  · have hev : c.evicted x = true := by simpa [evicted] using hx
    simp only [Cache.remove, hev, if_true]
    exact h

theorem touch (h : Inv L c) : Inv L (c.touch x) := by
  have hloc : ∀ e, ((c.touch x).hooks e).location = (c.hooks e).location :=
    update_hooks_of_eq CacheHook.location rfl
  refine ⟨⟨h.small_size, h.main_size, fun e he => ?_, fun e he => ?_, h.nodup⟩,
    h.toGhostLog.of_frame rfl rfl (update_hooks_of_eq CacheHook.ghostInsertionTime rfl)
      fun _ => Iff.rfl⟩
  · rw [hloc]
    exact h.small_location e he
  · rw [hloc]
    exact h.main_location e he

/-! ## What the invariant says -/

/-- Every operation logs exactly the entries it takes off the FIFOs, each
    as an eviction that the evictor accepted or as the removal of the entry
    the operation names. -/
theorem run_departs (h : Inv L c) (op : Op E) (hop : op.Allowed c) :
    ∃ new : List (Departure E), (op.run L c).departures = c.departures ++ new ∧
      (∀ d ∈ new, op.Departs d) ∧
      ((op.run L c).queued ++ new.map Departure.entry).Perm (c.queued ++ op.entering) := by
  cases op with
  | insert ev e =>
    obtain ⟨new, hlog, hnew, hperm⟩ := evictToFit_departs L ev c
    -- the entry goes to the back of one FIFO, and pushing it logs nothing
    have hpush : (c.insert L ev e).departures = (c.evictToFit L ev).departures ∧
        (c.insert L ev e).queued.Perm ((c.evictToFit L ev).queued ++ [e]) := by
      simp only [Cache.insert]
      split
      · exact ⟨rfl, by simp [queued, Cache.pushMain]⟩
      · refine ⟨rfl, ?_⟩
        show (_ ++ [e] ++ _).Perm _
        rw [List.append_assoc, List.singleton_append]
        exact (perm_append_singleton_middle _ _ e).symm
    refine ⟨new, hpush.1.trans hlog, hnew, ?_⟩
    calc List.Perm _ ((c.evictToFit L ev).queued ++ [e] ++ new.map Departure.entry) :=
          hpush.2.append_right _
      List.Perm _ ((c.evictToFit L ev).queued ++ new.map Departure.entry ++ [e]) := by
          rw [List.append_assoc, List.append_assoc]
          exact List.perm_append_comm.append_left _
      List.Perm _ (c.queued ++ [e]) := hperm.append_right _
  | remove e =>
    by_cases hx : e ∈ c.queued
    · obtain ⟨hlog, hq⟩ := h.remove_linked hx
      exact ⟨[.removal e], hlog, by simp [Op.Departs],
        by simpa [Op.run, Op.entering, Departure.entry] using hq⟩
    · have hrun : c.remove L e = c := by simp [Cache.remove, evicted, hx]
      exact ⟨[], by simp [Op.run, hrun], by simp, by simp [Op.run, Op.entering, hrun]⟩
  | evict ev =>
    have he := evict_evicted L ev c
    cases hb : (c.evict L ev).1 with
    | true =>
      rw [hb] at he
      obtain ⟨d, hd, hdev, hlog, hperm⟩ := he
      exact ⟨[d], hlog, by simp [Op.Departs, hd, hdev], by simpa [Op.run, Op.entering] using hperm⟩
    | false =>
      rw [hb] at he
      exact ⟨[], by simp [Op.run, he.1], by simp, by simpa [Op.run, Op.entering] using he.2⟩
  | touch e =>
    exact ⟨[], by simp [Op.run, Cache.touch], by simp, by simp [Op.run, Op.entering, Cache.touch, queued]⟩

/-- `ghost_queue_contains` holds of exactly the entries that are not
    linked, whose latest departure was an eviction from the small FIFO, and
    that the evictions from the small FIFO since, that one included, have
    not pushed past the main FIFO's size. -/
theorem ghostQueueContains_iff (h : Inv L c) (e : E) :
    c.ghostQueueContains L e = true ↔ e ∉ c.queued ∧ ∃ pre post,
      c.departures = pre ++ .smallEviction e :: post ∧ (∀ d ∈ post, d.entry ≠ e) ∧
        smallEvictionCost L (.smallEviction e :: post) < L.cacheSize - L.smallSize := by
  -- the age splits at the eviction
  have hage : ∀ pre post, c.departures = pre ++ .smallEviction e :: post →
      c.ghostQueueAge = smallEvictionCost L pre + smallEvictionCost L (.smallEviction e :: post) := by
    intro pre post hlog
    rw [h.age_eq, hlog, smallEvictionCost_append]
  unfold ghostQueueContains
  constructor
  · intro hc
    split at hc
    · rename_i t ht
      have hlt : c.ghostQueueAge < t + (L.cacheSize - L.smallSize) := of_decide_eq_true hc
      rcases h.time_of e t ht with hexp | ⟨he, pre, ⟨post, hlog, hpost⟩, rfl⟩
      · exact absurd hexp (Nat.not_le.2 hlt)
      · refine ⟨he, pre, post, hlog, hpost, ?_⟩
        have := hage pre post hlog
        omega
    · cases hc
  · rintro ⟨he, pre, post, hlog, hpost, hlt⟩
    have ht := h.time_set e pre he ⟨post, hlog, hpost⟩
    have := hage pre post hlog
    simp only [ht, Config.maxMainQueueSize]
    exact decide_eq_true (by omega)

end Inv

/-! ## With an evictor that accepts every entry -/

section Accepting

variable [DecidableEq E] {ev : E → Bool}

/-- `evict_main` succeeds as soon as there is anything left to visit. -/
theorem evictMainLoop_of_accepts (hev : ∀ y, ev y = true) (c : Cache E) (skipped rest : List E)
    (hr : rest ≠ []) : (Cache.evictMainLoop L ev c skipped rest).1 = true := by
  fun_induction Cache.evictMainLoop L ev c skipped rest with
  | case1 => exact absurd rfl hr
  | case2 c skipped x rest hx ih => exact ih (by simp)
  | case3 => rfl
  | case4 c skipped x rest hx hnev ih => exact absurd (hev x) hnev

/-- `evict_small` fails only after promoting every entry it visits, the
    last promotion leaving the main FIFO within its size. -/
theorem evictSmallLoop_false_of_accepts (hev : ∀ y, ev y = true) (c : Cache E)
    (skipped rest : List E) (hf : c.smallFifo = skipped ++ rest)
    (hres : (Cache.evictSmallLoop L ev c skipped rest).1 = false) :
    (Cache.evictSmallLoop L ev c skipped rest).2.smallFifo = skipped ∧
      (rest ≠ [] → (Cache.evictSmallLoop L ev c skipped rest).2.mainQueueSize ≤
        L.maxMainQueueSize) := by
  induction rest generalizing c skipped with
  | nil => exact ⟨by simpa [Cache.evictSmallLoop] using hf, fun h => absurd rfl h⟩
  | cons x rest ih =>
    have hp' : (c.promote L skipped rest x).smallFifo = skipped ++ rest := rfl
    by_cases hfreq : 1 < (c.hooks x).freq
    · by_cases hover : L.maxMainQueueSize < (c.promote L skipped rest x).mainQueueSize
      · -- `evict_main()` on the main FIFO the promotion filled succeeds
        have hm : (c.promote L skipped rest x |>.evictMain L ev).1 = true :=
          evictMainLoop_of_accepts hev _ _ _ (by simp [Cache.promote])
        simp [Cache.evictSmallLoop, hfreq, hover, hm] at hres
      · simp only [Cache.evictSmallLoop, hfreq, hover, if_true, if_false] at hres ⊢
        obtain ⟨hs, hmain⟩ := ih _ _ hp' hres
        refine ⟨hs, fun _ => ?_⟩
        by_cases hr : rest = []
        · subst hr
          exact Nat.le_of_not_lt hover
        · exact hmain hr
    · simp [Cache.evictSmallLoop, hfreq, hev x] at hres

/-- The loop at the head of `insert` brings the cache within its size: it
    stops either there or at an `evict()` that found nothing to take, which
    leaves only a main FIFO within its size, or only a small FIFO within
    its own. -/
theorem Inv.totalSize_evictToFit_le {c : Cache E} (h : Inv L c) (hev : ∀ y, ev y = true) :
    (c.evictToFit L ev).totalSize ≤ L.cacheSize := by
  have hlt := L.small_lt_cache
  fun_induction Cache.evictToFit L ev c with
  | case1 c hfull hb ih => exact ih (h.evict ev)
  | case2 c hfull hb =>
    rw [Bool.not_eq_true] at hb
    have h' := h.evict ev
    by_cases hsmall : L.smallSize < c.smallQueueSize
    · -- `evict_small` promoted everything it saw
      simp only [Cache.evict, Cache.evictSmall, hsmall, if_true] at hb h' ⊢
      obtain ⟨hs, hm⟩ := evictSmallLoop_false_of_accepts hev c [] c.smallFifo rfl hb
      have hne : c.smallFifo ≠ [] := by
        intro hnil
        rw [h.small_size, hnil] at hsmall
        simp at hsmall
      have hs0 := h'.small_size
      rw [hs] at hs0
      have := hm hne
      simp only [totalSize, Config.maxMainQueueSize] at this hs0 ⊢
      simp only [List.map_nil, List.sum_nil] at hs0
      omega
    · -- `evict_main` found the main FIFO empty
      simp only [Cache.evict, hsmall, if_false] at hb ⊢
      have hmain : c.mainFifo = [] := by
        by_contra hne
        rw [Cache.evictMain, evictMainLoop_of_accepts hev c [] c.mainFifo hne] at hb
        cases hb
      have hm0 := h.main_size
      rw [hmain] at hm0
      simp only [Cache.evictMain, hmain, evictMainLoop_nil, totalSize]
      simp only [List.map_nil, List.sum_nil] at hm0
      omega
  | case3 c hfit => exact Nat.le_of_not_lt hfit

end Accepting

/-- `insert` adds the entry's cost to what the loop at its head left. -/
theorem totalSize_insert [DecidableEq E] (ev : E → Bool) (c : Cache E) (e : E) :
    (c.insert L ev e).totalSize = (c.evictToFit L ev).totalSize + L.cost e := by
  simp only [Cache.insert]
  split <;> simp only [totalSize, Cache.pushMain, Cache.pushSmall] <;> omega

/-- Every reachable cache keeps the books. -/
theorem Reachable.inv [DecidableEq E] {c : Cache E} (h : Reachable L c) : Inv L c := by
  induction h with
  | empty => exact inv_empty
  | step op _ hop ih =>
    cases op with
    | insert ev e => exact ih.insert ev hop
    | remove e => exact ih.remove
    | evict ev => exact ih.evict ev
    | touch e => exact ih.touch

theorem s3_fifo_bookkeeping [DecidableEq E] {c : Cache E} (h : Reachable L c) :
    Accounting L c ∧
      (∀ op : Op E, op.Allowed c → ∃ new : List (Departure E),
        (op.run L c).departures = c.departures ++ new ∧ (∀ d ∈ new, op.Departs d) ∧
          ((op.run L c).queued ++ new.map Departure.entry).Perm (c.queued ++ op.entering)) ∧
      (∀ ev : E → Bool, Evicted ev c (c.evict L ev).2 (c.evict L ev).1) ∧
      (∀ e, c.ghostQueueContains L e = true ↔ e ∉ c.queued ∧ ∃ pre post,
        c.departures = pre ++ .smallEviction e :: post ∧ (∀ d ∈ post, d.entry ≠ e) ∧
          smallEvictionCost L (.smallEviction e :: post) < L.cacheSize - L.smallSize) ∧
      (∀ (ev : E → Bool) (e : E), (∀ y, ev y = true) →
        (c.insert L ev e).totalSize ≤ L.cacheSize + L.cost e) := by
  have hi := h.inv
  refine ⟨hi.toAccounting, hi.run_departs, fun ev => evict_evicted L ev c,
    hi.ghostQueueContains_iff, ?_⟩
  intro ev e hev
  have := hi.totalSize_evictToFit_le hev
  rw [totalSize_insert]
  omega

/-- A cache of size two whose small FIFO may hold nothing: `evict()` after
    the first insert sends the entry from the small FIFO to the ghost queue,
    and the next insert stays within the cache's size plus its own cost. -/
theorem s3_fifo_bookkeeping_ghost :
    let L : Config Nat := ⟨2, 0, fun _ => 1, by decide⟩
    let c := (Op.evict fun _ => true).run L ((Op.insert (fun _ => true) 7).run L .empty)
    c.ghostQueueContains L 7 = true ∧ (c.insert L (fun _ => true) 8).totalSize ≤ 3 := by
  intro L c
  have hr : Reachable L c :=
    .step _ (.step _ .empty (by simp [Op.Allowed, Cache.queued, Cache.empty])) trivial
  obtain ⟨-, -, -, hghost, hfit⟩ := s3_fifo_bookkeeping hr
  -- the run, evaluated: nothing is linked, and the log holds the one eviction
  have hrun : c.queued = [] ∧ c.departures = [] ++ [.smallEviction 7] := by
    simp [c, L, Op.run, Cache.insert, Cache.evictToFit, Cache.totalSize, Cache.empty,
      Cache.ghostQueueContains, CacheHook.init, Cache.pushSmall, Cache.evict, Cache.evictSmall,
      Cache.evictSmallLoop, Cache.evictFromSmall, Cache.queued]
  refine ⟨(hghost 7).2 ⟨by simp [hrun.1], [], [], hrun.2, by simp, ?_⟩, hfit _ 8 fun _ => rfl⟩
  simp [L, Departure.ghostCost]

end Utils.S3Fifo
