import Mathlib
import Redpanda.Cluster.ProducerState

/-! # Deduplication of one idempotent producer over whole runs

    One producer in one term: it sends the batches of consecutive sequence
    ranges and resends any of them; `rm_stm` replicates what
    `do_idempotent_replicate` lets through and completes it; the state
    machine applies the replicated batches in order.  A ghost run pairs the
    request cache with the list of ranges replicated so far and the ranges
    applied so far with their offsets.

    The invariant (`Inv`, with `Layout`) says where every replicated range
    is: in flight are the newest ones, none applied; finished are the newest
    applied ones with their offsets; and each of the five newest ranges is
    in one of the two queues.  From it: a resend of one of the five newest
    ranges is answered with its request and never replicated again, the
    next range is always accepted, and no range is replicated twice
    (`idempotent_run_dedups_last_five`).  A resend of an older range is not
    covered, and can be refused: `retry_after_five_completed_is_out_of_order`. -/

namespace IdempotentProducer

open ProducerState

/-- What happens to one producer's cache within one term. -/
inductive Event where
  /-- The producer sends, or resends, the batch of a sequence range. -/
  | produce (first last : Int)
  /-- The state machine applies the oldest replicated batch not applied
      yet, at a Kafka offset. -/
  | apply (offset : Int)
  /-- Replication of the request of a range ends with a result. -/
  | complete (first last : Int) (result : Except Errc Int)
deriving DecidableEq, Repr

/-- The cache, the ranges replicated so far and the ranges applied so far
    with the offsets `stm_apply` recorded, oldest first. -/
structure Ghost where
  reqs : Requests
  log : List (Int × Int)
  applied : List ((Int × Int) × Int)

/-- The ghost before anything was sent. -/
def Ghost.init : Ghost := ⟨Requests.empty, [], []⟩

section Run

variable (t : Int)

/-- One event in term `t`. -/
def gstep (g : Ghost) : Event → Ghost
  | .produce f l =>
      let out := doIdempotentReplicate g.reqs f l t false
      { g with reqs := out.2.1, log := if out.2.2 then g.log ++ [(f, l)] else g.log }
  | .apply o =>
      match g.log[g.applied.length]? with
      | some rg => { g with reqs := g.reqs.stmApply rg.1 rg.2 t o, applied := g.applied ++ [(rg, o)] }
      | none => g
  | .complete f l res => { g with reqs := g.reqs.completeRequest f l t res }

/-- A run of events in term `t`. -/
def grun (evs : List Event) : Ghost := evs.foldl (gstep t) Ghost.init

end Run

/-! ## What the producer and the state machine do -/

/-- The five newest replicated ranges. -/
def lastFive (log : List (Int × Int)) : List (Int × Int) :=
  log.drop (log.length - requestsCachedMax)

/-- The first sequence of the next batch: zero at first, then one past the
    previous last sequence, wrapping at `int32_t` max. -/
def nextFirst (log : List (Int × Int)) : Int :=
  match log.getLast? with
  | none => 0
  | some rg => incrementSequence rg.2 1

/-- The next batch: it starts where the previous one ended, is a range of
    `int32_t` sequences in order, and was not sent before. -/
def IsNext (log : List (Int × Int)) (f l : Int) : Prop :=
  f = nextFirst log ∧ f ≤ l ∧ l ≤ seqMax ∧ (f, l) ∉ log

instance (log : List (Int × Int)) (f l : Int) : Decidable (IsNext log f l) :=
  inferInstanceAs (Decidable (_ ∧ _))

/-- What may happen next: a resend of one of the five newest ranges or the
    next batch; applying a replicated batch; completing any request. -/
def Allowed (g : Ghost) : Event → Prop
  | .produce f l => (f, l) ∈ lastFive g.log ∨ IsNext g.log f l
  | .apply _ => g.applied.length < g.log.length
  | .complete _ _ _ => True

instance (g : Ghost) (e : Event) : Decidable (Allowed g e) :=
  match e with
  | .produce f l => inferInstanceAs (Decidable ((f, l) ∈ lastFive g.log ∨ IsNext g.log f l))
  | .apply _ => inferInstanceAs (Decidable (g.applied.length < g.log.length))
  | .complete _ _ _ => inferInstanceAs (Decidable True)

/-- Every event of the run is allowed where it happens. -/
def RunAllowed (t : Int) (g : Ghost) : List Event → Prop
  | [] => True
  | e :: es => Allowed g e ∧ RunAllowed t (gstep t g e) es

instance decRunAllowed (t : Int) (g : Ghost) : (evs : List Event) → Decidable (RunAllowed t g evs)
  | [] => inferInstanceAs (Decidable True)
  | e :: es =>
      haveI := decRunAllowed t (gstep t g e) es
      inferInstanceAs (Decidable (Allowed g e ∧ RunAllowed t (gstep t g e) es))

/-! ## The invariant -/

/-- The request `stm_apply` recorded for an applied range. -/
def finishedOf (p : (Int × Int) × Int) : Request := Requests.finishedRequest p.1.1 p.1.2 p.2

/-- Where the replicated ranges are: the ranges from `i` on are in flight,
    the applied ones from `j` on are finished, and each of the five newest
    ranges is in one of the two. -/
structure Layout (g : Ghost) (i j : Nat) : Prop where
  applied_le : g.applied.length ≤ i
  evicted_le : i ≤ g.log.length
  forgotten_le : j ≤ g.applied.length
  applied_ranges : g.applied.map Prod.fst = g.log.take g.applied.length
  inflight_ranges : g.reqs.inflight.map Request.range = g.log.drop i
  finished_eq : g.reqs.finished = (g.applied.drop j).map finishedOf
  window : ∀ m, g.log.length - requestsCachedMax ≤ m → m < g.log.length →
    (m < g.applied.length → j ≤ m) ∧ (g.applied.length ≤ m → i ≤ m)

/-- The invariant of a run in term `t`. -/
structure Inv (t : Int) (g : Ghost) : Prop where
  nodup : g.log.Nodup
  wellFormed : ∀ rg ∈ g.log, rg.1 ≤ rg.2 ∧ rg.2 ≤ seqMax
  terms : ∀ r ∈ g.reqs.inflight, r.term = t
  started : ∀ r ∈ g.reqs.inflight, r.state ≠ .initialized
  layout : ∃ i j, Layout g i j

theorem inv_init (t : Int) : Inv t Ghost.init := by
  refine ⟨List.nodup_nil, (fun _ h => by cases h), (fun _ h => by cases h),
    (fun _ h => by cases h), ⟨0, 0, ?_⟩⟩
  refine ⟨Nat.le_refl 0, Nat.le_refl 0, Nat.le_refl 0, rfl, rfl, rfl, ?_⟩
  intro m _ hm
  cases hm

/-! ## Facts about the log -/

theorem not_mem_take_of_mem_drop {α : Type} {l : List α} (hl : l.Nodup) {k : Nat} {a : α}
    (hdrop : a ∈ l.drop k) (htake : a ∈ l.take k) : False := by
  rw [← List.take_append_drop k l, List.nodup_append] at hl
  exact hl.2.2 a htake a hdrop rfl

theorem exists_index_of_mem_drop {α : Type} {l : List α} {k : Nat} {a : α} (h : a ∈ l.drop k) :
    ∃ m, ∃ hm : m < l.length, k ≤ m ∧ l[m] = a := by
  obtain ⟨j, hj, hget⟩ := List.mem_drop_iff_getElem.mp h
  exact ⟨k + j, by omega, by omega, hget⟩

theorem mem_drop_of_getElem {α : Type} {l : List α} {m k : Nat} (hk : k ≤ m)
    (hm : m < l.length) : l[m] ∈ l.drop k := by
  rw [List.mem_drop_iff_getElem]
  exact ⟨m - k, by omega, by congr 1; omega⟩

theorem mem_take_of_getElem {α : Type} {l : List α} {m k : Nat} (hk : m < k)
    (hm : m < l.length) : l[m] ∈ l.take k := by
  rw [List.mem_iff_getElem]
  exact ⟨m, by rw [List.length_take]; omega, List.getElem_take⟩

/-- The finished requests are applied ranges with their recorded offsets. -/
theorem mem_finished {g : Ghost} {i j : Nat} (hl : Layout g i j) {r : Request} (hr : r ∈ g.reqs.finished) :
    ∃ p ∈ g.applied, r = finishedOf p := by
  rw [hl.finished_eq] at hr
  obtain ⟨p, hp, rfl⟩ := List.mem_map.mp hr
  exact ⟨p, List.mem_of_mem_drop hp, rfl⟩

theorem fst_mem_take {g : Ghost} {i j : Nat} (hl : Layout g i j) {p : (Int × Int) × Int}
    (hp : p ∈ g.applied) : p.1 ∈ g.log.take g.applied.length := by
  rw [← hl.applied_ranges]
  exact List.mem_map_of_mem hp

/-- The ranges of the finished requests are the applied ranges from `j` on. -/
theorem finished_ranges {g : Ghost} {i j : Nat} (hl : Layout g i j) :
    g.reqs.finished.map Request.range = (g.log.take g.applied.length).drop j := by
  rw [hl.finished_eq, ← hl.applied_ranges, List.map_map, ← List.map_drop]
  rfl

section Answers

variable {t : Int} {g : Ghost} (hinv : Inv t g)
include hinv

/-- Applied ranges are distinct, so a range has one recorded offset. -/
theorem applied_offset_unique {i j : Nat} (hl : Layout g i j) {p q : (Int × Int) × Int}
    (hp : p ∈ g.applied) (hq : q ∈ g.applied) (h : p.1 = q.1) : p = q := by
  have hnodup : (g.applied.map Prod.fst).Nodup := by
    rw [hl.applied_ranges]
    exact hinv.nodup.sublist (List.take_sublist _ _)
  exact List.inj_on_of_nodup_map hnodup hp hq h

/-- **A RESEND IS ANSWERED**: for each of the five newest ranges the cache
    holds a started request of that range; when the range was applied its
    result is the offset `stm_apply` recorded. -/
theorem lookup_of_lastFive {f l : Int} (hmem : (f, l) ∈ lastFive g.log) :
    ∃ r, g.reqs.lookup f l t = some r ∧ r.range = (f, l) ∧ r.state ≠ .initialized ∧
      ∀ o, ((f, l), o) ∈ g.applied → r.result = some (.ok o) := by
  obtain ⟨i, j, hl⟩ := hinv.layout
  -- the resent range is the `m`-th replicated one, among the five newest
  obtain ⟨m, hm, hnewest, hget⟩ := exists_index_of_mem_drop hmem
  have hwin := hl.window m hnewest hm
  by_cases happlied : m < g.applied.length
  · -- applied: its finished request is still cached
    have hq : g.applied[m] ∈ g.applied.drop j := by
      exact mem_drop_of_getElem (hwin.1 happlied) happlied
    have hqfst : g.applied[m].1 = (f, l) := by
      have h := congrArg (fun xs => xs[m]?) hl.applied_ranges
      simp only [List.getElem?_map, List.getElem?_take, happlied, if_true,
        List.getElem?_eq_getElem happlied, List.getElem?_eq_getElem hm, Option.map_some,
        Option.some.injEq] at h
      rw [h]
      exact hget
    have hfin : ∃ r ∈ g.reqs.finished, r.range = (f, l) := by
      refine ⟨finishedOf g.applied[m], ?_, hqfst⟩
      rw [hl.finished_eq]
      exact List.mem_map_of_mem hq
    obtain ⟨r, hlookup, hr, hrange⟩ := g.reqs.lookup_of_finished t hfin
    obtain ⟨p, hp, rfl⟩ := mem_finished hl hr
    refine ⟨finishedOf p, hlookup, hrange, RequestState.noConfusion, ?_⟩
    intro o ho
    have hpo : p = ((f, l), o) := applied_offset_unique hinv hl hp ho hrange
    rw [hpo]
    rfl
  · -- not applied: it is in flight, and no finished request has its range
    have hdrop : (f, l) ∈ g.log.drop g.applied.length := by
      rw [← hget]
      exact mem_drop_of_getElem (by omega) hm
    have hfin : ∀ r ∈ g.reqs.finished, r.range ≠ (f, l) := by
      intro r hr hrange
      obtain ⟨p, hp, rfl⟩ := mem_finished hl hr
      have htake := fst_mem_take hl hp
      exact not_mem_take_of_mem_drop hinv.nodup hdrop (hrange ▸ htake)
    have hinf : ∃ r ∈ g.reqs.inflight, r.range = (f, l) ∧ r.term = t := by
      have hin : (f, l) ∈ g.reqs.inflight.map Request.range := by
        rw [hl.inflight_ranges, ← hget]
        exact mem_drop_of_getElem (hwin.2 (by omega)) hm
      obtain ⟨r, hr, hrange⟩ := List.mem_map.mp hin
      exact ⟨r, hr, hrange, hinv.terms r hr⟩
    obtain ⟨r, hlookup, hr, hrange⟩ := g.reqs.lookup_of_inflight hfin hinf
    refine ⟨r, hlookup, hrange, hinv.started r hr, ?_⟩
    intro o ho
    exact absurd (not_mem_take_of_mem_drop hinv.nodup hdrop (fst_mem_take hl ho)) id

/-- **THE LAST REQUEST** is the one of the newest replicated range. -/
theorem lastRequest_range : g.reqs.lastRequest.map Request.range = g.log.getLast? := by
  obtain ⟨i, j, hl⟩ := hinv.layout
  have hwin := hl.window
  unfold Requests.lastRequest
  cases hinf : g.reqs.inflight.getLast? with
  | some r =>
      -- the newest in-flight range is the newest range
      have h := congrArg List.getLast? hl.inflight_ranges
      rw [List.getLast?_map, hinf, List.getLast?_drop] at h
      dsimp only
      split at h
      · cases h
      · exact h
  | none =>
      -- nothing in flight: every range from `i` on left, so the newest one
      -- was applied and is still finished
      have hempty : g.log.drop i = [] := by
        rw [← hl.inflight_ranges, List.getLast?_eq_none_iff.mp hinf]
        rfl
      have hi : g.log.length ≤ i := List.drop_eq_nil_iff.mp hempty
      have h := congrArg List.getLast? (finished_ranges hl)
      rw [List.getLast?_map, List.getLast?_drop] at h
      dsimp only
      cases hlog : g.log.length with
      | zero =>
          have hk : g.applied.length = 0 := by
            have := hl.applied_le
            have := hl.evicted_le
            omega
          rw [hk, List.take_zero, List.length_nil, if_pos (Nat.zero_le _)] at h
          rw [h, List.length_eq_zero_iff.mp hlog]
          rfl
      | succ n =>
          have hlast := hwin n (by unfold requestsCachedMax; omega) (by omega)
          have hk : g.applied.length = n + 1 := by
            have := hl.applied_le
            have := hl.evicted_le
            by_contra hne
            have := hlast.2 (by omega)
            omega
          have hj : j ≤ n := hlast.1 (by omega)
          rw [hk, ← hlog, List.take_length, if_neg (by omega)] at h
          exact h

/-- The next batch continues the sequence of the newest request. -/
theorem isValidSequence_of_next {f l : Int} (hnext : IsNext g.log f l) :
    g.reqs.isValidSequence f = true := by
  obtain ⟨hfirst, -, -, -⟩ := hnext
  have hlast := lastRequest_range hinv
  unfold Requests.isValidSequence
  unfold nextFirst at hfirst
  cases hreq : g.reqs.lastRequest with
  | none =>
      rw [hreq, Option.map_none] at hlast
      rw [← hlast] at hfirst
      simp [hfirst]
  | some r =>
      rw [hreq, Option.map_some] at hlast
      rw [← hlast] at hfirst
      have hbound : r.lastSequence ≤ seqMax :=
        (hinv.wellFormed r.range (List.mem_of_getLast? hlast.symm)).2
      -- the sequence after `int32_t` max is zero
      unfold incrementSequence at hfirst
      dsimp only at hfirst
      by_cases hmax : r.lastSequence = seqMax
      · rw [if_pos (by unfold Request.range; dsimp only; omega)] at hfirst
        simp [hmax, hfirst, Request.range]
      · rw [if_neg (by unfold Request.range; dsimp only; unfold seqMax at hbound hmax ⊢; omega)] at hfirst
        simp [hfirst, Request.range]

/-- A range never sent is in neither queue. -/
theorem lookup_of_fresh {f l : Int} (hfresh : (f, l) ∉ g.log) : g.reqs.lookup f l t = none := by
  obtain ⟨i, j, hl⟩ := hinv.layout
  apply Requests.lookup_eq_none
  · intro r hr hrange
    obtain ⟨p, hp, rfl⟩ := mem_finished hl hr
    exact hfresh (hrange ▸ List.mem_of_mem_take (fst_mem_take hl hp))
  · intro r hr hrange
    have hin : r.range ∈ g.log.drop i := by
      rw [← hl.inflight_ranges]
      exact List.mem_map_of_mem hr
    exact hfresh (hrange ▸ List.mem_of_mem_drop hin)

end Answers

/-! ## Each event keeps the invariant -/

theorem inflight_length {g : Ghost} {i j : Nat} (hl : Layout g i j) :
    g.reqs.inflight.length = g.log.length - i := by
  rw [← List.length_map (f := Request.range), hl.inflight_ranges, List.length_drop]

/-- Where the ranges are after the next batch is enqueued and `p` of the
    oldest in-flight requests are evicted. -/
theorem layout_enqueue {g : Ghost} {i j p : Nat} (hl : Layout g i j) {reqs : Requests}
    {rg : Int × Int}
    (hinf : reqs.inflight.map Request.range = (g.reqs.inflight.map Request.range ++ [rg]).drop p)
    (hfin : reqs.finished = if p = 0 then g.reqs.finished else [])
    (hlen : 0 < p → requestsCachedMax ≤ g.reqs.inflight.length + 1 - p) :
    Layout ⟨reqs, g.log ++ [rg], g.applied⟩ (i + p) (if p = 0 then j else g.applied.length) := by
  have hinflen := inflight_length hl
  have hi := hl.evicted_le
  have hk := hl.applied_le
  have hj := hl.forgotten_le
  -- eviction keeps at least `requests_cached_max` in flight
  have hp : 0 < p → i + p ≤ g.log.length + 1 - requestsCachedMax := by
    intro hpos
    have := hlen hpos
    unfold requestsCachedMax at this ⊢
    omega
  constructor
  all_goals dsimp only
  · omega
  · by_cases hpos : 0 < p
    · have := hp hpos
      rw [List.length_append, List.length_singleton]
      omega
    · rw [List.length_append, List.length_singleton]
      omega
  · split <;> omega
  · rw [List.take_append_of_le_length (by omega), hl.applied_ranges]
  · rw [hinf, hl.inflight_ranges, ← List.drop_drop, List.drop_append_of_le_length hi]
  · rw [hfin]
    split
    · exact hl.finished_eq
    · rw [List.drop_length]
      rfl
  · intro m hlo hhi
    rw [List.length_append, List.length_singleton] at hlo hhi
    by_cases hpos : 0 < p
    · -- something was evicted: the five newest are all in flight
      have := hp hpos
      rw [if_neg (by omega)]
      unfold requestsCachedMax at this hlo
      constructor <;> intro <;> omega
    · rw [if_pos (by omega)]
      by_cases hnew : m < g.log.length
      · have hold := hl.window m (by omega) hnew
        exact ⟨hold.1, fun h => by have := hold.2 h; omega⟩
      · exact ⟨fun h => by omega, fun _ => by omega⟩

/-- The layout depends on the queues only through the in-flight ranges and
    the finished requests. -/
theorem Layout.of_reqs {g : Ghost} {i j : Nat} (hl : Layout g i j) {reqs : Requests}
    (hinf : reqs.inflight.map Request.range = g.reqs.inflight.map Request.range)
    (hfin : reqs.finished = g.reqs.finished) : Layout { g with reqs := reqs } i j :=
  ⟨hl.applied_le, hl.evicted_le, hl.forgotten_le, hl.applied_ranges,
    hinf.trans hl.inflight_ranges, hfin.trans hl.finished_eq, hl.window⟩

theorem finished_length {g : Ghost} {i j : Nat} (hl : Layout g i j) :
    g.reqs.finished.length = g.applied.length - j := by
  rw [hl.finished_eq, List.length_map, List.length_drop]

/-- Where the ranges are after `stm_apply` of the oldest range not applied
    yet: it is promoted if it was still in flight, and recorded finished. -/
theorem layout_apply {g : Ghost} {i j : Nat} (hnodup : g.log.Nodup) (hl : Layout g i j)
    {rg : Int × Int} (hrg : g.log[g.applied.length]? = some rg) (o : Int) :
    Layout ⟨⟨Requests.promoteFront g.reqs.inflight rg.1 rg.2,
        (g.reqs.finished ++ [Requests.finishedRequest rg.1 rg.2 o]).drop
          (g.reqs.finished.length + 1 - requestsCachedMax)⟩, g.log, g.applied ++ [(rg, o)]⟩
      (if i = g.applied.length then g.applied.length + 1 else i)
      (j + (g.reqs.finished.length + 1 - requestsCachedMax)) := by
  have hk : g.applied.length < g.log.length := (List.getElem?_eq_some_iff.mp hrg).1
  have hfl := finished_length hl
  have hi := hl.evicted_le
  have hki := hl.applied_le
  have hj := hl.forgotten_le
  constructor
  all_goals dsimp only
  · rw [List.length_append, List.length_singleton]
    split <;> omega
  · split <;> omega
  · rw [List.length_append, List.length_singleton]
    omega
  · rw [List.length_append, List.length_singleton, List.map_append, hl.applied_ranges,
      List.take_add_one, hrg]
    rfl
  · rw [Requests.promoteFront_ranges, hl.inflight_ranges, List.head?_drop]
    by_cases hfront : i = g.applied.length
    · -- the applied range was still in flight, at the front
      rw [if_pos (by rw [hfront, hrg]), if_pos hfront, hfront, List.tail_drop]
    · -- the front in flight is a later range, distinct from the applied one
      have hne : g.log[i]? ≠ some rg := by
        intro h
        have hlt : i < g.log.length := (List.getElem?_eq_some_iff.mp h).1
        rw [← hrg] at h
        exact hfront ((List.getElem?_inj hlt hnodup).mp h)
      rw [if_neg hne, if_neg hfront]
  · generalize g.reqs.finished.length + 1 - requestsCachedMax = d
    have hrec : ((g.applied ++ [(rg, o)]).drop (j + d)).map finishedOf =
        ((g.applied.drop j).map finishedOf ++ [finishedOf (rg, o)]).drop d := by
      rw [← List.drop_drop, List.drop_append_of_le_length hj, List.map_drop, List.map_append]
      rfl
    rw [hrec, hl.finished_eq]
    rfl
  · intro m hlo hhi
    rw [List.length_append, List.length_singleton]
    have hold := hl.window m hlo hhi
    unfold requestsCachedMax at hlo ⊢
    constructor
    · intro hm
      by_cases hmk : m < g.applied.length
      · have := hold.1 hmk
        omega
      · omega
    · intro hm
      have := hold.2 (by omega)
      split <;> omega

section Driver

variable (t : Int) (g : Ghost)

theorem gstep_produce (f l : Int) :
    gstep t g (.produce f l) =
      { g with reqs := (doIdempotentReplicate g.reqs f l t false).2.1,
               log := if (doIdempotentReplicate g.reqs f l t false).2.2 then g.log ++ [(f, l)]
                 else g.log } := rfl

theorem gstep_apply {rg : Int × Int} (h : g.log[g.applied.length]? = some rg) (o : Int) :
    gstep t g (.apply o) =
      { g with reqs := g.reqs.stmApply rg.1 rg.2 t o, applied := g.applied ++ [(rg, o)] } := by
  unfold gstep
  rw [h]

theorem gstep_complete (f l : Int) (res : Except Errc Int) :
    gstep t g (.complete f l res) = { g with reqs := g.reqs.completeRequest f l t res } := rfl

end Driver

section Steps

variable {t : Int} {g : Ghost} (hinv : Inv t g)
include hinv

/-- **A RESEND**: answered with the cached request, nothing replicated, the
    cache unchanged; an applied range's answer carries its offset. -/
theorem produce_retry {f l : Int} (hmem : (f, l) ∈ lastFive g.log) :
    ∃ r, doIdempotentReplicate g.reqs f l t false = (.ok r, g.reqs, false) ∧
      r.range = (f, l) ∧ ∀ o, ((f, l), o) ∈ g.applied → r.result = some (.ok o) := by
  obtain ⟨r, hlookup, hrange, hstarted, hoffset⟩ := lookup_of_lastFive hinv hmem
  have hle : f ≤ l := (hinv.wellFormed (f, l) (List.mem_of_mem_drop hmem)).1
  exact ⟨r, doIdempotentReplicate_of_lookup hle hinv.terms hlookup hstarted, hrange, hoffset⟩

/-- **THE NEXT BATCH**: enqueued, marked in progress and replicated. -/
theorem produce_next {f l : Int} (hnext : IsNext g.log f l) :
    doIdempotentReplicate g.reqs f l t false =
      (.ok (Requests.newRequest f l t).markRequestInProgress,
        (g.reqs.enqueue f l t).2.updateRequest f l t Request.markRequestInProgress, true) :=
  doIdempotentReplicate_of_valid hnext.2.1 hinv.terms (lookup_of_fresh hinv hnext.2.2.2)
    (isValidSequence_of_next hinv hnext)

theorem inv_produce_retry {f l : Int} (hmem : (f, l) ∈ lastFive g.log) :
    Inv t (gstep t g (.produce f l)) := by
  obtain ⟨r, hrep, -⟩ := produce_retry hinv hmem
  rw [gstep_produce, hrep]
  exact hinv

theorem inv_produce_next {f l : Int} (hnext : IsNext g.log f l) :
    Inv t (gstep t g (.produce f l)) := by
  obtain ⟨i, j, hl⟩ := hinv.layout
  obtain ⟨p, heq, hlen⟩ := g.reqs.enqueue_eq f l t
  rw [gstep_produce, produce_next hinv hnext, heq]
  obtain ⟨-, hle, hmax, hfresh⟩ := hnext
  have hinf : ((⟨(g.reqs.inflight ++ [Requests.newRequest f l t]).drop p,
      if p = 0 then g.reqs.finished else []⟩ : Requests).updateRequest f l t
        Request.markRequestInProgress).inflight.map Request.range =
      (g.reqs.inflight.map Request.range ++ [(f, l)]).drop p := by
    rw [Requests.updateRequest_ranges (f := Request.markRequestInProgress) (fun _ => rfl),
      List.map_drop, List.map_append]
    rfl
  refine ⟨?_, ?_, ?_, ?_, ⟨_, _, layout_enqueue hl hinf rfl hlen⟩⟩
  · exact List.nodup_append.mpr ⟨hinv.nodup, List.nodup_singleton _,
      fun a ha b hb hab => hfresh (List.mem_singleton.mp hb ▸ hab ▸ ha)⟩
  · intro rg hrg
    rcases List.mem_append.mp hrg with hold | hnew
    · exact hinv.wellFormed rg hold
    · rw [List.mem_singleton.mp hnew]
      exact ⟨hle, hmax⟩
  · intro r hr
    obtain ⟨r₀, hr₀, rfl⟩ := Requests.mem_updateRequest hr
    have hterm : r₀.term = t := by
      rcases List.mem_append.mp (List.mem_of_mem_drop hr₀) with hold | hnew
      · exact hinv.terms r₀ hold
      · rw [List.mem_singleton.mp hnew]
        rfl
    split <;> exact hterm
  · -- the new request is the one marked in progress
    intro r hr
    obtain ⟨r₀, hr₀, rfl⟩ := Requests.mem_updateRequest hr
    split
    · exact RequestState.noConfusion
    · rename_i hmatch
      rcases List.mem_append.mp (List.mem_of_mem_drop hr₀) with hold | hnew
      · exact hinv.started r₀ hold
      · rw [List.mem_singleton.mp hnew] at hmatch
        exact absurd ⟨rfl, rfl, rfl⟩ hmatch

theorem inv_apply (happ : g.applied.length < g.log.length) (o : Int) :
    Inv t (gstep t g (.apply o)) := by
  obtain ⟨i, j, hl⟩ := hinv.layout
  have hrg : g.log[g.applied.length]? = some g.log[g.applied.length] :=
    List.getElem?_eq_getElem happ
  rw [gstep_apply t g hrg o, Requests.stmApply_eq hinv.terms]
  refine ⟨hinv.nodup, hinv.wellFormed, ?_, ?_, ⟨_, _, layout_apply hinv.nodup hl hrg o⟩⟩
  · intro r hr
    exact hinv.terms r ((Requests.promoteFront_sublist _ _ _).subset hr)
  · intro r hr
    exact hinv.started r ((Requests.promoteFront_sublist _ _ _).subset hr)

theorem inv_complete (f l : Int) (res : Except Errc Int) : Inv t (gstep t g (.complete f l res)) := by
  obtain ⟨i, j, hl⟩ := hinv.layout
  rw [gstep_complete]
  refine ⟨hinv.nodup, hinv.wellFormed, ?_, ?_,
    ⟨i, j, hl.of_reqs (Requests.completeRequest_ranges f l t res) rfl⟩⟩
  · intro r hr
    obtain ⟨r₀, hr₀, hterm, -⟩ := Requests.mem_completeRequest hr
    rw [hterm]
    exact hinv.terms r₀ hr₀
  · intro r hr
    obtain ⟨r₀, hr₀, -, hstarted⟩ := Requests.mem_completeRequest hr
    exact hstarted (hinv.started r₀ hr₀)

/-- **ONE STEP** of an allowed event keeps the invariant. -/
theorem inv_gstep {e : Event} (hallowed : Allowed g e) : Inv t (gstep t g e) := by
  cases e with
  | produce f l =>
      rcases hallowed with hmem | hnext
      · exact inv_produce_retry hinv hmem
      · exact inv_produce_next hinv hnext
  | apply o => exact inv_apply hinv hallowed o
  | complete f l res => exact inv_complete hinv f l res

end Steps

/-- **A WHOLE RUN** of allowed events keeps the invariant. -/
theorem inv_run {t : Int} (evs : List Event) :
    ∀ {g : Ghost}, Inv t g → RunAllowed t g evs → Inv t (evs.foldl (gstep t) g) := by
  induction evs with
  | nil => exact fun hinv _ => hinv
  | cons e es ih => exact fun hinv hrun => ih (inv_gstep hinv hrun.1) hrun.2

/-- In any allowed run of one producer in one term: no range is replicated
    twice; a resend of one of the five newest ranges is answered with its
    cached request (carrying the offset `stm_apply` recorded, once applied),
    is not replicated again and leaves the cache unchanged; and the next
    batch is accepted and replicated. -/
theorem idempotent_run_dedups_last_five (t : Int) (evs : List Event)
    (hrun : RunAllowed t Ghost.init evs) :
    (grun t evs).log.Nodup ∧
      (∀ f l, (f, l) ∈ lastFive (grun t evs).log →
        ∃ r, doIdempotentReplicate (grun t evs).reqs f l t false = (.ok r, (grun t evs).reqs, false) ∧
          r.range = (f, l) ∧ ∀ o, ((f, l), o) ∈ (grun t evs).applied → r.result = some (.ok o)) ∧
      (∀ f l, IsNext (grun t evs).log f l →
        ∃ r s, doIdempotentReplicate (grun t evs).reqs f l t false = (.ok r, s, true) ∧
          r.range = (f, l)) := by
  have hinv : Inv t (grun t evs) := inv_run evs (inv_init t) hrun
  refine ⟨hinv.nodup, fun f l hmem => produce_retry hinv hmem, fun f l hnext => ?_⟩
  exact ⟨_, _, produce_next hinv hnext, rfl⟩

/-- A run with an applied batch, a completed one, resends of both and a
    new batch. -/
def mixedRun : List Event :=
  [.produce 0 2, .produce 3 3, .complete 0 2 (.ok 10), .apply 10, .produce 0 2,
    .complete 3 3 (.ok 11), .produce 3 3, .produce 4 9]

theorem idempotent_run_dedups_last_five_mixed :
    RunAllowed 1 Ghost.init mixedRun ∧
      ((grun 1 mixedRun).log.Nodup ∧
        (∀ f l, (f, l) ∈ lastFive (grun 1 mixedRun).log →
          ∃ r, doIdempotentReplicate (grun 1 mixedRun).reqs f l 1 false =
              (.ok r, (grun 1 mixedRun).reqs, false) ∧
            r.range = (f, l) ∧ ∀ o, ((f, l), o) ∈ (grun 1 mixedRun).applied → r.result = some (.ok o)) ∧
        (∀ f l, IsNext (grun 1 mixedRun).log f l →
          ∃ r s, doIdempotentReplicate (grun 1 mixedRun).reqs f l 1 false = (.ok r, s, true) ∧
            r.range = (f, l))) :=
  ⟨by decide, idempotent_run_dedups_last_five 1 mixedRun (by decide)⟩

/-- Five batches replicated and completed (none outstanding) but not applied
    yet, then a sixth: the eviction drops the first. -/
def fiveCompletedThenSixth : List Event :=
  [.produce 0 0, .produce 1 1, .produce 2 2, .produce 3 3, .produce 4 4,
    .complete 0 0 (.ok 0), .complete 1 1 (.ok 1), .complete 2 2 (.ok 2), .complete 3 3 (.ok 3),
    .complete 4 4 (.ok 4), .produce 5 5]

/-- **A RECENTLY COMPLETED BATCH IS REFUSED**: after that run a resend of the
    first batch, completed and never more than five outstanding, is answered
    `sequence_out_of_order`. -/
theorem retry_after_five_completed_is_out_of_order :
    (grun 1 fiveCompletedThenSixth).log = [(0, 0), (1, 1), (2, 2), (3, 3), (4, 4), (5, 5)] ∧
      (doIdempotentReplicate (grun 1 fiveCompletedThenSixth).reqs 0 0 1 false).1 =
        .error .sequenceOutOfOrder := by
  decide

/-- **A BATCH THAT STRADDLES `int32_t` MAX IS REFUSED**: after a first batch
    that ends two sequences short of the maximum, the next batch of three
    records starts at `seqMax - 1` and `batch_identity::from` wraps its last
    sequence to 0.  The sequence check would take it, but
    `try_emplace_request` answers `invalid_request` and nothing is
    replicated. -/
theorem straddling_batch_is_invalid_request :
    nextFirst (grun 1 [.produce 0 (seqMax - 2)]).log = seqMax - 1 ∧
      incrementSequence (seqMax - 1) 2 = 0 ∧
      (grun 1 [.produce 0 (seqMax - 2)]).reqs.isValidSequence (seqMax - 1) = true ∧
      doIdempotentReplicate (grun 1 [.produce 0 (seqMax - 2)]).reqs (seqMax - 1)
          (incrementSequence (seqMax - 1) 2) 1 false =
        (.error .invalidRequest, (grun 1 [.produce 0 (seqMax - 2)]).reqs, false) := by
  refine ⟨by decide, by decide, by decide, ?_⟩
  rw [doIdempotentReplicate, tryEmplaceRequest_of_straddles _ _ _ (by decide) (by decide)]

end IdempotentProducer
