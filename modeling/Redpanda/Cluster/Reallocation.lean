import Mathlib
import Redpanda.Cluster.ReallocationCounts

/-! # Reallocating the replicas of a partition: exact and reversible counts

    An `allocated_partition` made from the replicas `R0` on distinct nodes of
    a state `S0` moves its replicas with `do_allocate_replica` and takes moves
    back with `try_revert`.  `Tracks` is what holds between the partition and
    the state after any such calls: the replicas stay on distinct nodes, each
    on the core `shardOf` names, and the state's nodes are `expected` for the
    nodes the partition is on.  One lemma per call keeps it
    (`Tracks.addReplica_none`, `Tracks.addReplica_some`, `Tracks.tryRevert`),
    and the destructor takes a tracked state back to the nodes of `S0`
    (`Tracks.destroy`).

    The calls are `ReallocOp`s of a `ReallocRun`, which also keeps the steps
    the allocations returned and how many replicas were added and reverted;
    `ReallocRun.Inv` holds along every admissible run. -/

namespace Scheduling

open AllocationState AllocatedPartition
open scoped List

/-! ## Moving an element within a vector -/

section Vector

/-- Swapping `v[i]` with the back and overwriting the back replaces `v[i]`,
    up to order. -/
theorem swapBackAndSet_perm {l : List BrokerShard} {i : Nat} (hi : i < l.length)
    (x : BrokerShard) : (swapBackAndSet l i x).Perm (l.set i x) := by
  obtain ⟨a, back, rfl⟩ : ∃ a back, l = a ++ [back] := by
    rcases List.eq_nil_or_concat l with rfl | ⟨a, back, rfl⟩
    · simp at hi
    · exact ⟨a, back, List.concat_eq_append⟩
  have hlast : (a ++ [back]).getLast? = some back := by simp
  simp only [swapBackAndSet, hlast, List.length_append, List.length_singleton, Nat.add_sub_cancel]
  rcases Nat.lt_or_ge i a.length with hlt | hge
  · -- the element at `i` goes to the back, and the back takes its place
    rw [List.set_append_left _ _ hlt, List.set_append_left _ _ hlt,
      List.set_append_right _ _ (by simp), List.length_set, Nat.sub_self]
    calc List.Perm (a.set i back ++ [x]) ((back :: a.eraseIdx i) ++ [x])
          := (List.set_perm_cons_eraseIdx hlt back).append_right _
      _ ~ x :: back :: a.eraseIdx i := List.perm_append_singleton _ _
      _ ~ back :: x :: a.eraseIdx i := List.Perm.swap _ _ _
      _ ~ (x :: a.eraseIdx i) ++ [back] := (List.perm_append_singleton _ _).symm
      _ ~ a.set i x ++ [back] := ((List.set_perm_cons_eraseIdx hlt x).append_right _).symm
  · -- `i` is the back itself
    have hi' : i = a.length := by simp at hi; omega
    subst hi'
    simp

/-- Swapping `v[i]` with the back and popping the back removes `v[i]`, up to
    order. -/
theorem popSwapped_perm {l : List BrokerShard} {i : Nat} (hi : i < l.length) :
    (popSwapped l i).Perm (l.eraseIdx i) := by
  obtain ⟨a, back, rfl⟩ : ∃ a back, l = a ++ [back] :=
    ⟨_, _, (List.dropLast_concat_getLast (List.ne_nil_of_length_pos (by omega))).symm⟩
  have hlast : (a ++ [back]).getLast? = some back := by simp
  simp only [popSwapped, hlast]
  rcases Nat.lt_or_ge i a.length with hlt | hge
  · rw [List.set_append_left _ _ hlt, List.dropLast_concat, List.eraseIdx_append_of_lt_length hlt]
    calc List.Perm (a.set i back) (back :: a.eraseIdx i) := List.set_perm_cons_eraseIdx hlt back
      _ ~ a.eraseIdx i ++ [back] := (List.perm_append_singleton _ _).symm
  · have hi' : i = a.length := by simp at hi; omega
    subst hi'
    simp [List.eraseIdx_append_of_length_le]

end Vector

/-! ## The nodes a partition is on -/

section Membership

variable {α : Type*} [DecidableEq α]

theorem decide_mem_concat (l : List α) (b : α) :
    (fun n => decide (n ∈ l ++ [b])) = Function.update (fun n => decide (n ∈ l)) b true := by
  funext n
  by_cases hn : n = b
  · subst hn
    simp
  · simp [hn]

theorem decide_mem_erase {l : List α} (hl : l.Nodup) (a : α) :
    (fun n => decide (n ∈ l.erase a)) = Function.update (fun n => decide (n ∈ l)) a false := by
  funext n
  by_cases hn : n = a
  · subst hn
    simp [hl.not_mem_erase]
  · simp [hn, hl.mem_erase_iff]

theorem decide_mem_cons_erase {l : List α} (hl : l.Nodup) (a b : α) :
    (fun n => decide (n ∈ b :: l.erase a)) =
      Function.update (Function.update (fun n => decide (n ∈ l)) a false) b true := by
  rw [← decide_mem_erase hl a]
  funext n
  by_cases hn : n = b
  · subst hn
    simp
  · simp [hn]

end Membership

section Nodes

variable {P : List BrokerShard} {i : Nat}

/-- On distinct nodes, removing the replica at `i` removes its node. -/
theorem map_nodeId_eraseIdx (hP : (P.map (·.nodeId)).Nodup) (hi : i < P.length) :
    (P.eraseIdx i).map (·.nodeId) = (P.map (·.nodeId)).erase P[i].nodeId := by
  have herase := hP.erase_getElem i (by simpa using hi)
  rw [List.getElem_map] at herase
  rw [herase, List.eraseIdx_map]

/-- On distinct nodes, replacing the replica at `i` by `x` replaces its node
    by `x`'s, up to order. -/
theorem map_nodeId_set_perm (hP : (P.map (·.nodeId)).Nodup) (hi : i < P.length)
    (x : BrokerShard) :
    ((P.set i x).map (·.nodeId)).Perm (x.nodeId :: (P.map (·.nodeId)).erase P[i].nodeId) := by
  have hperm := (List.set_perm_cons_eraseIdx hi x).map (·.nodeId)
  rwa [List.map_cons, map_nodeId_eraseIdx hP hi] at hperm

/-- `prepare_move` finds a replica on the node, and where it is. -/
theorem prepareMove_spec {p : AllocatedPartition} {prevNode : Int} {pr : PreviousReplica}
    (h : p.prepareMove prevNode = some pr) :
    ∃ hi : pr.idx < p.replicas.length, p.replicas[pr.idx] = pr.bs ∧ pr.bs.nodeId = prevNode := by
  obtain ⟨⟨bs, idx⟩, hfind, rfl⟩ := Option.map_eq_some_iff.mp h
  have hmem := List.mem_zipIdx' (List.mem_of_find?_eq_some hfind)
  have hnode : bs.nodeId = prevNode := by simpa using List.find?_some hfind
  exact ⟨hmem.1, hmem.2.symm, hnode⟩

end Nodes

/-! ## The invariant of a partition whose replicas move -/

section Tracks

variable (S0 : AllocationState) (R0 : List BrokerShard)

/-- A replica is on the core a replica of the partition takes on its node. -/
def Conforms (bs : BrokerShard) : Prop := bs.shard = shardOf S0 R0 bs.nodeId

/-- What holds between a partition made from the replicas `R0` of `S0` and
    the state, after any calls on the partition. -/
structure Tracks (p : AllocatedPartition) (s : AllocationState) : Prop where
  flag : s.nodeLocalCoreAssignment = S0.nodeLocalCoreAssignment
  original : (p.originalNode2shard = none ∧ p.replicas = R0) ∨
    p.originalNode2shard = some (buildOriginal R0)
  distinct : (p.replicas.map (·.nodeId)).Nodup
  shards : ∀ r ∈ p.replicas, Conforms S0 R0 r
  counts : s.nodes = expected S0 R0 fun n => decide (n ∈ p.replicas.map (·.nodeId))

variable {S0 R0} {p : AllocatedPartition} {s : AllocationState}

/-- The partition as it is made, from replicas on distinct nodes. -/
theorem tracks_init (hR0 : (R0.map (·.nodeId)).Nodup) : Tracks S0 R0 ⟨R0, none⟩ S0 where
  flag := rfl
  original := .inl ⟨rfl, rfl⟩
  distinct := hR0
  shards := fun r hr => by
    unfold Conforms shardOf
    rw [findNode_buildOriginal hR0 hr]
  counts := by
    refine (expected_original S0 R0 _ fun n => ?_).symm
    rw [isOriginal, containsNode_buildOriginal]

/-- The original map `add_replica` reads is the one of `R0`. -/
theorem Tracks.orig (h : Tracks S0 R0 p s) :
    p.originalNode2shard.getD (buildOriginal p.replicas) = buildOriginal R0 := by
  rcases h.original with ⟨hnone, hR⟩ | hsome
  · rw [hnone, hR]
    rfl
  · rw [hsome]
    rfl

/-- What the invariant says of the replicas, for a list `Q` that replaces the
    replica at `i` by one on its node or on a node the partition is not on. -/
theorem Tracks.replace (h : Tracks S0 R0 p s) {i : Nat} (hi : i < p.replicas.length)
    {x : BrokerShard} (hx : Conforms S0 R0 x)
    (hnew : x.nodeId = p.replicas[i].nodeId ∨ x.nodeId ∉ p.replicas.map (·.nodeId))
    {Q : List BrokerShard} (hQ : Q.Perm (p.replicas.set i x)) :
    (Q.map (·.nodeId)).Nodup ∧ (∀ r ∈ Q, Conforms S0 R0 r) ∧
      (fun n => decide (n ∈ Q.map (·.nodeId))) =
        Function.update (Function.update (fun n => decide (n ∈ p.replicas.map (·.nodeId)))
          p.replicas[i].nodeId false) x.nodeId true ∧
      Q.length = p.replicas.length := by
  have hnodes := (hQ.map (·.nodeId)).trans (map_nodeId_set_perm h.distinct hi x)
  refine ⟨?_, ?_, ?_, by rw [hQ.length_eq, List.length_set]⟩
  · -- the new node is not among the others
    rw [hnodes.nodup_iff, List.nodup_cons]
    refine ⟨?_, h.distinct.erase _⟩
    rcases hnew with hsame | hout
    · rw [hsame]
      exact h.distinct.not_mem_erase
    · exact fun hmem => hout (List.mem_of_mem_erase hmem)
  · intro r hr
    rcases List.mem_or_eq_of_mem_set (hQ.mem_iff.mp hr) with hr | rfl
    · exact h.shards r hr
    · exact hx
  · rw [← decide_mem_cons_erase h.distinct]
    funext n
    exact decide_eq_decide.mpr hnodes.mem_iff

/-- What the invariant says of the replicas, for a list `Q` that drops the
    replica at `i`. -/
theorem Tracks.remove (h : Tracks S0 R0 p s) {i : Nat} (hi : i < p.replicas.length)
    {Q : List BrokerShard} (hQ : Q.Perm (p.replicas.eraseIdx i)) :
    (Q.map (·.nodeId)).Nodup ∧ (∀ r ∈ Q, Conforms S0 R0 r) ∧
      (fun n => decide (n ∈ Q.map (·.nodeId))) =
        Function.update (fun n => decide (n ∈ p.replicas.map (·.nodeId)))
          p.replicas[i].nodeId false ∧
      Q.length + 1 = p.replicas.length := by
  have hnodes := (hQ.map (·.nodeId)).trans
    (List.Perm.of_eq (map_nodeId_eraseIdx h.distinct hi))
  refine ⟨hnodes.nodup_iff.mpr (h.distinct.erase _), ?_, ?_, ?_⟩
  · intro r hr
    exact h.shards r (List.mem_of_mem_eraseIdx (hQ.mem_iff.mp hr))
  · rw [← decide_mem_erase h.distinct]
    funext n
    exact decide_eq_decide.mpr hnodes.mem_iff
  · rw [hQ.length_eq, List.length_eraseIdx_of_lt hi]
    omega

end Tracks

/-! ## The calls on the partition -/

section Calls

variable {S0 : AllocationState} {R0 : List BrokerShard} {p p' : AllocatedPartition}
  {s s' : AllocationState}

/-- A step returned by `do_allocate_replica` whose replicas conform. -/
def StepConforms (S0 : AllocationState) (R0 : List BrokerShard) (step : ReallocationStep) :
    Prop :=
  Conforms S0 R0 step.current ∧ ∀ prev, step.previous = some prev → Conforms S0 R0 prev

/-- Two conforming replicas on one node are the same replica. -/
theorem Conforms.eq_of_nodeId {r x : BrokerShard} (hr : Conforms S0 R0 r)
    (hx : Conforms S0 R0 x) (h : r.nodeId = x.nodeId) : r = x := by
  obtain ⟨n, c⟩ := r
  obtain ⟨n', c'⟩ := x
  simp only at h
  subst h
  unfold Conforms at hr hx
  dsimp only at hr hx
  rw [hr, hx]

/-- A conforming replica the partition does not hold is on a node it is not
    on. -/
theorem Tracks.nodeId_not_mem (h : Tracks S0 R0 p s) {x : BrokerShard}
    (hx : Conforms S0 R0 x) (hnot : x ∉ p.replicas) : x.nodeId ∉ p.replicas.map (·.nodeId) := by
  intro hmem
  obtain ⟨r, hr, hnode⟩ := List.mem_map.mp hmem
  exact hnot (Conforms.eq_of_nodeId (h.shards r hr) hx hnode ▸ hr)

/-- `add_replica` with no previous replica, on a node the partition is not
    on: the partition gains the replica on the core `shardOf` names. -/
theorem Tracks.addReplica_none (h : Tracks S0 R0 p s) {node : Int}
    (hnode : node ∉ p.replicas.map (·.nodeId)) {bs : BrokerShard}
    (hr : p.addReplica s node none = (bs, p', s')) :
    Tracks S0 R0 p' s' ∧ bs = ⟨node, shardOf S0 R0 node⟩ ∧ p'.replicas = p.replicas ++ [bs] := by
  obtain ⟨hbs, hnodes, hflag⟩ := placeReplica_spec h.counts h.flag (decide_eq_false hnode)
  simp only [addReplica, h.orig, Prod.mk.injEq] at hr
  obtain ⟨rfl, rfl, rfl⟩ := hr
  refine ⟨⟨by rw [hflag, h.flag], .inr rfl, ?_, ?_, ?_⟩, hbs, rfl⟩
  · rw [List.map_append, List.map_singleton, hbs, List.nodup_append_comm, List.singleton_append,
      List.nodup_cons]
    exact ⟨hnode, h.distinct⟩
  · intro r hr
    rcases List.mem_append.mp hr with hr | hr
    · exact h.shards r hr
    · rw [List.mem_singleton.mp hr, hbs]
      rfl
  · rw [hnodes, List.map_append, List.map_singleton, decide_mem_concat, hbs]

/-- `add_replica` moving the replica `prepare_move` found, to its own node
    or to a node the partition is not on: the new replica takes the old
    one's place, on the core `shardOf` names. -/
theorem Tracks.addReplica_some (h : Tracks S0 R0 p s) {prevNode node : Int}
    {pr : PreviousReplica} (hpr : p.prepareMove prevNode = some pr)
    (hnode : node = prevNode ∨ node ∉ p.replicas.map (·.nodeId)) {bs : BrokerShard}
    (hr : p.addReplica s node (some pr) = (bs, p', s')) :
    Tracks S0 R0 p' s' ∧ bs = ⟨node, shardOf S0 R0 node⟩ ∧ pr.bs ∈ p.replicas ∧
      p'.replicas.length = p.replicas.length := by
  obtain ⟨hi, hat, hprev⟩ := prepareMove_spec hpr
  have hmem : pr.bs ∈ p.replicas := hat ▸ List.getElem_mem hi
  -- the replica moved away leaves its node
  have hleave : (releasePrevious (buildOriginal R0) s pr.bs).nodes = _ :=
    nodes_releasePrevious h.counts h.flag (decide_eq_true (List.mem_map_of_mem hmem))
      fun _ => h.shards _ hmem
  -- so the node the new replica goes to is free
  have hfree : Function.update (fun n => decide (n ∈ p.replicas.map (·.nodeId)))
      pr.bs.nodeId false node = false := by
    by_cases heq : node = pr.bs.nodeId
    · rw [heq, Function.update_self]
    · rw [Function.update_of_ne heq]
      exact decide_eq_false (hnode.resolve_left (hprev ▸ heq))
  obtain ⟨hbs, hnodes, hflag⟩ :=
    placeReplica_spec hleave (by rw [releasePrevious_flag, h.flag]) hfree
  simp only [addReplica, h.orig, Prod.mk.injEq] at hr
  obtain ⟨rfl, rfl, rfl⟩ := hr
  have hx : Conforms S0 R0 (placeReplica (buildOriginal R0)
      (releasePrevious (buildOriginal R0) s pr.bs) node).1 := by
    rw [hbs]
    rfl
  have hnew : node = p.replicas[pr.idx].nodeId ∨ node ∉ p.replicas.map (·.nodeId) := by
    rw [hat, hprev]
    exact hnode
  obtain ⟨hdistinct, hshards, hmember, hlength⟩ :=
    h.replace hi hx (by rw [hbs]; exact hnew) (swapBackAndSet_perm hi _)
  refine ⟨⟨by rw [hflag, releasePrevious_flag, h.flag], .inr rfl, hdistinct, hshards, ?_⟩,
    hbs, hmem, hlength⟩
  rw [hnodes, hmember, hat, hbs]

/-- `do_allocate_replica` on a node the default hard constraint
    `distinct_nodes` admits: the step it returns conforms, and the partition
    gains a replica when there was none to move. -/
theorem Tracks.doAllocateReplica (h : Tracks S0 R0 p s) {prevNode : Option Int} {node : Int}
    (hnode : prevNode = some node ∨ node ∉ p.replicas.map (·.nodeId))
    {step : ReallocationStep} (hok : doAllocateReplica p s prevNode node = .ok (step, p', s')) :
    Tracks S0 R0 p' s' ∧ StepConforms S0 R0 step ∧
      p'.replicas.length = p.replicas.length + (if prevNode.isNone then 1 else 0) := by
  cases prevNode with
  | none =>
      rcases hadd : p.addReplica s node none with ⟨bs, p1, s1⟩
      simp only [Scheduling.doAllocateReplica, hadd, Except.ok.injEq, Prod.mk.injEq] at hok
      obtain ⟨rfl, rfl, rfl⟩ := hok
      obtain ⟨ht, hbs, hreps⟩ := h.addReplica_none (hnode.resolve_left (by simp)) hadd
      refine ⟨ht, ⟨by rw [hbs]; rfl, by simp⟩, by simp [hreps]⟩
  | some prevNode =>
      cases hpr : p.prepareMove prevNode with
      | none => simp [Scheduling.doAllocateReplica, hpr] at hok
      | some pr =>
          rcases hadd : p.addReplica s node (some pr) with ⟨bs, p1, s1⟩
          simp only [Scheduling.doAllocateReplica, hpr, hadd, Except.ok.injEq, Prod.mk.injEq] at hok
          obtain ⟨rfl, rfl, rfl⟩ := hok
          obtain ⟨ht, hbs, hmem, hlen⟩ :=
            h.addReplica_some hpr (hnode.imp (fun he => (Option.some.inj he).symm) id) hadd
          refine ⟨ht, ⟨by rw [hbs]; rfl, fun prev hprev => ?_⟩, by simp [hlen]⟩
          cases hprev
          exact h.shards _ hmem

/-- `try_revert` of a step whose replicas conform: on success the replica
    the step added is gone and the one it replaced is back in its place, so
    the partition is one replica shorter exactly when the step had no
    previous replica; on failure nothing changes. -/
theorem Tracks.tryRevert (h : Tracks S0 R0 p s) {step : ReallocationStep}
    (hstep : StepConforms S0 R0 step) {e : Errc} (hr : p.tryRevert s step = (e, p', s')) :
    Tracks S0 R0 p' s' ∧
      p'.replicas.length + (if e = .success ∧ step.previous = none then 1 else 0) =
        p.replicas.length := by
  unfold AllocatedPartition.tryRevert at hr
  cases horig : p.originalNode2shard with
  | none =>
      simp only [horig, Prod.mk.injEq] at hr
      obtain ⟨rfl, rfl, rfl⟩ := hr
      exact ⟨h, by simp⟩
  | some orig =>
      have hbuild : orig = buildOriginal R0 := by
        rcases h.original with ⟨hnone, -⟩ | hsome
        · rw [horig] at hnone
          cases hnone
        · rw [horig] at hsome
          exact Option.some.inj hsome
      subst hbuild
      cases hidx : p.replicas.idxOf? step.current with
      | none =>
          simp only [horig, hidx, Prod.mk.injEq] at hr
          obtain ⟨rfl, rfl, rfl⟩ := hr
          exact ⟨h, by simp⟩
      | some i =>
          obtain ⟨hi, hat, -⟩ := List.idxOf?_eq_some_iff.mp hidx
          have hcur : step.current ∈ p.replicas := hat ▸ List.getElem_mem hi
          -- the replica the step added leaves its node
          have hleave : (revertCurrent (buildOriginal R0) s step.current).nodes = _ :=
            nodes_revertCurrent h.counts h.flag (decide_eq_true (List.mem_map_of_mem hcur))
              fun _ => hstep.1
          cases hprev : step.previous with
          | none =>
              simp only [horig, hidx, hprev, Prod.mk.injEq] at hr
              obtain ⟨rfl, rfl, rfl⟩ := hr
              obtain ⟨hdistinct, hshards, hmember, hlength⟩ := h.remove hi (popSwapped_perm hi)
              refine ⟨⟨by simp [revertCounts, hprev, h.flag], .inr rfl, hdistinct, hshards, ?_⟩,
                by simpa using hlength⟩
              simp only [revertCounts, hprev]
              rw [hleave, hmember, hat]
          | some prev =>
              by_cases hin : prev ∈ p.replicas
              · simp only [horig, hidx, hprev, hin, if_true, Prod.mk.injEq] at hr
                obtain ⟨rfl, rfl, rfl⟩ := hr
                exact ⟨h, by simp⟩
              simp only [horig, hidx, hprev, hin, if_false, Prod.mk.injEq] at hr
              obtain ⟨rfl, rfl, rfl⟩ := hr
              have hconf := hstep.2 prev hprev
              -- the replica put back goes to a node the partition is not on
              have hfree := h.nodeId_not_mem hconf hin
              have hout : Function.update (fun n => decide (n ∈ p.replicas.map (·.nodeId)))
                  step.current.nodeId false prev.nodeId = false := by
                by_cases heq : prev.nodeId = step.current.nodeId
                · rw [heq, Function.update_self]
                · rw [Function.update_of_ne heq]
                  exact decide_eq_false hfree
              have hjoin := nodes_restorePrevious hleave (by rw [revertCurrent_flag, h.flag]) hout
                fun _ => hconf
              obtain ⟨hdistinct, hshards, hmember, -⟩ :=
                h.replace hi hconf (.inr hfree) (List.Perm.refl _)
              refine ⟨⟨by simp [revertCounts, hprev, h.flag], .inr rfl, hdistinct, hshards, ?_⟩,
                by simp⟩
              simp only [revertCounts, hprev]
              rw [hjoin, hmember, hat]

end Calls

/-! ## The destructor -/

section Destroy

variable {S0 : AllocationState} {R0 : List BrokerShard}

/-- The destructor's first loop, over replicas on distinct nodes the
    partition is on, with a map that holds exactly the original ones among
    them: the map loses the original replicas' nodes, and the added replicas
    leave their nodes. -/
theorem foldl_destroyReplica {L : List BrokerShard} (hL : (L.map (·.nodeId)).Nodup)
    (hconf : ∀ bs ∈ L, Conforms S0 R0 bs) {m : List (Int × Nat)}
    (hm : ∀ bs ∈ L, containsNode m bs.nodeId = isOriginal R0 bs.nodeId)
    {s : AllocationState} {member : Int → Bool} (hs : s.nodes = expected S0 R0 member)
    (hflag : s.nodeLocalCoreAssignment = S0.nodeLocalCoreAssignment)
    (hmem : ∀ bs ∈ L, member bs.nodeId = true) :
    (L.foldl destroyReplica (m, s)).1 = m.filter (fun kv => decide (kv.1 ∉ L.map (·.nodeId))) ∧
      (L.foldl destroyReplica (m, s)).2.nodes =
        expected S0 R0 (fun n => if n ∈ L.map (·.nodeId) then isOriginal R0 n else member n) ∧
      (L.foldl destroyReplica (m, s)).2.nodeLocalCoreAssignment =
        S0.nodeLocalCoreAssignment := by
  induction L generalizing m s member with
  | nil => exact ⟨by simp, by simpa using hs, hflag⟩
  | cons bs L ih =>
      rw [List.map_cons, List.nodup_cons] at hL
      have hne : ∀ b ∈ L, b.nodeId ≠ bs.nodeId := fun b hb heq =>
        hL.1 (heq ▸ List.mem_map_of_mem hb)
      have hconf' : ∀ b ∈ L, Conforms S0 R0 b := fun b hb => hconf b (List.mem_cons_of_mem _ hb)
      rw [List.foldl_cons]
      cases horig : isOriginal R0 bs.nodeId
      · -- a replica the partition added gives back its counts
        have hc : containsNode m bs.nodeId = false := (hm bs List.mem_cons_self).trans horig
        have hc0 : containsNode (buildOriginal R0) bs.nodeId = false := horig
        have hstep : destroyReplica (m, s) bs = (m, releasePrevious (buildOriginal R0) s bs) := by
          simp [destroyReplica, releasePrevious, hc, hc0]
        have hleave := nodes_releasePrevious hs hflag (hmem bs List.mem_cons_self)
          fun _ => hconf bs List.mem_cons_self
        obtain ⟨h1, h2, h3⟩ := ih hL.2 hconf' (fun b hb => hm b (List.mem_cons_of_mem _ hb))
          hleave (by rw [releasePrevious_flag, hflag]) fun b hb => by
            rw [Function.update_of_ne (hne b hb)]
            exact hmem b (List.mem_cons_of_mem _ hb)
        rw [hstep]
        refine ⟨?_, ?_, h3⟩
        · -- the map holds no entry for the added replica's node
          rw [h1]
          refine List.filter_congr fun kv hkv => ?_
          have hkne : kv.1 ≠ bs.nodeId := by
            intro heq
            have hany := List.any_eq_false.mp hc kv hkv
            simp [heq] at hany
          simp [hkne]
        · rw [h2]
          congr 1
          funext n
          by_cases hn : n = bs.nodeId
          · subst hn
            simp [hL.1, horig]
          · simp [hn]
      · -- an original replica is erased from the map
        have hc : containsNode m bs.nodeId = true := (hm bs List.mem_cons_self).trans horig
        have hstep : destroyReplica (m, s) bs = (m.filter (·.1 != bs.nodeId), s) := by
          simp [destroyReplica, hc]
        obtain ⟨h1, h2, h3⟩ := ih hL.2 hconf' (fun b hb => by
            rw [containsNode_filter_of_ne _ (hne b hb)]
            exact hm b (List.mem_cons_of_mem _ hb))
          hs hflag fun b hb => hmem b (List.mem_cons_of_mem _ hb)
        rw [hstep]
        refine ⟨?_, ?_, h3⟩
        · rw [h1, List.filter_filter]
          refine List.filter_congr fun kv _ => ?_
          by_cases hk : kv.1 = bs.nodeId <;> simp [hk]
        · rw [h2]
          congr 1
          funext n
          by_cases hn : n = bs.nodeId
          · subst hn
            simp [hL.1, horig, hmem _ List.mem_cons_self]
          · simp [hn]

/-- The destructor's second loop: every original replica left in the map
    counts as final again. -/
theorem foldl_addFinalCount {E : List (Int × Nat)} (hE : (E.map Prod.fst).Nodup)
    (horig : ∀ kv ∈ E, isOriginal R0 kv.1 = true) {s : AllocationState}
    {member : Int → Bool} (hs : s.nodes = expected S0 R0 member)
    (hmem : ∀ kv ∈ E, member kv.1 = false) :
    (E.foldl (fun s kv => s.addFinalCount ⟨kv.1, kv.2⟩) s).nodes =
      expected S0 R0 (fun n => member n || decide (n ∈ E.map Prod.fst)) := by
  induction E generalizing s member with
  | nil => simpa using hs
  | cons kv E ih =>
      rw [List.map_cons, List.nodup_cons] at hE
      have hjoin : (s.addFinalCount ⟨kv.1, kv.2⟩).nodes = _ :=
        nodes_join_original hs (hmem kv List.mem_cons_self) (horig kv List.mem_cons_self)
      rw [List.foldl_cons, ih hE.2 (fun k hk => horig k (List.mem_cons_of_mem _ hk)) hjoin
        fun k hk => ?_]
      · congr 1
        funext n
        by_cases hn : n = kv.1
        · subst hn
          simp
        · have hiff : n ∈ (kv :: E).map Prod.fst ↔ n ∈ E.map Prod.fst := by simp [hn]
          rw [Function.update_of_ne hn, decide_eq_decide.mpr hiff]
      · have hne : k.1 ≠ kv.1 := fun heq => hE.1 (heq ▸ List.mem_map_of_mem hk)
        rw [Function.update_of_ne hne]
        exact hmem k (List.mem_cons_of_mem _ hk)

/-- **The destructor restores the nodes of `S0`**: the allocated and final
    counts and the core weights of every node are those before the partition
    was made. -/
theorem Tracks.destroy {p : AllocatedPartition} {s : AllocationState} (h : Tracks S0 R0 p s)
    (hR0 : (R0.map (·.nodeId)).Nodup) : (p.destroy s).nodes = S0.nodes := by
  have hisOriginal : ∀ n, isOriginal R0 n = decide (n ∈ R0.map (·.nodeId)) :=
    containsNode_buildOriginal R0
  unfold AllocatedPartition.destroy
  rcases h.original with ⟨hnone, hR⟩ | hsome
  · -- nothing has moved: the state is the one the partition was made in
    rw [hnone, h.counts, hR]
    exact expected_original S0 R0 _ fun n => (hisOriginal n).symm
  · rw [hsome]
    obtain ⟨h1, h2, -⟩ := foldl_destroyReplica (m := buildOriginal R0) h.distinct h.shards
      (fun _ _ => rfl) h.counts h.flag fun bs hbs => decide_eq_true (List.mem_map_of_mem hbs)
    -- the original replicas moved away are those left in the map
    have hleft : ∀ n, n ∈ ((buildOriginal R0).filter
        (fun kv => decide (kv.1 ∉ p.replicas.map (·.nodeId)))).map Prod.fst ↔
        n ∈ R0.map (·.nodeId) ∧ n ∉ p.replicas.map (·.nodeId) := by
      intro n
      rw [buildOriginal_eq_map hR0]
      simp only [List.mem_map, List.mem_filter, decide_eq_true_eq]
      constructor
      · rintro ⟨_, ⟨⟨r, hr, rfl⟩, hout⟩, rfl⟩
        exact ⟨⟨r, hr, rfl⟩, hout⟩
      · rintro ⟨⟨r, hr, rfl⟩, hout⟩
        exact ⟨_, ⟨⟨r, hr, rfl⟩, hout⟩, rfl⟩
    have hE : (((buildOriginal R0).filter
        (fun kv => decide (kv.1 ∉ p.replicas.map (·.nodeId)))).map Prod.fst).Nodup := by
      refine (List.filter_sublist.map Prod.fst).nodup ?_
      rw [buildOriginal_eq_map hR0, List.map_map]
      exact hR0
    simp only
    rw [h1, foldl_addFinalCount hE (fun kv hkv => ?_) h2 (fun kv hkv => ?_)]
    · refine expected_original S0 R0 _ fun n => ?_
      by_cases hn : n ∈ p.replicas.map (·.nodeId)
      · have hnot : n ∉ ((buildOriginal R0).filter
            (fun kv => decide (kv.1 ∉ p.replicas.map (·.nodeId)))).map Prod.fst :=
          fun hmem => ((hleft n).mp hmem).2 hn
        rw [if_pos hn, decide_eq_false hnot, Bool.or_false]
      · rw [if_neg hn, decide_eq_false hn, Bool.false_or, hisOriginal]
        exact decide_eq_decide.mpr ((hleft n).trans (and_iff_left hn))
    · rw [hisOriginal]
      exact decide_eq_true ((hleft kv.1).mp (List.mem_map_of_mem hkv)).1
    · have hout := ((hleft kv.1).mp (List.mem_map_of_mem hkv)).2
      simp [hout]

end Destroy

/-! ## Runs of calls on the partition -/

/-- A call on the partition: `do_allocate_replica` for the replica on
    `prevNode`, or for a new replica, with the node `choose_node` chose; or
    `try_revert` of a step. -/
inductive ReallocOp where
  | allocate (prevNode : Option Int) (node : Int)
  | revert (step : ReallocationStep)
deriving DecidableEq, Repr

/-- The partition and the state along a run of calls, with the steps the
    allocations returned, the replicas added without a previous one, and the
    successful reverts of such steps. -/
structure ReallocRun where
  partition : AllocatedPartition
  state : AllocationState
  steps : List ReallocationStep
  additions : Nat
  revertedAdditions : Nat

namespace ReallocRun

/-- The partition made from the replicas `R0` of `S0`, before any call. -/
def start (S0 : AllocationState) (R0 : List BrokerShard) : ReallocRun :=
  ⟨⟨R0, none⟩, S0, [], 0, 0⟩

/-- One call.  A call that fails leaves the partition and the state as they
    were. -/
def apply (r : ReallocRun) : ReallocOp → ReallocRun
  | .allocate prevNode node =>
      match doAllocateReplica r.partition r.state prevNode node with
      | .error _ => r
      | .ok (step, p, s) =>
          ⟨p, s, r.steps ++ [step], r.additions + (if prevNode.isNone then 1 else 0),
            r.revertedAdditions⟩
  | .revert step =>
      let res := r.partition.tryRevert r.state step
      ⟨res.2.1, res.2.2, r.steps, r.additions,
        r.revertedAdditions + (if res.1 = .success ∧ step.previous = none then 1 else 0)⟩

/-- The calls one after another. -/
def exec : ReallocRun → List ReallocOp → ReallocRun
  | r, [] => r
  | r, op :: ops => exec (r.apply op) ops

/-- What the caller guarantees of a call: the node chosen meets the default
    hard constraint `distinct_nodes` (it may stay on the node it moves from),
    and a revert is of a step the partition returned. -/
def Admits (r : ReallocRun) : ReallocOp → Prop
  | .allocate prevNode node => prevNode = some node ∨ node ∉ r.partition.replicas.map (·.nodeId)
  | .revert step => step ∈ r.steps

instance (r : ReallocRun) : DecidablePred r.Admits := fun op =>
  match op with
  | .allocate prevNode node =>
      inferInstanceAs (Decidable (prevNode = some node ∨ node ∉ r.partition.replicas.map (·.nodeId)))
  | .revert step => inferInstanceAs (Decidable (step ∈ r.steps))

/-- Every call of the run is admitted where it is made. -/
def Admissible : ReallocRun → List ReallocOp → Prop
  | _, [] => True
  | r, op :: ops => r.Admits op ∧ (r.apply op).Admissible ops

instance decAdmissible : (r : ReallocRun) → (ops : List ReallocOp) → Decidable (r.Admissible ops)
  | _, [] => isTrue trivial
  | r, op :: ops =>
      have := decAdmissible (r.apply op) ops
      inferInstanceAs (Decidable (r.Admits op ∧ (r.apply op).Admissible ops))

variable {S0 : AllocationState} {R0 : List BrokerShard} {r : ReallocRun}

/-- The invariant of a run from `start S0 R0`: the partition is tracked, the
    steps returned conform, and the replicas are those of `R0` with the
    additions and reverts counted. -/
structure Inv (S0 : AllocationState) (R0 : List BrokerShard) (r : ReallocRun) : Prop where
  tracks : Tracks S0 R0 r.partition r.state
  steps : ∀ step ∈ r.steps, StepConforms S0 R0 step
  length : r.partition.replicas.length + r.revertedAdditions = R0.length + r.additions

theorem inv_start (hR0 : (R0.map (·.nodeId)).Nodup) : (start S0 R0).Inv S0 R0 where
  tracks := tracks_init hR0
  steps := by simp [start]
  length := rfl

/-- Every admitted call keeps the invariant. -/
theorem Inv.apply (hi : r.Inv S0 R0) {op : ReallocOp} (ha : r.Admits op) :
    (r.apply op).Inv S0 R0 := by
  cases op with
  | allocate prevNode node =>
      cases hok : doAllocateReplica r.partition r.state prevNode node with
      | error e =>
          simp only [ReallocRun.apply, hok]
          exact hi
      | ok res =>
          obtain ⟨step, p, s⟩ := res
          obtain ⟨htracks, hstep, hlen⟩ := hi.tracks.doAllocateReplica ha hok
          simp only [ReallocRun.apply, hok]
          refine ⟨htracks, fun st hst => ?_, ?_⟩
          · rcases List.mem_append.mp hst with hst | hst
            · exact hi.steps st hst
            · rw [List.mem_singleton.mp hst]
              exact hstep
          · have hlength := hi.length
            simp only at hlen ⊢
            omega
  | revert step =>
      rcases hrev : r.partition.tryRevert r.state step with ⟨e, p, s⟩
      obtain ⟨htracks, hlen⟩ := hi.tracks.tryRevert (hi.steps step ha) hrev
      simp only [ReallocRun.apply, hrev]
      refine ⟨htracks, hi.steps, ?_⟩
      have hlength := hi.length
      simp only at hlen ⊢
      omega

/-- **The invariant holds along every admissible run.** -/
theorem Inv.exec (hi : r.Inv S0 R0) {ops : List ReallocOp} (ha : r.Admissible ops) :
    (r.exec ops).Inv S0 R0 := by
  induction ops generalizing r with
  | nil => exact hi
  | cons op ops ih => exact ih (hi.apply ha.1) ha.2

end ReallocRun

/-! ## Exact and reversible bookkeeping -/

section Bookkeeping

variable {S0 : AllocationState} {R0 : List BrokerShard}

/-- A tracked partition holds the replica `⟨n, c⟩` exactly when it is on
    node `n` and `c` is the core `shardOf` names there. -/
theorem Tracks.mem_iff {p : AllocatedPartition} {s : AllocationState} (h : Tracks S0 R0 p s)
    (n : Int) (c : Nat) :
    (⟨n, c⟩ : BrokerShard) ∈ p.replicas ↔
      n ∈ p.replicas.map (·.nodeId) ∧ shardOf S0 R0 n = c := by
  constructor
  · intro hmem
    exact ⟨List.mem_map_of_mem hmem, (h.shards _ hmem).symm⟩
  · rintro ⟨hn, rfl⟩
    obtain ⟨r, hr, rfl⟩ := List.mem_map.mp hn
    rw [← h.shards r hr]
    exact hr

theorem reallocation_bookkeeping_exact (S0 : AllocationState) (R0 : List BrokerShard)
    (hR0 : (R0.map (·.nodeId)).Nodup) (ops : List ReallocOp)
    (hadm : (ReallocRun.start S0 R0).Admissible ops) :
    let r := (ReallocRun.start S0 R0).exec ops
    let P := r.partition.replicas
    ((P.map (·.nodeId)).Nodup ∧ P.length + r.revertedAdditions = R0.length + r.additions) ∧
    (∀ n, (r.state.nodes n).map (·.allocatedPartitions) =
      (S0.nodes n).map fun x => x.allocatedPartitions +
        indicator (decide (n ∈ P.map (·.nodeId)) && !decide (n ∈ R0.map (·.nodeId)))) ∧
    (∀ n, (r.state.nodes n).map (·.finalPartitions) =
      (S0.nodes n).map fun x => x.finalPartitions + indicator (decide (n ∈ P.map (·.nodeId))) -
        indicator (decide (n ∈ R0.map (·.nodeId)))) ∧
    (S0.nodeLocalCoreAssignment = false → ∀ n c,
      (r.state.nodes n).bind (·.weights[c]?) =
        ((S0.nodes n).bind (·.weights[c]?)).map fun w =>
          w + indicator (decide (⟨n, c⟩ ∈ P) && !decide (n ∈ R0.map (·.nodeId)))) ∧
    (r.partition.destroy r.state).nodes = S0.nodes := by
  intro r P
  have hi : r.Inv S0 R0 := (ReallocRun.inv_start hR0).exec hadm
  have hcounts := hi.tracks.counts
  have hisOriginal : ∀ n, isOriginal R0 n = decide (n ∈ R0.map (·.nodeId)) :=
    containsNode_buildOriginal R0
  refine ⟨⟨hi.tracks.distinct, hi.length⟩, fun n => ?_, fun n => ?_, fun hflag n c => ?_,
    hi.tracks.destroy hR0⟩
  · rw [hcounts, expected_allocated, hisOriginal]
  · rw [hcounts, expected_final, hisOriginal]
  · -- the replica on core `c` of node `n`, if any, is the one `shardOf` places
    have hmem : decide ((⟨n, c⟩ : BrokerShard) ∈ P) =
        (decide (n ∈ P.map (·.nodeId)) && decide (shardOf S0 R0 n = c)) := by
      rw [decide_eq_decide.mpr (hi.tracks.mem_iff n c), Bool.decide_and]
    rw [hcounts, expected_weights hflag, hisOriginal, hmem, Bool.and_right_comm]

/-- The calls `reallocate_partition` makes: a move of the replica on each
    node to reallocate. -/
def movesOps (moves : List (Int × Int)) : List ReallocOp :=
  moves.map fun m => .allocate (some m.1) m.2

/-- The loop of `reallocate_partition` is the run of its moves: on success
    it returns the run's partition and state, and on an error the destructor
    has given back the nodes of `S0`. -/
theorem reallocateLoop_spec (hR0 : (R0.map (·.nodeId)).Nodup) {r : ReallocRun}
    (hi : r.Inv S0 R0) {moves : List (Int × Int)} (hadm : r.Admissible (movesOps moves)) :
    (∀ P s, reallocateLoop r.partition r.state moves = (.ok P, s) →
      P = (r.exec (movesOps moves)).partition ∧ s = (r.exec (movesOps moves)).state) ∧
    (∀ e s, reallocateLoop r.partition r.state moves = (.error e, s) → s.nodes = S0.nodes) := by
  induction moves generalizing r with
  | nil =>
      refine ⟨fun P s hloop => ?_, fun e s hloop => ?_⟩
      · simp only [reallocateLoop, Prod.mk.injEq, Except.ok.injEq] at hloop
        exact ⟨hloop.1.symm, hloop.2.symm⟩
      · simp [reallocateLoop] at hloop
  | cons m moves ih =>
      obtain ⟨prev, node⟩ := m
      have hnext := ih (hi.apply hadm.1) hadm.2
      cases hok : doAllocateReplica r.partition r.state (some prev) node with
      | error e =>
          -- the first move that fails destroys the partition
          refine ⟨fun P s hloop => ?_, fun e' s hloop => ?_⟩
          · simp [reallocateLoop, hok] at hloop
          · simp only [reallocateLoop, hok, Prod.mk.injEq] at hloop
            rw [← hloop.2]
            exact hi.tracks.destroy hR0
      | ok res =>
          obtain ⟨step, p, s⟩ := res
          have happly : r.apply (.allocate (some prev) node) =
              ⟨p, s, r.steps ++ [step], r.additions, r.revertedAdditions⟩ := by
            simp [ReallocRun.apply, hok]
          rw [happly] at hnext
          simp only [reallocateLoop, hok]
          simp only [movesOps, List.map_cons, ReallocRun.exec, happly]
          exact hnext

/-- **`reallocate_partition` gives the state back on an error**: when one of
    its moves fails, the partition it made is destroyed and every node has
    the counts and weights of `S0` again. -/
theorem reallocatePartition_error_restores (S0 : AllocationState) (R0 : List BrokerShard)
    (hR0 : (R0.map (·.nodeId)).Nodup) (moves : List (Int × Int))
    (hadm : (ReallocRun.start S0 R0).Admissible (movesOps moves)) {e : Errc}
    {s : AllocationState} (herr : reallocatePartition S0 R0 moves = (.error e, s)) :
    s.nodes = S0.nodes :=
  ((reallocateLoop_spec hR0 (ReallocRun.inv_start hR0) hadm).2 e s herr)

/-- Nodes 1 to 4 with two cores each, and one replica on core 0. -/
def sampleState : AllocationState where
  nodes := fun n => if 1 ≤ n ∧ n ≤ 4 then some ⟨[1, 0], 1, 1⟩ else none
  nodeLocalCoreAssignment := false

/-- A partition on nodes 1 and 2. -/
def sampleReplicas : List BrokerShard := [⟨1, 0⟩, ⟨2, 0⟩]

/-- Move the replica on node 1 to node 3, add one on node 4, and take the
    move back. -/
def sampleOps : List ReallocOp :=
  [.allocate (some 1) 3, .allocate none 4, .revert ⟨⟨3, 1⟩, some ⟨1, 0⟩⟩]

theorem reallocation_bookkeeping_exact_sample :
    (sampleReplicas.map (·.nodeId)).Nodup ∧
      (ReallocRun.start sampleState sampleReplicas).Admissible sampleOps ∧
      (let r := (ReallocRun.start sampleState sampleReplicas).exec sampleOps
       r.partition.replicas.length + r.revertedAdditions = sampleReplicas.length + r.additions ∧
        (r.partition.destroy r.state).nodes = sampleState.nodes) :=
  ⟨by decide, by decide,
    let h := reallocation_bookkeeping_exact sampleState sampleReplicas (by decide) sampleOps
      (by decide)
    ⟨h.1.2, h.2.2.2.2⟩⟩

example : ((ReallocRun.start sampleState sampleReplicas).exec sampleOps).partition.replicas =
    [⟨2, 0⟩, ⟨1, 0⟩, ⟨4, 1⟩] := by
  decide

end Bookkeeping

end Scheduling
