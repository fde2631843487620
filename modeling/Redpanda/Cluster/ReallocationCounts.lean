import Mathlib
import Redpanda.Cluster.AllocationState

/-! # The node counts of a partition whose replicas move

    Take the state `S0` before an `allocated_partition` made from the
    replicas `R0` moved any of them.  While its replicas move, the counts of
    a node depend only on whether the partition has a replica on it:

    * on a node of `R0`, the final count is down by one while the partition
      has no replica there;
    * on any other node, the allocated and final counts are up by one while
      the partition has a replica there.  Without node-local core assignment,
      so is the weight of the core that replica is on, `shardOf`.

    `expected` states these counts for any set of nodes the partition is on.
    Each way a replica leaves a node (`nodes_releasePrevious`,
    `nodes_revertCurrent`) or joins one (`placeReplica_spec`,
    `nodes_restorePrevious`) takes these counts to the ones for the new set,
    one node at a time (`update_expected`).  `Cluster.Reallocation` strings
    these steps together into the calls of `allocated_partition`. -/

namespace Scheduling

open AllocationState AllocatedPartition

/-! ## The original replicas -/

section Original

theorem findNode_isSome (m : List (Int × Nat)) (n : Int) :
    (findNode m n).isSome = containsNode m n := by
  induction m with
  | nil => rfl
  | cons e m ih =>
      obtain ⟨k, v⟩ := e
      by_cases hk : n = k
      · subst hk
        simp [findNode, containsNode, List.lookup]
      · have hnk : (n == k) = false := by simpa using hk
        have hkn : (k == n) = false := by simpa using Ne.symm hk
        simp only [findNode, List.lookup, hnk, containsNode, List.any_cons, hkn,
          Bool.false_or] at ih ⊢
        exact ih

theorem containsNode_emplaceOriginal (m : List (Int × Nat)) (bs : BrokerShard) (n : Int) :
    containsNode (emplaceOriginal m bs) n = (containsNode m n || decide (bs.nodeId = n)) := by
  unfold emplaceOriginal
  split
  · rename_i hin
    by_cases hk : bs.nodeId = n
    · subst hk
      simpa [containsNode] using hin
    · simp [hk]
  · simp [containsNode, List.any_append, Bool.beq_eq_decide_eq]

theorem findNode_emplaceOriginal (m : List (Int × Nat)) (bs : BrokerShard) (n : Int) :
    findNode (emplaceOriginal m bs) n =
      (findNode m n).or (if bs.nodeId = n then some bs.shard else none) := by
  unfold emplaceOriginal
  split
  · rename_i hin
    by_cases hk : bs.nodeId = n
    · -- the node is there already, and keeps its shard
      subst hk
      have hsome : (findNode m bs.nodeId).isSome := by
        rw [findNode_isSome]
        exact hin
      obtain ⟨v, hv⟩ := Option.isSome_iff_exists.mp hsome
      rw [hv]
      rfl
    · simp [hk]
  · rw [findNode, List.lookup_append]
    by_cases hk : bs.nodeId = n
    · simp [hk, List.lookup, findNode]
    · have hk' : (n == bs.nodeId) = false := by simpa using Ne.symm hk
      simp [hk, hk', List.lookup, findNode]

theorem containsNode_foldl_emplace (R : List BrokerShard) (m : List (Int × Nat)) (n : Int) :
    containsNode (R.foldl emplaceOriginal m) n =
      (containsNode m n || decide (n ∈ R.map (·.nodeId))) := by
  induction R generalizing m with
  | nil => simp
  | cons bs R ih =>
      rw [List.foldl_cons, ih, containsNode_emplaceOriginal]
      by_cases hk : bs.nodeId = n
      · subst hk
        simp
      · have hk' : n ≠ bs.nodeId := Ne.symm hk
        simp [hk, hk']

theorem findNode_foldl_emplace (R : List BrokerShard) (m : List (Int × Nat)) (n : Int) :
    findNode (R.foldl emplaceOriginal m) n =
      (findNode m n).or ((R.find? (·.nodeId == n)).map (·.shard)) := by
  induction R generalizing m with
  | nil => simp
  | cons bs R ih =>
      rw [List.foldl_cons, ih, findNode_emplaceOriginal, List.find?_cons]
      by_cases hk : bs.nodeId = n
      · cases findNode m n <;> simp [hk]
      · have hk' : (bs.nodeId == n) = false := by simpa using hk
        simp [hk, hk']

/-- The original map holds the nodes of the original replicas. -/
theorem containsNode_buildOriginal (R : List BrokerShard) (n : Int) :
    containsNode (buildOriginal R) n = decide (n ∈ R.map (·.nodeId)) := by
  rw [buildOriginal, containsNode_foldl_emplace]
  rfl

/-- On replicas on distinct nodes, the original map holds each one's shard. -/
theorem findNode_buildOriginal {R : List BrokerShard} (hR : (R.map (·.nodeId)).Nodup)
    {r : BrokerShard} (hr : r ∈ R) : findNode (buildOriginal R) r.nodeId = some r.shard := by
  rw [buildOriginal, findNode_foldl_emplace]
  have hsome : (R.find? (·.nodeId == r.nodeId)).isSome :=
    List.find?_isSome.mpr ⟨r, hr, by simp⟩
  obtain ⟨r', hr'⟩ := Option.isSome_iff_exists.mp hsome
  have hnode : r'.nodeId = r.nodeId := by simpa using List.find?_some hr'
  -- two replicas on one node are the same replica
  have heq : r' = r := List.inj_on_of_nodup_map hR (List.mem_of_find?_eq_some hr') hr hnode
  rw [hr', heq]
  rfl

theorem findNode_buildOriginal_of_not_mem {R : List BrokerShard} {n : Int}
    (hn : n ∉ R.map (·.nodeId)) : findNode (buildOriginal R) n = none := by
  have hc := containsNode_buildOriginal R n
  rw [decide_eq_false hn, ← findNode_isSome] at hc
  exact Option.not_isSome_iff_eq_none.mp (by simp [hc])

/-- Replicas on distinct nodes fresh to the map are appended to it. -/
theorem foldl_emplaceOriginal_of_fresh {R : List BrokerShard} (hR : (R.map (·.nodeId)).Nodup)
    {m : List (Int × Nat)} (hm : ∀ r ∈ R, containsNode m r.nodeId = false) :
    R.foldl emplaceOriginal m = m ++ R.map fun r => (r.nodeId, r.shard) := by
  induction R generalizing m with
  | nil => simp
  | cons r R ih =>
      rw [List.map_cons, List.nodup_cons] at hR
      have hc : m.any (·.1 == r.nodeId) = false := hm r List.mem_cons_self
      have hfresh : ∀ r' ∈ R, containsNode (emplaceOriginal m r) r'.nodeId = false := by
        intro r' hr'
        have hne : r.nodeId ≠ r'.nodeId := fun heq => hR.1 (heq ▸ List.mem_map_of_mem hr')
        rw [containsNode_emplaceOriginal, hm r' (List.mem_cons_of_mem _ hr'), decide_eq_false hne]
        rfl
      rw [List.foldl_cons, ih hR.2 hfresh]
      simp [emplaceOriginal, hc]

/-- On distinct nodes, the original map lists the replicas in order. -/
theorem buildOriginal_eq_map {R : List BrokerShard} (hR : (R.map (·.nodeId)).Nodup) :
    buildOriginal R = R.map fun r => (r.nodeId, r.shard) := by
  rw [buildOriginal, foldl_emplaceOriginal_of_fresh hR fun _ _ => rfl, List.nil_append]

/-- Erasing a node from the original map keeps every other node. -/
theorem containsNode_filter_of_ne (m : List (Int × Nat)) {k n : Int} (hnk : n ≠ k) :
    containsNode (m.filter (·.1 != k)) n = containsNode m n := by
  unfold containsNode
  rw [List.any_filter]
  congr 1
  funext kv
  by_cases hkv : kv.1 = n
  · simp [hkv, hnk]
  · simp [hkv]

end Original

/-! ## The state calls, one node at a time -/

section Calls

variable (s : AllocationState) (a : Int)

theorem modifyNode_nodes (f : AllocationNode → AllocationNode) :
    (s.modifyNode a f).nodes = Function.update s.nodes a ((s.nodes a).map f) := by
  unfold modifyNode
  cases h : s.nodes a with
  | none => exact (Function.update_eq_self_iff.mpr h.symm).symm
  | some n => rfl

@[simp] theorem modifyNode_flag (f : AllocationNode → AllocationNode) :
    (s.modifyNode a f).nodeLocalCoreAssignment = s.nodeLocalCoreAssignment := by
  unfold modifyNode
  split <;> rfl

/-- Two changes of one node are one change. -/
theorem update_update_map (f g : AllocationNode → AllocationNode) :
    Function.update (Function.update s.nodes a ((s.nodes a).map f)) a
        ((Function.update s.nodes a ((s.nodes a).map f) a).map g) =
      Function.update s.nodes a ((s.nodes a).map (g ∘ f)) := by
  rw [Function.update_self, Function.update_idem, Option.map_map]

@[simp] theorem addAllocation_flag (bs : BrokerShard) :
    (s.addAllocation bs).nodeLocalCoreAssignment = s.nodeLocalCoreAssignment :=
  modifyNode_flag _ _ _

@[simp] theorem removeAllocation_flag (bs : BrokerShard) :
    (s.removeAllocation bs).nodeLocalCoreAssignment = s.nodeLocalCoreAssignment :=
  modifyNode_flag _ _ _

@[simp] theorem addFinalCount_flag (bs : BrokerShard) :
    (s.addFinalCount bs).nodeLocalCoreAssignment = s.nodeLocalCoreAssignment :=
  modifyNode_flag _ _ _

@[simp] theorem removeFinalCount_flag (bs : BrokerShard) :
    (s.removeFinalCount bs).nodeLocalCoreAssignment = s.nodeLocalCoreAssignment :=
  modifyNode_flag _ _ _

@[simp] theorem allocate_flag : (s.allocate a).2.nodeLocalCoreAssignment = s.nodeLocalCoreAssignment := by
  unfold allocate
  split
  · rfl
  · split <;> rfl

@[simp] theorem releasePrevious_flag (orig : List (Int × Nat)) (bs : BrokerShard) :
    (releasePrevious orig s bs).nodeLocalCoreAssignment = s.nodeLocalCoreAssignment := by
  unfold releasePrevious
  split <;> simp

@[simp] theorem revertCurrent_flag (orig : List (Int × Nat)) (bs : BrokerShard) :
    (revertCurrent orig s bs).nodeLocalCoreAssignment = s.nodeLocalCoreAssignment := by
  unfold revertCurrent
  split <;> simp

@[simp] theorem restorePrevious_flag (orig : List (Int × Nat)) (bs : BrokerShard) :
    (restorePrevious orig s bs).nodeLocalCoreAssignment = s.nodeLocalCoreAssignment := by
  unfold restorePrevious
  split <;> simp

/-- What `allocate` does to the node it allocates on. -/
theorem allocate_nodes :
    (s.allocate a).2.nodes = Function.update s.nodes a ((s.nodes a).map fun n =>
      if s.nodeLocalCoreAssignment then n.addAllocation.addFinalCount
      else n.addAllocation.addFinalCount.allocateShard.2) := by
  unfold allocate
  cases h : s.nodes a with
  | none => exact (Function.update_eq_self_iff.mpr h.symm).symm
  | some n =>
      cases hf : s.nodeLocalCoreAssignment <;> simp

/-- The core `allocate` picks: the first of least weight on the node. -/
theorem allocate_fst :
    (s.allocate a).1 = ((s.nodes a).map fun n =>
      if s.nodeLocalCoreAssignment then 0 else minElement n.weights).getD 0 := by
  unfold allocate
  cases h : s.nodes a with
  | none => rfl
  | some n =>
      cases hf : s.nodeLocalCoreAssignment <;> rfl

end Calls

/-! ## The counts while the partition moves -/

/-- `1` for `true`, `0` for `false`. -/
def indicator (b : Bool) : UInt32 := if b then 1 else 0

@[simp] theorem indicator_true : indicator true = 1 := rfl

@[simp] theorem indicator_false : indicator false = 0 := rfl

section Expected

variable (S0 : AllocationState) (R0 : List BrokerShard)

/-- Whether `n` is the node of an original replica. -/
def isOriginal (n : Int) : Bool := containsNode (buildOriginal R0) n

/-- The core a replica of the partition on node `n` is on: the original
    replica's, or the one a fresh allocation on the node picks. -/
def shardOf (n : Int) : Nat :=
  match findNode (buildOriginal R0) n with
  | some shard => shard
  | none =>
      if S0.nodeLocalCoreAssignment then 0
      else ((S0.nodes n).map fun node => minElement node.weights).getD 0

/-- The counts of node `n` while the partition has (`member`) or has not a
    replica on it, from the counts `node0` it had in `S0`. -/
def expectedNode (n : Int) (member : Bool) (node0 : AllocationNode) : AllocationNode where
  weights :=
    if !S0.nodeLocalCoreAssignment && member && !isOriginal R0 n then
      node0.weights.modify (shardOf S0 R0 n) (· + 1)
    else node0.weights
  allocatedPartitions := node0.allocatedPartitions + indicator (member && !isOriginal R0 n)
  finalPartitions := node0.finalPartitions + indicator member - indicator (isOriginal R0 n)

theorem expectedNode_eq (n : Int) (member : Bool) (node0 : AllocationNode) :
    expectedNode S0 R0 n member node0 =
      ⟨if !S0.nodeLocalCoreAssignment && member && !isOriginal R0 n then
          node0.weights.modify (shardOf S0 R0 n) (· + 1)
        else node0.weights,
        node0.allocatedPartitions + indicator (member && !isOriginal R0 n),
        node0.finalPartitions + indicator member - indicator (isOriginal R0 n)⟩ := rfl

/-- The nodes of the state while the partition is on the nodes `member`
    says. -/
def expected (member : Int → Bool) : Int → Option AllocationNode :=
  fun n => (S0.nodes n).map (expectedNode S0 R0 n (member n))

theorem expected_apply (member : Int → Bool) (n : Int) :
    expected S0 R0 member n = (S0.nodes n).map (expectedNode S0 R0 n (member n)) := rfl

/-- On the original nodes, the counts are those of `S0`. -/
theorem expected_original (member : Int → Bool) (hmember : ∀ n, member n = isOriginal R0 n) :
    expected S0 R0 member = S0.nodes := by
  funext n
  simp only [expected_apply]
  cases S0.nodes n with
  | none => rfl
  | some node0 =>
      have hnode : expectedNode S0 R0 n (member n) node0 = node0 := by
        rw [hmember]
        cases hn : isOriginal R0 n
        · simp [expectedNode_eq, hn]
        · simp [expectedNode_eq, hn]
      rw [Option.map_some, hnode]

variable {S0 R0}

/-- A change of one node that takes its counts from one membership to
    another takes the state's nodes to those of the new membership. -/
theorem update_expected {s : AllocationState} {member : Int → Bool}
    (hs : s.nodes = expected S0 R0 member) {a : Int} {v : Bool} {g : AllocationNode → AllocationNode}
    (hg : ∀ node0, S0.nodes a = some node0 →
      g (expectedNode S0 R0 a (member a) node0) = expectedNode S0 R0 a v node0) :
    Function.update s.nodes a ((s.nodes a).map g) = expected S0 R0 (Function.update member a v) := by
  funext n
  by_cases hn : n = a
  · subst hn
    rw [Function.update_self, hs]
    simp only [expected_apply]
    rw [Function.update_self]
    cases h0 : S0.nodes n with
    | none => rfl
    | some node0 => rw [Option.map_some, Option.map_some, Option.map_some, hg node0 h0]
  · rw [Function.update_of_ne hn, hs]
    simp only [expected_apply]
    rw [Function.update_of_ne hn]

/-- The allocated count `expected` gives a node. -/
theorem expected_allocated (member : Int → Bool) (n : Int) :
    (expected S0 R0 member n).map (·.allocatedPartitions) =
      (S0.nodes n).map fun x => x.allocatedPartitions + indicator (member n && !isOriginal R0 n) := by
  simp only [expected_apply]
  cases S0.nodes n <;> rfl

/-- The final count `expected` gives a node. -/
theorem expected_final (member : Int → Bool) (n : Int) :
    (expected S0 R0 member n).map (·.finalPartitions) =
      (S0.nodes n).map fun x =>
        x.finalPartitions + indicator (member n) - indicator (isOriginal R0 n) := by
  simp only [expected_apply]
  cases S0.nodes n <;> rfl

/-- The core weights `expected` gives a node, without node-local core
    assignment: one more on the core `shardOf` names while the partition has
    a replica there that it added. -/
theorem expected_weights (hflag : S0.nodeLocalCoreAssignment = false) (member : Int → Bool)
    (n : Int) (c : Nat) :
    (expected S0 R0 member n).bind (·.weights[c]?) =
      ((S0.nodes n).bind (·.weights[c]?)).map fun w =>
        w + indicator (member n && !isOriginal R0 n && decide (shardOf S0 R0 n = c)) := by
  simp only [expected_apply]
  cases S0.nodes n with
  | none => rfl
  | some node0 =>
      simp only [Option.map_some, Option.bind_some, expectedNode_eq, hflag, Bool.not_false,
        Bool.true_and]
      cases hb : (member n && !isOriginal R0 n)
      · simp
      · simp only [if_true, List.getElem?_modify, Bool.true_and]
        by_cases hc : shardOf S0 R0 n = c <;> simp [hc]

end Expected

/-! ## A replica leaves or joins a node -/

/-- What `remove_allocation(replica)` does to the replica's node. -/
def removeNodeAllocation (flag : Bool) (core : Nat) (x : AllocationNode) : AllocationNode :=
  if flag then x.removeAllocation else x.removeAllocation.removeAllocationCore core

/-- What `add_allocation(replica)` does to the replica's node. -/
def addNodeAllocation (flag : Bool) (core : Nat) (x : AllocationNode) : AllocationNode :=
  if flag then x.addAllocation else x.addAllocation.addAllocationCore core

theorem removeAllocation_nodes (s : AllocationState) (bs : BrokerShard) :
    (s.removeAllocation bs).nodes = Function.update s.nodes bs.nodeId
      ((s.nodes bs.nodeId).map (removeNodeAllocation s.nodeLocalCoreAssignment bs.shard)) :=
  modifyNode_nodes _ _ _

theorem addAllocation_nodes (s : AllocationState) (bs : BrokerShard) :
    (s.addAllocation bs).nodes = Function.update s.nodes bs.nodeId
      ((s.nodes bs.nodeId).map (addNodeAllocation s.nodeLocalCoreAssignment bs.shard)) :=
  modifyNode_nodes _ _ _

/-- The final count and the allocation are separate fields. -/
theorem removeNodeAllocation_removeFinalCount (flag : Bool) (core : Nat) (x : AllocationNode) :
    removeNodeAllocation flag core x.removeFinalCount = (removeNodeAllocation flag core x).removeFinalCount := by
  cases flag <;> rfl

section Node

variable {S0 : AllocationState} {R0 : List BrokerShard} {n : Int} (node0 : AllocationNode)

/-- The core of a replica on a node the partition did not start on: the one
    `allocate` picks there in `S0`. -/
theorem shardOf_of_not_original (hn : isOriginal R0 n = false) :
    shardOf S0 R0 n = if S0.nodeLocalCoreAssignment then 0
      else ((S0.nodes n).map fun node => minElement node.weights).getD 0 := by
  have hnone : findNode (buildOriginal R0) n = none := by
    rw [← Option.not_isSome_iff_eq_none, findNode_isSome]
    simpa [isOriginal] using hn
  rw [shardOf, hnone]

theorem expectedNode_weights_false :
    (expectedNode S0 R0 n false node0).weights = node0.weights := by
  simp [expectedNode_eq]

theorem leave_original_node (hn : isOriginal R0 n = true) :
    (expectedNode S0 R0 n true node0).removeFinalCount = expectedNode S0 R0 n false node0 := by
  simp only [expectedNode_eq, AllocationNode.removeFinalCount, hn, AllocationNode.mk.injEq]
  simp

theorem leave_added_node (hn : isOriginal R0 n = false) :
    (removeNodeAllocation S0.nodeLocalCoreAssignment (shardOf S0 R0 n)
      (expectedNode S0 R0 n true node0)).removeFinalCount = expectedNode S0 R0 n false node0 := by
  cases hf : S0.nodeLocalCoreAssignment
  · -- the core count goes up and back down
    have hcore : ((· - 1) ∘ (· + 1) : UInt32 → UInt32) = id := by
      funext x
      simp
    simp [removeNodeAllocation, expectedNode_eq, AllocationNode.removeFinalCount,
      AllocationNode.removeAllocation, AllocationNode.removeAllocationCore, hn, hf,
      List.modify_modify_eq, hcore, List.modify_id]
  · simp [removeNodeAllocation, expectedNode_eq, AllocationNode.removeFinalCount,
      AllocationNode.removeAllocation, hn, hf]

theorem join_original_node (hn : isOriginal R0 n = true) :
    (expectedNode S0 R0 n false node0).addFinalCount = expectedNode S0 R0 n true node0 := by
  simp only [expectedNode_eq, AllocationNode.addFinalCount, hn, AllocationNode.mk.injEq]
  simp only [Bool.and_false, Bool.and_true, Bool.not_true, true_and, indicator_false,
    indicator_true]
  grind

theorem join_added_node (hn : isOriginal R0 n = false) :
    addNodeAllocation S0.nodeLocalCoreAssignment (shardOf S0 R0 n)
      (expectedNode S0 R0 n false node0).addFinalCount = expectedNode S0 R0 n true node0 := by
  cases hf : S0.nodeLocalCoreAssignment
  · simp [addNodeAllocation, expectedNode_eq, AllocationNode.addFinalCount,
      AllocationNode.addAllocation, AllocationNode.addAllocationCore, hn, hf]
  · simp [addNodeAllocation, expectedNode_eq, AllocationNode.addFinalCount,
      AllocationNode.addAllocation, hn, hf]

/-- `allocate` on a node the partition is not on picks the core `shardOf`
    names: the node's weights are still those of `S0`. -/
theorem allocate_added_node (hn : isOriginal R0 n = false) (h0 : S0.nodes n = some node0) :
    (if S0.nodeLocalCoreAssignment then (expectedNode S0 R0 n false node0).addAllocation.addFinalCount
      else (expectedNode S0 R0 n false node0).addAllocation.addFinalCount.allocateShard.2) =
      expectedNode S0 R0 n true node0 := by
  have hjoin : _ = expectedNode S0 R0 n true node0 := join_added_node node0 hn
  cases hf : S0.nodeLocalCoreAssignment
  · have hcore : shardOf S0 R0 n = minElement node0.weights := by
      rw [shardOf_of_not_original hn, hf, h0]
      rfl
    rw [hf, hcore] at hjoin
    rw [← hjoin]
    simp [AllocationNode.allocateShard, addNodeAllocation, AllocationNode.addAllocationCore,
      AllocationNode.addAllocation, AllocationNode.addFinalCount, expectedNode_weights_false]
  · rw [hf] at hjoin
    rw [if_pos rfl, ← hjoin]
    rfl

end Node

section Moves

variable {S0 : AllocationState} {R0 : List BrokerShard} {s : AllocationState}
  {member : Int → Bool}

/-- A replica of the partition leaves its node, as `add_replica` and the
    destructor take it away: the final count, and the allocation if the
    partition added it. -/
theorem nodes_releasePrevious (hs : s.nodes = expected S0 R0 member)
    (hflag : s.nodeLocalCoreAssignment = S0.nodeLocalCoreAssignment) {bs : BrokerShard}
    (hm : member bs.nodeId = true)
    (hshard : isOriginal R0 bs.nodeId = false → bs.shard = shardOf S0 R0 bs.nodeId) :
    (releasePrevious (buildOriginal R0) s bs).nodes =
      expected S0 R0 (Function.update member bs.nodeId false) := by
  change ((if isOriginal R0 bs.nodeId then s else s.removeAllocation bs).removeFinalCount bs).nodes = _
  cases horig : isOriginal R0 bs.nodeId
  · rw [if_neg Bool.false_ne_true, removeFinalCount, modifyNode_nodes, removeAllocation_nodes,
      update_update_map]
    refine update_expected hs fun node0 _ => ?_
    rw [hm, hflag, hshard horig]
    exact leave_added_node node0 horig
  · rw [if_pos rfl, removeFinalCount, modifyNode_nodes]
    refine update_expected hs fun node0 _ => ?_
    rw [hm]
    exact leave_original_node node0 horig

/-- A replica of the partition leaves its node, as `try_revert` takes it
    away: the same counts, the final count first. -/
theorem nodes_revertCurrent (hs : s.nodes = expected S0 R0 member)
    (hflag : s.nodeLocalCoreAssignment = S0.nodeLocalCoreAssignment) {bs : BrokerShard}
    (hm : member bs.nodeId = true)
    (hshard : isOriginal R0 bs.nodeId = false → bs.shard = shardOf S0 R0 bs.nodeId) :
    (revertCurrent (buildOriginal R0) s bs).nodes =
      expected S0 R0 (Function.update member bs.nodeId false) := by
  change (if isOriginal R0 bs.nodeId then s.removeFinalCount bs
    else (s.removeFinalCount bs).removeAllocation bs).nodes = _
  cases horig : isOriginal R0 bs.nodeId
  · rw [if_neg Bool.false_ne_true, removeAllocation_nodes, removeFinalCount_flag, removeFinalCount,
      modifyNode_nodes, update_update_map]
    refine update_expected hs fun node0 _ => ?_
    rw [hm, hflag, hshard horig, Function.comp_apply, removeNodeAllocation_removeFinalCount]
    exact leave_added_node node0 horig
  · have h := nodes_releasePrevious hs hflag hm hshard
    change ((if isOriginal R0 bs.nodeId then s else _).removeFinalCount bs).nodes = _ at h
    rw [horig, if_pos rfl] at h
    rw [if_pos rfl]
    exact h

/-- A replica returns to a node the partition started on: its final count. -/
theorem nodes_join_original (hs : s.nodes = expected S0 R0 member) {bs : BrokerShard}
    (hm : member bs.nodeId = false) (horig : isOriginal R0 bs.nodeId = true) :
    (s.addFinalCount bs).nodes = expected S0 R0 (Function.update member bs.nodeId true) := by
  rw [addFinalCount, modifyNode_nodes]
  refine update_expected hs fun node0 _ => ?_
  rw [hm]
  exact join_original_node node0 horig

/-- A replica comes back to its node, as `try_revert` restores it. -/
theorem nodes_restorePrevious (hs : s.nodes = expected S0 R0 member)
    (hflag : s.nodeLocalCoreAssignment = S0.nodeLocalCoreAssignment) {bs : BrokerShard}
    (hm : member bs.nodeId = false)
    (hshard : isOriginal R0 bs.nodeId = false → bs.shard = shardOf S0 R0 bs.nodeId) :
    (restorePrevious (buildOriginal R0) s bs).nodes =
      expected S0 R0 (Function.update member bs.nodeId true) := by
  change (if isOriginal R0 bs.nodeId then s.addFinalCount bs
    else (s.addFinalCount bs).addAllocation bs).nodes = _
  cases horig : isOriginal R0 bs.nodeId
  · rw [if_neg Bool.false_ne_true, addAllocation_nodes, addFinalCount_flag, addFinalCount,
      modifyNode_nodes, update_update_map]
    refine update_expected hs fun node0 _ => ?_
    rw [hm, hflag, hshard horig, Function.comp_apply]
    exact join_added_node node0 horig
  · rw [if_pos rfl]
    exact nodes_join_original hs hm horig

/-- `allocate` on a node the partition neither is on nor started on. -/
theorem nodes_allocate (hs : s.nodes = expected S0 R0 member)
    (hflag : s.nodeLocalCoreAssignment = S0.nodeLocalCoreAssignment) {a : Int}
    (hm : member a = false) (horig : isOriginal R0 a = false) :
    (s.allocate a).2.nodes = expected S0 R0 (Function.update member a true) := by
  rw [allocate_nodes]
  refine update_expected hs fun node0 h0 => ?_
  rw [hm, hflag]
  exact allocate_added_node node0 horig h0

/-- ... and the core it picks is `shardOf`. -/
theorem allocate_shardOf (hs : s.nodes = expected S0 R0 member)
    (hflag : s.nodeLocalCoreAssignment = S0.nodeLocalCoreAssignment) {a : Int}
    (hm : member a = false) (horig : isOriginal R0 a = false) :
    (s.allocate a).1 = shardOf S0 R0 a := by
  rw [allocate_fst, hs, hflag, shardOf_of_not_original horig]
  simp only [expected_apply]
  rw [hm]
  cases S0.nodes a with
  | none => cases S0.nodeLocalCoreAssignment <;> rfl
  | some node0 =>
      cases S0.nodeLocalCoreAssignment
      · simp [expectedNode_weights_false]
      · rfl

/-- The replica `add_replica` places on a node the partition is not on is on
    the core `shardOf` names, and the node's counts are those of a node the
    partition is on. -/
theorem placeReplica_spec (hs : s.nodes = expected S0 R0 member)
    (hflag : s.nodeLocalCoreAssignment = S0.nodeLocalCoreAssignment) {node : Int}
    (hm : member node = false) :
    (placeReplica (buildOriginal R0) s node).1 = ⟨node, shardOf S0 R0 node⟩ ∧
      (placeReplica (buildOriginal R0) s node).2.nodes =
        expected S0 R0 (Function.update member node true) ∧
      (placeReplica (buildOriginal R0) s node).2.nodeLocalCoreAssignment =
        s.nodeLocalCoreAssignment := by
  unfold placeReplica
  cases hfind : findNode (buildOriginal R0) node with
  | some shard =>
      -- an original node keeps the shard the original map holds
      have horig : isOriginal R0 node = true := by
        rw [isOriginal, ← findNode_isSome, hfind]
        rfl
      have hshard : shardOf S0 R0 node = shard := by
        rw [shardOf, hfind]
      exact ⟨by rw [hshard], nodes_join_original hs hm horig, addFinalCount_flag _ _⟩
  | none =>
      have horig : isOriginal R0 node = false := by
        rw [isOriginal, ← findNode_isSome, hfind]
        rfl
      have hcore := allocate_shardOf hs hflag hm horig
      exact ⟨by simp only [hcore], nodes_allocate hs hflag hm horig, allocate_flag _ _⟩

end Moves

end Scheduling
