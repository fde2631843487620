import Mathlib

/-! # Partition allocation: node counts and a partition whose replicas move

    Model of the bookkeeping part of `cluster/scheduling`: the counts of an
    `allocation_node` (`allocation_node.cc`), the `allocation_state` calls
    that change them (`allocation_state.cc`), the `allocated_partition` that
    moves replicas of one partition (`types.cc`), and the reallocation calls
    of `partition_allocator` (`partition_allocator.cc`).

    A node keeps three counts: `_allocated_partitions`, the replicas
    allocated to it; `_final_partitions`, the replicas it will hold once every
    move in flight is done; and `_weights`, the replicas of each core.  They
    are `uint32_t`, kept as `UInt32`.  The `vassert`s of the decrements are
    not modelled: along every run the counts they guard are positive.

    `allocation_strategy::choose_node` is not modelled.  The node it chose
    is an argument of `do_allocate_replica`, and the runs of
    `Cluster.Reallocation` require it to satisfy the default hard
    constraints.  The `node2count` maps of `reallocate_partition` are not
    modelled either: no count of a node reads them. -/

namespace Scheduling

/-- The `cluster::errc` values these calls return. -/
inductive Errc where
  | success
  | noUpdateInProgress
  | nodeDoesNotExists
  | invalidRequest
deriving DecidableEq, Repr

/-- `model::broker_shard`. -/
structure BrokerShard where
  nodeId : Int
  shard : Nat
deriving DecidableEq, Repr

/-- `std::min_element` from the element after `best`: the index of the first
    least weight. -/
def minElementFrom (best : Nat) (bestWeight : UInt32) (i : Nat) : List UInt32 → Nat
  | [] => best
  | w :: ws =>
      if w < bestWeight then minElementFrom i w (i + 1) ws
      else minElementFrom best bestWeight (i + 1) ws

/-- `std::min_element(_weights.begin(), _weights.end())`, as an index. -/
def minElement : List UInt32 → Nat
  | [] => 0
  | w :: ws => minElementFrom 0 w 1 ws

/-- The counts of an `allocation_node`. -/
structure AllocationNode where
  weights : List UInt32
  allocatedPartitions : UInt32
  finalPartitions : UInt32
deriving DecidableEq, Repr

namespace AllocationNode

/-- `allocate_shard()`: the core of least weight takes the replica. -/
def allocateShard (n : AllocationNode) : Nat × AllocationNode :=
  let core := minElement n.weights
  (core, { n with weights := n.weights.modify core (· + 1) })

/-- `add_allocation()`. -/
def addAllocation (n : AllocationNode) : AllocationNode :=
  { n with allocatedPartitions := n.allocatedPartitions + 1 }

/-- `add_allocation(core)`. -/
def addAllocationCore (n : AllocationNode) (core : Nat) : AllocationNode :=
  { n with weights := n.weights.modify core (· + 1) }

/-- `remove_allocation()`. -/
def removeAllocation (n : AllocationNode) : AllocationNode :=
  { n with allocatedPartitions := n.allocatedPartitions - 1 }

/-- `remove_allocation(core)`. -/
def removeAllocationCore (n : AllocationNode) (core : Nat) : AllocationNode :=
  { n with weights := n.weights.modify core (· - 1) }

/-- `add_final_count()`. -/
def addFinalCount (n : AllocationNode) : AllocationNode :=
  { n with finalPartitions := n.finalPartitions + 1 }

/-- `remove_final_count()`. -/
def removeFinalCount (n : AllocationNode) : AllocationNode :=
  { n with finalPartitions := n.finalPartitions - 1 }

end AllocationNode

/-- `allocation_state`: its nodes, and whether the feature
    `node_local_core_assignment` is active. -/
structure AllocationState where
  nodes : Int → Option AllocationNode
  nodeLocalCoreAssignment : Bool

namespace AllocationState

/-- Apply `f` to the node `id`, if the state has it. -/
def modifyNode (s : AllocationState) (id : Int) (f : AllocationNode → AllocationNode) :
    AllocationState :=
  match s.nodes id with
  | none => s
  | some n => { s with nodes := Function.update s.nodes id (some (f n)) }

/-- `add_allocation(replica)`: the core count only without node-local core
    assignment. -/
def addAllocation (s : AllocationState) (replica : BrokerShard) : AllocationState :=
  s.modifyNode replica.nodeId fun n =>
    if s.nodeLocalCoreAssignment then n.addAllocation
    else n.addAllocation.addAllocationCore replica.shard

/-- `remove_allocation(replica)`. -/
def removeAllocation (s : AllocationState) (replica : BrokerShard) : AllocationState :=
  s.modifyNode replica.nodeId fun n =>
    if s.nodeLocalCoreAssignment then n.removeAllocation
    else n.removeAllocation.removeAllocationCore replica.shard

/-- `allocate(id)`: a new replica on the node, counted as allocated and
    final, on the core of least weight, or on core 0 with node-local core
    assignment (the release build's answer). -/
def allocate (s : AllocationState) (id : Int) : Nat × AllocationState :=
  match s.nodes id with
  | none => (0, s)
  | some n =>
      let n := n.addAllocation.addFinalCount
      if s.nodeLocalCoreAssignment then (0, { s with nodes := Function.update s.nodes id (some n) })
      else
        let r := n.allocateShard
        (r.1, { s with nodes := Function.update s.nodes id (some r.2) })

/-- `add_final_count(replica)`. -/
def addFinalCount (s : AllocationState) (replica : BrokerShard) : AllocationState :=
  s.modifyNode replica.nodeId AllocationNode.addFinalCount

/-- `remove_final_count(replica)`. -/
def removeFinalCount (s : AllocationState) (replica : BrokerShard) : AllocationState :=
  s.modifyNode replica.nodeId AllocationNode.removeFinalCount

end AllocationState

open AllocationState

/-- `allocated_partition`: its replicas, and `_original_node2shard`, built
    on the first added replica from the replicas it had then. -/
structure AllocatedPartition where
  replicas : List BrokerShard
  originalNode2shard : Option (List (Int × Nat))

/-- `allocated_partition::previous_replica`. -/
structure PreviousReplica where
  bs : BrokerShard
  idx : Nat

/-- `reallocation_step`: the replica added and the one it replaced. -/
structure ReallocationStep where
  current : BrokerShard
  previous : Option BrokerShard
deriving DecidableEq, Repr

/-- `_original_node2shard->emplace(bs.node_id, bs.shard)`: a node already
    there keeps its shard. -/
def emplaceOriginal (m : List (Int × Nat)) (bs : BrokerShard) : List (Int × Nat) :=
  if m.any (·.1 == bs.nodeId) then m else m ++ [(bs.nodeId, bs.shard)]

/-- `_original_node2shard` built from the replicas. -/
def buildOriginal (replicas : List BrokerShard) : List (Int × Nat) :=
  replicas.foldl emplaceOriginal []

/-- `_original_node2shard->contains(id)`. -/
def containsNode (m : List (Int × Nat)) (id : Int) : Bool := m.any (·.1 == id)

/-- `_original_node2shard->find(id)`. -/
def findNode (m : List (Int × Nat)) (id : Int) : Option Nat := m.lookup id

namespace AllocatedPartition

/-- `prepare_move(prev_node)`: the first replica on the node, and where it is. -/
def prepareMove (p : AllocatedPartition) (prevNode : Int) : Option PreviousReplica :=
  (p.replicas.zipIdx.find? fun e => e.1.nodeId == prevNode).map fun e => ⟨e.1, e.2⟩

/-- `std::swap(_replicas[idx], _replicas.back()); _replicas.back() = replica;` -/
def swapBackAndSet (replicas : List BrokerShard) (idx : Nat) (replica : BrokerShard) :
    List BrokerShard :=
  match replicas.getLast? with
  | none => replicas
  | some back => (replicas.set idx back).set (replicas.length - 1) replica

/-- The first half of `add_replica` with a previous replica: the replica
    moved away gives back its final count, and its allocation too if this
    partition added it. -/
def releasePrevious (orig : List (Int × Nat)) (s : AllocationState) (bs : BrokerShard) :
    AllocationState :=
  (if containsNode orig bs.nodeId then s else s.removeAllocation bs).removeFinalCount bs

/-- The second half of `add_replica`: a replica on an original node keeps
    the node's shard and counts as final again; one on a new node is
    allocated. -/
def placeReplica (orig : List (Int × Nat)) (s : AllocationState) (node : Int) :
    BrokerShard × AllocationState :=
  match findNode orig node with
  | some shard => (⟨node, shard⟩, s.addFinalCount ⟨node, shard⟩)
  | none =>
      let a := s.allocate node
      (⟨node, a.1⟩, a.2)

/-- `add_replica(node, prev)`. -/
def addReplica (p : AllocatedPartition) (s : AllocationState) (node : Int)
    (prev : Option PreviousReplica) : BrokerShard × AllocatedPartition × AllocationState :=
  let orig := p.originalNode2shard.getD (buildOriginal p.replicas)
  let s := match prev with
    | none => s
    | some pr => releasePrevious orig s pr.bs
  let r := placeReplica orig s node
  let replicas := match prev with
    | none => p.replicas ++ [r.1]
    | some pr => swapBackAndSet p.replicas pr.idx r.1
  (r.1, ⟨replicas, some orig⟩, r.2)

/-- `std::swap(*it, _replicas.back()); _replicas.pop_back();` -/
def popSwapped (replicas : List BrokerShard) (i : Nat) : List BrokerShard :=
  match replicas.getLast? with
  | none => replicas
  | some back => (replicas.set i back).dropLast

/-- The counts `try_revert` gives back for the replica it reverts: its
    final count, and its allocation if this partition added it. -/
def revertCurrent (orig : List (Int × Nat)) (s : AllocationState) (bs : BrokerShard) :
    AllocationState :=
  let s := s.removeFinalCount bs
  if containsNode orig bs.nodeId then s else s.removeAllocation bs

/-- The counts `try_revert` takes again for the replica it restores: final,
    and allocated if not original. -/
def restorePrevious (orig : List (Int × Nat)) (s : AllocationState) (bs : BrokerShard) :
    AllocationState :=
  let s := s.addFinalCount bs
  if containsNode orig bs.nodeId then s else s.addAllocation bs

/-- The counts `try_revert` changes. -/
def revertCounts (orig : List (Int × Nat)) (s : AllocationState) (step : ReallocationStep) :
    AllocationState :=
  let s := revertCurrent orig s step.current
  match step.previous with
  | none => s
  | some prev => restorePrevious orig s prev

/-- `try_revert(step)`: put back the replica the step replaced, or drop the
    replica it added. -/
def tryRevert (p : AllocatedPartition) (s : AllocationState) (step : ReallocationStep) :
    Errc × AllocatedPartition × AllocationState :=
  match p.originalNode2shard with
  | none => (.noUpdateInProgress, p, s)
  | some orig =>
      match p.replicas.idxOf? step.current with
      | none => (.nodeDoesNotExists, p, s)
      | some i =>
          match step.previous with
          | some prev =>
              if prev ∈ p.replicas then (.invalidRequest, p, s)
              else (.success, ⟨p.replicas.set i prev, some orig⟩, revertCounts orig s step)
          | none => (.success, ⟨popSwapped p.replicas i, some orig⟩, revertCounts orig s step)

/-- One replica of the destructor's first loop: a replica this partition
    added gives back its allocation and final count; an original one is
    erased from the original map. -/
def destroyReplica (acc : List (Int × Nat) × AllocationState) (bs : BrokerShard) :
    List (Int × Nat) × AllocationState :=
  if containsNode acc.1 bs.nodeId then (acc.1.filter (·.1 != bs.nodeId), acc.2)
  else (acc.1, (acc.2.removeAllocation bs).removeFinalCount bs)

/-- `~allocated_partition()`: every original replica left in the map after
    the first loop was moved away, and counts as final again. -/
def destroy (p : AllocatedPartition) (s : AllocationState) : AllocationState :=
  match p.originalNode2shard with
  | none => s
  | some orig =>
      let r := p.replicas.foldl destroyReplica (orig, s)
      r.1.foldl (fun s kv => s.addFinalCount ⟨kv.1, kv.2⟩) r.2

end AllocatedPartition

open AllocatedPartition

/-- `partition_allocator::do_allocate_replica`, given the node
    `choose_node` chose: the move of the replica on `prevNode`, or a new
    replica. -/
def doAllocateReplica (p : AllocatedPartition) (s : AllocationState) (prevNode : Option Int)
    (node : Int) : Except Errc (ReallocationStep × AllocatedPartition × AllocationState) :=
  match prevNode with
  | none =>
      let r := p.addReplica s node none
      .ok (⟨r.1, none⟩, r.2)
  | some prevNode =>
      match p.prepareMove prevNode with
      | none => .error .nodeDoesNotExists
      | some prev =>
          let r := p.addReplica s node (some prev)
          .ok (⟨r.1, some prev.bs⟩, r.2)

/-- `partition_allocator::reallocate_replica`. -/
def reallocateReplica (p : AllocatedPartition) (s : AllocationState) (prevNode node : Int) :
    Except Errc (ReallocationStep × AllocatedPartition × AllocationState) :=
  doAllocateReplica p s (some prevNode) node

/-- The loop of `reallocate_partition`: each replica to reallocate moves to
    the node chosen for it.  On an error the partition is destroyed, which
    gives back what the moves before took. -/
def reallocateLoop (p : AllocatedPartition) (s : AllocationState) :
    List (Int × Int) → Except Errc AllocatedPartition × AllocationState
  | [] => (.ok p, s)
  | (prev, node) :: moves =>
      match doAllocateReplica p s (some prev) node with
      | .error e => (.error e, p.destroy s)
      | .ok r => reallocateLoop r.2.1 r.2.2 moves

/-- `partition_allocator::reallocate_partition`: a partition of the current
    replicas, and the moves of `reallocateLoop`. -/
def reallocatePartition (s : AllocationState) (currentReplicas : List BrokerShard)
    (moves : List (Int × Int)) : Except Errc AllocatedPartition × AllocationState :=
  reallocateLoop ⟨currentReplicas, none⟩ s moves

end Scheduling
