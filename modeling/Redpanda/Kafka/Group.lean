import Mathlib
import Redpanda.Lib.KeyedList

/-! # The consumer group's membership state machine

    Model of `kafka::group` (`kafka/server/group.cc`, `group.h`, `member.h`)
    over the state its membership handling reads and writes: the group's
    state and generation, its members, the per-protocol support counts
    `_supported_protocols`, `_num_members_joining`, the leader, the static
    members' index `_static_members`, the pending members, the join timer,
    and the background stores whose continuations are still to run.

    The code runs on one shard and mutates the group in place, so a handler
    is an `EStateM` over the group: an exception (`std::runtime_error`,
    `std::out_of_range`) leaves the group as the handler had changed it when
    it threw, and a `vassert` aborts the process.  Both are `Fault`s;
    `Fault.isAssertion` tells them apart.

    A `member_ptr` is the member object: `Member.ptr` is its identity, given
    when it is made (`Group.allocated` counts the objects made), and a
    handler that holds a pointer acts on the member of the map that has it.
    The member id is the map's key, which `replace_static_member` changes.
    Member ids, instance ids, protocol names and protocol types are strings
    compared for equality only; `default` is the empty string, which is
    `unknown_member_id` for a member id.

    Time is left out.  A timer is armed or not, and its expiry is an event:
    the join timer holds its callback (`JoinTimer`), a member's heartbeat
    expiry carries the outcome of the clock comparisons of
    `should_keep_alive`, and a pending member's expiry is
    `remove_pending_member`.  Assignments, subscriptions, offsets and the
    transactional state are left out: nothing here reads them. -/

namespace Kafka

/-- `group_state`. -/
inductive GroupState where
  | empty
  | preparingRebalance
  | completingRebalance
  | stable
  | dead
deriving DecidableEq, Repr

/-- The `error_code`s the membership handlers answer with. -/
inductive ErrorCode where
  | none
  | coordinatorNotAvailable
  | inconsistentGroupProtocol
  | unknownMemberId
  | memberIdRequired
  | fencedInstanceId
  | illegalGeneration
  | rebalanceInProgress
  | groupIdNotFound
  | nonEmptyGroup
deriving DecidableEq, Repr

/-- What a group handler can throw.  The first four are `vassert`s; the
    others are exceptions, each named after its throw site. -/
inductive Fault where
  /-- `set_state`: "invalid state transition from {} to {}". -/
  | invalidTransition (source target : GroupState)
  /-- "Invalid protocol support count", "supported protocols cannot be
      negative". -/
  | negativeProtocolCount
  /-- "negative members joining", "invalid number of joining members". -/
  | negativeMembersJoining
  /-- `replace_static_member`: "Static member that is going to be replaced
      must existing in group static members map". -/
  | staticMemberMissing
  /-- `add_member_no_join`: "group already contains member with group
      instance id". -/
  | duplicateInstanceId
  /-- `add_member_no_join`: "group already contains member". -/
  | duplicateMember
  /-- `rebalance_timeout`: "no members in group". -/
  | noMembers
  /-- `vote_for_protocol`: "no matching protocol found". -/
  | noMatchingProtocol
  /-- `get_protocol_metadata`: "protocol {} not found". -/
  | protocolNotFound
  /-- `member_metadata`: "invalid group state". -/
  | invalidGroupState
  /-- `member_metadata` reading `_protocol.value()` with no protocol. -/
  | noProtocol
  /-- `_members.at(id)` of `get_member` on an id the group lacks. -/
  | memberNotFound
  /-- `replace_static_member`: "can not replace not existing member". -/
  | replaceMissingMember
  /-- `update_static_member_and_rebalance`: "group was not supposed to be in
      {} state when the unknown static member {} rejoins". -/
  | unexpectedState
deriving DecidableEq, Repr

/-- A `vassert`, which aborts the process, rather than an exception. -/
def Fault.isAssertion : Fault → Bool
  | .invalidTransition _ _ | .negativeProtocolCount | .negativeMembersJoining
  | .staticMemberMissing => true
  | _ => false

/-- `member_protocol`. -/
structure MemberProtocol (P M : Type) where
  name : P
  metadata : M
deriving DecidableEq, Repr

/-- A `group_member`: the fields the membership handling reads.
    `joining` and `syncing` are whether `_join_promise` and `_sync_promise`
    are engaged (`is_joining()`, `is_syncing()`). -/
structure Member (I G P M T : Type) where
  ptr : Nat
  id : I
  instanceId : Option G
  protocolType : T
  protocols : List (MemberProtocol P M)
  sessionTimeout : Nat
  rebalanceTimeout : Nat
  isNew : Bool
  joining : Bool
  syncing : Bool
deriving DecidableEq, Repr

/-- The callback the join timer is armed with: `complete_join()`, or the
    debounce of the first join of an empty group with the values it has
    captured. -/
inductive JoinTimer where
  | completeJoin
  | debounce (initial delay remaining : Nat)
deriving DecidableEq, Repr

/-- The continuation of the background `store_group` that
    `update_static_member_and_rebalance` starts in the stable state, with
    what it has captured.  `member` is the member object. -/
structure StaticStore (I G P M : Type) where
  member : Nat
  instanceId : G
  newMemberId : I
  oldMemberId : I
  oldProtocols : List (MemberProtocol P M)
  oldSessionTimeout : Nat
  oldRebalanceTimeout : Nat
deriving DecidableEq, Repr

/-- A `kafka::group`.  `members` is `_members` in its iteration order, the
    key of each entry being the member's id; `supportedProtocols` is
    `_supported_protocols`, where an entry exists once `operator[]` has
    made it; `syncStores` holds the generation each leader's
    `store_group` of `sync_group_completing_rebalance` captured;
    `initialRebalanceDelay` is `group_initial_rebalance_delay`. -/
structure Group (I G P M T : Type) where
  state : GroupState
  generation : Int
  protocolType : Option T
  protocol : Option P
  leader : Option I
  members : List (Member I G P M T)
  supportedProtocols : P → Option Int
  staticMembers : G → Option I
  pendingMembers : List I
  numMembersJoining : Int
  newMemberAdded : Bool
  initialJoinInProgress : Bool
  joinTimer : Option JoinTimer
  staticStores : List (StaticStore I G P M)
  syncStores : List Int
  allocated : Nat
  initialRebalanceDelay : Nat

/-- A handler of the group. -/
abbrev GroupM (I G P M T α : Type) := EStateM Fault (Group I G P M T) α

/-- `join_group_request`, the fields the group reads. -/
structure JoinRequest (I G P M T : Type) where
  memberId : I
  instanceId : Option G
  protocolType : T
  protocols : List (MemberProtocol P M)
  sessionTimeout : Nat
  rebalanceTimeout : Nat
  version : Nat
deriving DecidableEq, Repr

/-- What a join handler answers: an error made by `make_join_error`, the
    member's join future, the exceptional future of `update_member` on a
    member already joining, or a response for the current generation. -/
inductive JoinResult (I : Type) where
  | error (memberId : I) (code : ErrorCode)
  | awaiting
  | failed
  | current
deriving DecidableEq, Repr

/-- What `handle_sync_group` answers: an error, the member's sync future,
    or its current assignment. -/
inductive SyncResult where
  | error (code : ErrorCode)
  | awaiting
  | assignment
deriving DecidableEq, Repr

/-- `valid_previous_state(s)` of a group in state `cur`. -/
def GroupState.validPrevious (cur s : GroupState) : Bool :=
  match s with
  | .empty | .completingRebalance => cur == .preparingRebalance
  | .preparingRebalance => cur == .empty || cur == .stable || cur == .completingRebalance
  | .stable => cur == .completingRebalance
  | .dead => true

namespace Member

variable {I G P M T : Type}

/-- The names of the member's protocols, with repeats. -/
def protocolNames (m : Member I G P M T) : List P := m.protocols.map (·.name)

/-- `vote_for_protocol`: the member's first protocol among the
    candidates. -/
def voteForProtocol (m : Member I G P M T) (candidates : P → Bool) : Option P :=
  (m.protocols.find? fun p => candidates p.name).map (·.name)

/-- `should_keep_alive`, with `timely` the outcome of its comparison of the
    latest heartbeat against the deadline. -/
def shouldKeepAlive (m : Member I G P M T) (timely : Bool) : Bool :=
  if m.joining then m.isNew || timely else if m.syncing then timely else false

end Member

/-- `_supported_protocols[p] += d`: `operator[]` makes the entry at zero. -/
def bump {P : Type} [DecidableEq P] (f : P → Option Int) (p : P) (d : Int) : P → Option Int :=
  Function.update f p (some ((f p).getD 0 + d))

/-- `bump` of each protocol of a list in turn. -/
def bumpAll {P : Type} [DecidableEq P] (f : P → Option Int) (ps : List P) (d : Int) :
    P → Option Int :=
  ps.foldl (fun f p => bump f p d) f

/-- The votes of `select_protocol`: a count per protocol, in the order of
    the first vote for each. -/
def addVote {P : Type} [DecidableEq P] : List (P × Nat) → P → List (P × Nat)
  | [], p => [(p, 1)]
  | (q, n) :: vs, p => if q = p then (q, n + 1) :: vs else (q, n) :: addVote vs p

/-- `std::max_element` of the votes by count: the first of the largest. -/
def winner {P : Type} : List (P × Nat) → Option P
  | [] => none
  | (p, n) :: vs =>
    match winner vs, (vs.map Prod.snd).max? with
    | some w, some k => if n < k then some w else some p
    | _, _ => some p

namespace Group

variable {I G P M T : Type} [DecidableEq I] [DecidableEq G] [DecidableEq P]

/-- The member with a given id: `_members.find(id)`. -/
def member? (g : Group I G P M T) (id : I) : Option (Member I G P M T) :=
  KeyedList.find? (·.id) id g.members

/-- The member object `mp`. -/
def object? (g : Group I G P M T) (mp : Nat) : Option (Member I G P M T) :=
  KeyedList.find? (·.ptr) mp g.members

/-- `contains_member`. -/
def containsMember (g : Group I G P M T) (id : I) : Bool := g.members.any (·.id == id)

/-- `contains_pending_member`. -/
def containsPendingMember (g : Group I G P M T) (id : I) : Bool := g.pendingMembers.contains id

/-- `is_leader`. -/
def isLeader (g : Group I G P M T) (id : I) : Bool := g.leader == some id

/-- Whether the member object `mp` is joining. -/
def isJoining (g : Group I G P M T) (mp : Nat) : Bool := (g.object? mp).any (·.joining)

/-- The candidates of `select_protocol`: the protocols whose support count
    is the number of members. -/
def candidates (g : Group I G P M T) (p : P) : Bool :=
  g.supportedProtocols p == some (g.members.length : Int)

/-- `supports_protocols(r)`. -/
def supportsProtocols [DecidableEq T] [Inhabited T] (g : Group I G P M T)
    (r : JoinRequest I G P M T) : Bool :=
  if g.state = .empty then r.protocolType != default && !r.protocols.isEmpty
  else
    match g.protocolType with
    | none => false
    | some t => t == r.protocolType && r.protocols.any fun p => g.candidates p.name

/-- `validate_existing_member(member_id, instance_id)`. -/
def validateExistingMember (g : Group I G P M T) (id : I) (instanceId : Option G) : ErrorCode :=
  match instanceId with
  | some gi =>
    match g.staticMembers gi with
    | none => .unknownMemberId
    | some sid => if sid = id then .none else .fencedInstanceId
  | none => if g.containsMember id then .none else .unknownMemberId

end Group

/-- Apply `f` to the member object `mp` of a member list. -/
def modifyObject {I G P M T : Type} (mp : Nat) (f : Member I G P M T → Member I G P M T)
    (ms : List (Member I G P M T)) : List (Member I G P M T) :=
  KeyedList.modify (·.ptr) mp f ms

/-- `_members.erase(id)`. -/
def eraseMember {I G P M T : Type} [DecidableEq I] (id : I) (ms : List (Member I G P M T)) :
    List (Member I G P M T) :=
  KeyedList.erase (·.id) id ms

/-- `_members.emplace(m.id, m)`: nothing if the id is taken. -/
def emplaceMember {I G P M T : Type} [DecidableEq I] (m : Member I G P M T)
    (ms : List (Member I G P M T)) : List (Member I G P M T) :=
  if ms.any (·.id == m.id) then ms else ms ++ [m]

namespace Group

variable {I G P M T : Type} [DecidableEq I] [DecidableEq G] [DecidableEq P] [DecidableEq M]

/-! ## The internal operations -/

/-- `set_state(s)`: the `vassert` of `valid_previous_state`, then the new
    state; it returns the previous one. -/
def setState (s : GroupState) : GroupM I G P M T GroupState := do
  let g ← get
  if !g.state.validPrevious s then throw (.invalidTransition g.state s)
  set { g with state := s }
  return g.state

/-- `add_member_no_join(member)`. -/
def addMemberNoJoin (m : Member I G P M T) : GroupM I G P M T Unit := do
  if let some gi := m.instanceId then
    let g ← get
    if (g.staticMembers gi).isSome then throw .duplicateInstanceId
    set { g with staticMembers := Function.update g.staticMembers gi (some m.id) }
  modify fun g => if g.members.isEmpty then { g with protocolType := some m.protocolType } else g
  modify fun g => if g.leader.isNone then { g with leader := some m.id } else g
  let g ← get
  if g.containsMember m.id then throw .duplicateMember
  set { g with
    members := g.members ++ [m]
    supportedProtocols := bumpAll g.supportedProtocols m.protocolNames 1 }

/-- `add_member(member)`: `_num_members_joining++`, and
    `get_join_response()` engages the member's join promise. -/
def addMember (m : Member I G P M T) : GroupM I G P M T Unit := do
  addMemberNoJoin m
  modify fun g => { g with
    numMembersJoining := g.numMembersJoining + 1
    members := modifyObject m.ptr (fun x => { x with joining := true }) g.members }

/-- `try_finish_joining_member(member, response)`: `set_join_response`
    disengages the promise. -/
def tryFinishJoiningMember (mp : Nat) : GroupM I G P M T Unit := do
  let g ← get
  if g.isJoining mp then
    set { g with
      members := modifyObject mp (fun x => { x with joining := false }) g.members
      numMembersJoining := g.numMembersJoining - 1 }
    if (← get).numMembersJoining < 0 then throw .negativeMembersJoining

/-- The loop of `update_member_no_join` and `complete_join` that takes a
    member's protocols off the support counts, asserting each stays
    non-negative. -/
def dropProtocols : List P → GroupM I G P M T Unit
  | [] => pure ()
  | p :: ps => do
    modify fun g => { g with supportedProtocols := bump g.supportedProtocols p (-1) }
    if ((← get).supportedProtocols p).getD 0 < 0 then throw .negativeProtocolCount
    dropProtocols ps

/-- The loop of `remove_member`: as `dropProtocols`, and for a member that
    is joining, `_num_members_joining--` at every protocol. -/
def removeProtocols (joining : Bool) : List P → GroupM I G P M T Unit
  | [] => pure ()
  | p :: ps => do
    modify fun g => { g with supportedProtocols := bump g.supportedProtocols p (-1) }
    if ((← get).supportedProtocols p).getD 0 < 0 then throw .negativeProtocolCount
    if joining then
      modify fun g => { g with numMembersJoining := g.numMembersJoining - 1 }
      if (← get).numMembersJoining < 0 then throw .negativeMembersJoining
    removeProtocols joining ps

/-- `update_member_no_join(member, new_protocols, ...)`: the client id and
    host it also replaces are left out. -/
def updateMemberNoJoin (mp : Nat) (newProtocols : List (MemberProtocol P M))
    (newSessionTimeout newRebalanceTimeout : Nat) : GroupM I G P M T Unit := do
  let some m := (← get).object? mp | pure ()
  dropProtocols m.protocolNames
  modify fun g => { g with
    members := modifyObject mp (fun x => { x with protocols := newProtocols }) g.members
    supportedProtocols := bumpAll g.supportedProtocols (newProtocols.map (·.name)) 1 }
  modify fun g => { g with
    members := modifyObject mp (fun x =>
      { x with sessionTimeout := newSessionTimeout, rebalanceTimeout := newRebalanceTimeout })
      g.members }

/-- `update_member(member, ...)`: a member that is joining already gets an
    exceptional future, and the group is left as `update_member_no_join`
    made it. -/
def updateMember (mp : Nat) (newProtocols : List (MemberProtocol P M))
    (newSessionTimeout newRebalanceTimeout : Nat) : GroupM I G P M T (JoinResult I) := do
  updateMemberNoJoin mp newProtocols newSessionTimeout newRebalanceTimeout
  if !(← get).isJoining mp then
    modify fun g => { g with
      numMembersJoining := g.numMembersJoining + 1
      members := modifyObject mp (fun x => { x with joining := true }) g.members }
    return .awaiting
  return .failed

/-- `rebalance_timeout()`: the largest of the members'. -/
def rebalanceTimeout : GroupM I G P M T Nat := do
  match ((← get).members.map (·.rebalanceTimeout)).max? with
  | some t => return t
  | none => throw .noMembers

/-- `all_members_joined()`. -/
def allMembersJoined : GroupM I G P M T Bool := do
  let g ← get
  if g.numMembersJoining < 0 then throw .negativeMembersJoining
  return (g.members.length : Int) == g.numMembersJoining && g.pendingMembers.isEmpty

/-- `select_protocol()`: every member votes for its first candidate, which
    throws for a member with none, and the protocol with the most votes
    wins.  Its vote loop changes nothing, so throwing before it is the
    same. -/
def selectProtocol : GroupM I G P M T P := do
  let g ← get
  let votes := g.members.map (·.voteForProtocol g.candidates)
  if votes.any Option.isNone then throw .noMatchingProtocol
  -- no winner only for a group with no members, which is never asked
  match winner ((votes.filterMap id).foldl addVote []) with
  | some p => return p
  | none => throw .noMatchingProtocol

/-- `member_metadata()`, which the leader's response carries: it throws in
    the dead and preparing states, for no protocol, and for a member that
    lacks the protocol. -/
def memberMetadata : GroupM I G P M T Unit := do
  let g ← get
  if g.state = .dead || g.state = .preparingRebalance then throw .invalidGroupState
  match g.protocol with
  | none => throw .noProtocol
  | some p => if !g.members.all fun m => m.protocolNames.contains p then throw .protocolNotFound

/-- `advance_generation()`. -/
def advanceGeneration : GroupM I G P M T Unit := do
  modify fun g => { g with generation := g.generation + 1 }
  if (← get).members.isEmpty then
    modify fun g => { g with protocol := none }
    discard <| setState .empty
  else
    let p ← selectProtocol
    modify fun g => { g with protocol := some p }
    discard <| setState .completingRebalance

/-- `leader_rejoined()`: whether the leader is joining, and if not, a
    joining member made leader in its place. -/
def leaderRejoined : GroupM I G P M T Bool := do
  let g ← get
  match g.leader with
  | none => return false
  | some l =>
    match g.member? l with
    | none => throw .memberNotFound
    | some lm =>
      if lm.joining then return true
      match g.members.find? (·.joining) with
      | none => return false
      | some m =>
        set { g with leader := some m.id }
        return true

/-- The first loop of `complete_join`, which removes the dynamic members
    that are not joining.  `kept` are the members it has passed and kept;
    the map is `kept ++ rest` at every step. -/
def removeUnjoinedMembers (kept : List (Member I G P M T)) :
    List (Member I G P M T) → GroupM I G P M T Unit
  | [] => pure ()
  | m :: rest => do
    if !m.joining && m.instanceId.isNone then
      dropProtocols m.protocolNames
      let leader := (← get).isLeader m.id
      modify fun g => { g with members := kept ++ rest }
      if leader then modify fun g => { g with leader := (g.members.head?).map (·.id) }
      removeUnjoinedMembers kept rest
    else
      removeUnjoinedMembers (kept ++ [m]) rest

/-- The last loop of `complete_join`: the leader's response carries the
    member metadata, each member's join is finished, and it is no longer
    new. -/
def finishJoiningMembers : List (Member I G P M T) → GroupM I G P M T Unit
  | [] => pure ()
  | m :: ms => do
    if (← get).isLeader m.id then memberMetadata
    tryFinishJoiningMember m.ptr
    modify fun g => { g with members := modifyObject m.ptr (fun x => { x with isNew := false }) g.members }
    finishJoiningMembers ms

/-- `complete_join()`.  Arming the join timer with `complete_join` again
    reads `rebalance_timeout()`; the checkpoint of an empty group is a
    background store that changes nothing here. -/
def completeJoin : GroupM I G P M T Unit := do
  modify fun g => { g with initialJoinInProgress := false }
  removeUnjoinedMembers [] (← get).members
  if (← get).state = .dead then return
  let rejoined ← leaderRejoined
  if !rejoined && !(← get).members.isEmpty then
    discard rebalanceTimeout
    modify fun g => { g with joinTimer := some .completeJoin }
  else
    advanceGeneration
    if (← get).state != .empty then finishJoiningMembers (← get).members

/-- `finish_syncing_members(error)`: every syncing member's promise is set.
    (Its heartbeat is rescheduled, which is time.) -/
def finishSyncingMembers : GroupM I G P M T Unit :=
  modify fun g => { g with members := g.members.map fun m => { m with syncing := false } }

/-- `try_prepare_rebalance()`.  `clear_assignments` is left out with the
    assignments. -/
def tryPrepareRebalance : GroupM I G P M T Unit := do
  if !(← get).state.validPrevious .preparingRebalance then return
  if (← get).state = .completingRebalance then finishSyncingMembers
  let prev ← setState .preparingRebalance
  modify fun g => { g with initialJoinInProgress := prev == .empty }
  if prev = .empty then
    let rebalance ← rebalanceTimeout
    let initial := (← get).initialRebalanceDelay
    modify fun g => { g with joinTimer := some (.debounce initial initial (rebalance - initial)) }
  else if ← allMembersJoined then
    completeJoin
  else
    discard rebalanceTimeout
    modify fun g => { g with joinTimer := some .completeJoin }

/-- `remove_pending_member(member_id)`. -/
def removePendingMember (id : I) : GroupM I G P M T Unit := do
  modify fun g => { g with pendingMembers := g.pendingMembers.erase id }
  if (← get).state = .preparingRebalance && (← get).joinTimer.isSome then
    if ← allMembersJoined then
      modify fun g => { g with joinTimer := none }
      completeJoin

/-- `add_pending_member(member_id, timeout)`: an id already pending keeps
    its timer. -/
def addPendingMember (id : I) : GroupM I G P M T Unit :=
  modify fun g =>
    if g.containsPendingMember id then g else { g with pendingMembers := g.pendingMembers ++ [id] }

/-- `remove_member(member)`, with the member as `get_member` returned it:
    the object is `m.ptr`, and `member->id()` is `m.id`. -/
def removeMember (m : Member I G P M T) : GroupM I G P M T Unit := do
  tryFinishJoiningMember m.ptr
  if let some x := (← get).member? m.id then
    removeProtocols x.joining x.protocolNames
    if let some gi := x.instanceId then
      modify fun g => { g with staticMembers := Function.update g.staticMembers gi none }
    modify fun g => { g with members := eraseMember m.id g.members }
  if (← get).isLeader m.id then
    modify fun g => { g with leader := g.members.head?.map (·.id) }
  match (← get).state with
  | .preparingRebalance =>
    if (← get).joinTimer.isSome then
      if ← allMembersJoined then
        modify fun g => { g with joinTimer := none }
        completeJoin
  | .stable | .completingRebalance => tryPrepareRebalance
  | .empty | .dead => pure ()

/-- `replace_static_member(instance_id, old_member_id, new_member_id)`:
    the member is rekeyed, its join and sync are answered with
    `fenced_instance_id`, and the static index follows.  It returns the
    member object. -/
def replaceStaticMember (instanceId : G) (oldId newId : I) : GroupM I G P M T Nat := do
  let some m := (← get).member? oldId | throw .replaceMissingMember
  modify fun g => { g with members := emplaceMember { m with id := newId } (eraseMember oldId g.members) }
  if (← get).isJoining m.ptr then tryFinishJoiningMember m.ptr
  if ((← get).object? m.ptr).any (·.syncing) then
    modify fun g => { g with members := modifyObject m.ptr (fun x => { x with syncing := false }) g.members }
  if (← get).isLeader oldId then modify fun g => { g with leader := some newId }
  if ((← get).staticMembers instanceId).isNone then throw .staticMemberMissing
  modify fun g => { g with staticMembers := Function.update g.staticMembers instanceId (some newId) }
  return m.ptr

/-- `shutdown()`: every syncing member gets `not_coordinator`, every other
    joining member's join is finished. -/
def shutdownMembers : List (Member I G P M T) → GroupM I G P M T Unit
  | [] => pure ()
  | m :: ms => do
    if m.syncing then
      modify fun g => { g with members := modifyObject m.ptr (fun x => { x with syncing := false }) g.members }
    else if m.joining then
      tryFinishJoiningMember m.ptr
    shutdownMembers ms

/-- `shutdown()`: the join timer is cancelled, and so are the timers it does
    not model. -/
def shutdown : GroupM I G P M T Unit := do
  modify fun g => { g with joinTimer := none }
  shutdownMembers (← get).members

/-! ## Construction -/

/-- `member_state` of `group_metadata_value`: a member as the group stored
    it. -/
structure MemberState (I G M : Type) where
  id : I
  instanceId : Option G
  rebalanceTimeout : Nat
  sessionTimeout : Nat
  subscription : M
deriving DecidableEq, Repr

/-- `group_metadata_value`, the fields the group reads. -/
structure GroupMetadata (I G P M T : Type) where
  protocolType : T
  generation : Int
  protocol : Option P
  leader : Option I
  members : List (MemberState I G M)
deriving DecidableEq, Repr

omit [DecidableEq I] [DecidableEq G] [DecidableEq P] [DecidableEq M] in
/-- `group(id, group_state::empty, ...)`, as the group manager makes one for
    a join to an unknown group. -/
def new (initialRebalanceDelay : Nat) : Group I G P M T where
  state := .empty
  generation := 0
  protocolType := none
  protocol := none
  leader := none
  members := []
  supportedProtocols := fun _ => none
  staticMembers := fun _ => none
  pendingMembers := []
  numMembersJoining := 0
  newMemberAdded := false
  initialJoinInProgress := false
  joinTimer := none
  staticStores := []
  syncStores := []
  allocated := 0
  initialRebalanceDelay := initialRebalanceDelay

/-- The loop of `group(id, md, ...)`: each stored member becomes a member
    object with the group's protocol type and one protocol, the group's
    protocol (or the empty name) with the subscription as its metadata, and
    is added by `add_member_no_join`. -/
def restoreMembers (protocolType : T) (protocol : P) :
    List (MemberState I G M) → GroupM I G P M T Unit
  | [] => pure ()
  | ms :: rest => do
    let g ← get
    set { g with allocated := g.allocated + 1 }
    addMemberNoJoin
      { ptr := g.allocated, id := ms.id, instanceId := ms.instanceId, protocolType := protocolType,
        protocols := [⟨protocol, ms.subscription⟩], sessionTimeout := ms.sessionTimeout,
        rebalanceTimeout := ms.rebalanceTimeout, isNew := false, joining := false,
        syncing := false }
    restoreMembers protocolType protocol rest

omit [DecidableEq I] [DecidableEq G] [DecidableEq P] [DecidableEq M] in
/-- The fields `group(id, md, ...)` sets before its loop: a group with stored
    members starts stable. -/
def ofMetadata (md : GroupMetadata I G P M T) (initialRebalanceDelay : Nat) : Group I G P M T :=
  { new initialRebalanceDelay with
    state := if md.members.isEmpty then .empty else .stable
    generation := md.generation
    protocolType := some md.protocolType
    protocol := md.protocol
    leader := md.leader }

/-- `group(id, md, ...)`: the group, or what its constructor throws. -/
def restore [Inhabited P] (md : GroupMetadata I G P M T) (initialRebalanceDelay : Nat) :
    EStateM.Result Fault (Group I G P M T) Unit :=
  (restoreMembers md.protocolType (md.protocol.getD default) md.members).run
    (ofMetadata md initialRebalanceDelay)

/-! ## The handlers -/

section Handlers

variable [DecidableEq T] [Inhabited I] [Inhabited T]

/-- `add_member_and_rebalance(member_id, r)`: a new member object, marked
    new, joins. -/
def addMemberAndRebalance (newId : I) (r : JoinRequest I G P M T) :
    GroupM I G P M T (JoinResult I) := do
  let g ← get
  let m : Member I G P M T :=
    { ptr := g.allocated, id := newId, instanceId := r.instanceId, protocolType := r.protocolType,
      protocols := r.protocols, sessionTimeout := r.sessionTimeout,
      rebalanceTimeout := r.rebalanceTimeout, isNew := true, joining := false, syncing := false }
  set { g with allocated := g.allocated + 1 }
  if g.state = .preparingRebalance && g.generation = 0 then
    modify fun g => { g with newMemberAdded := true }
  addMember m
  modify fun g => { g with pendingMembers := g.pendingMembers.erase newId }
  tryPrepareRebalance
  return .awaiting

/-- `update_member_and_rebalance(member, r)`. -/
def updateMemberAndRebalance (mp : Nat) (r : JoinRequest I G P M T) :
    GroupM I G P M T (JoinResult I) := do
  let response ← updateMember mp r.protocols r.sessionTimeout r.rebalanceTimeout
  tryPrepareRebalance
  return response

/-- `update_static_member_and_rebalance(old_member_id, new_member_id, r)`.
    The old protocols it keeps for a failed store are read after
    `update_member`, as the source does. -/
def updateStaticMemberAndRebalance (instanceId : G) (oldId newId : I)
    (r : JoinRequest I G P M T) : GroupM I G P M T (JoinResult I) := do
  let mp ← replaceStaticMember instanceId oldId newId
  let some old := (← get).object? mp | throw .memberNotFound
  let f ← updateMember mp r.protocols r.sessionTimeout r.rebalanceTimeout
  let some cur := (← get).member? newId | throw .memberNotFound
  match (← get).state with
  | .stable =>
    let next ← selectProtocol
    if (← get).protocol = some next then
      modify fun g => { g with staticStores := g.staticStores ++
        [{ member := mp, instanceId := instanceId, newMemberId := newId, oldMemberId := oldId,
           oldProtocols := cur.protocols, oldSessionTimeout := old.sessionTimeout,
           oldRebalanceTimeout := old.rebalanceTimeout }] }
    else
      tryPrepareRebalance
    return f
  | .preparingRebalance => return f
  | .completingRebalance =>
    tryPrepareRebalance
    return f
  | .empty | .dead => throw .unexpectedState

/-- `add_new_static_member(new_member_id, r)`. -/
def addNewStaticMember (newId : I) (instanceId : G) (r : JoinRequest I G P M T) :
    GroupM I G P M T (JoinResult I) := do
  match (← get).staticMembers instanceId with
  | some oldId => updateStaticMemberAndRebalance instanceId oldId newId r
  | none => addMemberAndRebalance newId r

/-- `add_new_dynamic_member(new_member_id, r)`.  Its `vassert` that the
    request has no instance id holds: the caller dispatches on it. -/
def addNewDynamicMember (newId : I) (r : JoinRequest I G P M T) :
    GroupM I G P M T (JoinResult I) := do
  if 4 ≤ r.version then
    addPendingMember newId
    return .error newId .memberIdRequired
  addMemberAndRebalance newId r

/-- `join_group_unknown_member(r)`, with `newId` the id
    `generate_member_id(r)` makes. -/
def joinGroupUnknownMember (newId : I) (r : JoinRequest I G P M T) :
    GroupM I G P M T (JoinResult I) := do
  let g ← get
  if g.state = .dead then return .error default .coordinatorNotAvailable
  if !g.supportsProtocols r then return .error default .inconsistentGroupProtocol
  match r.instanceId with
  | some gi => addNewStaticMember newId gi r
  | none => addNewDynamicMember newId r

/-- `join_group_known_member(r)`. -/
def joinGroupKnownMember (r : JoinRequest I G P M T) : GroupM I G P M T (JoinResult I) := do
  let g ← get
  if g.state = .dead then return .error r.memberId .coordinatorNotAvailable
  if !g.supportsProtocols r then return .error r.memberId .inconsistentGroupProtocol
  if g.containsPendingMember r.memberId then return ← addMemberAndRebalance r.memberId r
  let ec := g.validateExistingMember r.memberId r.instanceId
  if ec != .none then return .error r.memberId ec
  let some m := g.member? r.memberId | throw .memberNotFound
  match g.state with
  | .preparingRebalance => updateMemberAndRebalance m.ptr r
  | .completingRebalance =>
    if r.protocols = m.protocols then
      if g.isLeader r.memberId then memberMetadata
      return .current
    updateMemberAndRebalance m.ptr r
  | .stable =>
    if g.isLeader r.memberId || r.protocols != m.protocols then
      return ← updateMemberAndRebalance m.ptr r
    return .current
  | .empty | .dead => return .error r.memberId .unknownMemberId

/-- `handle_join_group(r, is_new_group)`. -/
def handleJoinGroup (r : JoinRequest I G P M T) (isNewGroup : Bool) (newId : I) :
    GroupM I G P M T (JoinResult I) := do
  let ret ← if r.memberId = default then joinGroupUnknownMember newId r
    else joinGroupKnownMember r
  let g ← get
  if !isNewGroup && !g.initialJoinInProgress && g.state = .preparingRebalance then
    if ← allMembersJoined then
      modify fun g => { g with joinTimer := none }
      completeJoin
  return ret

/-- `member_leave_group(member_id, instance_id)` for a member id that is not
    `unknown_member_id`. -/
def memberLeaveKnown (id : I) (instanceId : Option G) : GroupM I G P M T ErrorCode := do
  let g ← get
  if g.containsPendingMember id then
    removePendingMember id
    return .none
  let ec := g.validateExistingMember id instanceId
  if ec != .none then return ec
  let some m := g.member? id | throw .memberNotFound
  removeMember m
  return .none

/-- `member_leave_group(member_id, instance_id)`.  For `unknown_member_id`
    it calls itself once with the id the static index maps the instance to,
    which is never `unknown_member_id`. -/
def memberLeaveGroup (id : I) (instanceId : Option G) : GroupM I G P M T ErrorCode := do
  if id = default then
    match instanceId with
    | none => return .unknownMemberId
    | some gi =>
      match (← get).staticMembers gi with
      | none => return .unknownMemberId
      | some sid => memberLeaveKnown sid instanceId
  else memberLeaveKnown id instanceId

/-- The loop of `handle_leave_group` over the leaving members. -/
def leaveMembers : List (I × Option G) → GroupM I G P M T (List ErrorCode)
  | [] => return []
  | (id, gi) :: rest => do
    let ec ← memberLeaveGroup id gi
    return ec :: (← leaveMembers rest)

/-- `handle_leave_group(r)`: the error of the response, and one per leaving
    member from version 3 on.  Before version 3 the request names one
    member and no instance id. -/
def handleLeaveGroup (version : Nat) (id : I) (leaving : List (I × Option G)) :
    GroupM I G P M T (ErrorCode × List ErrorCode) := do
  if (← get).state = .dead then return (.coordinatorNotAvailable, [])
  if version < 3 then return (← memberLeaveGroup id none, [])
  return (.none, ← leaveMembers leaving)

/-- `handle_sync_group(r)`: in `completing_rebalance` the member waits for
    its assignment, and the leader's request stores the group in the
    background. -/
def handleSyncGroup (id : I) (instanceId : Option G) (generation : Int) :
    GroupM I G P M T SyncResult := do
  let g ← get
  if g.state = .dead then return .error .coordinatorNotAvailable
  let ec := g.validateExistingMember id instanceId
  if ec != .none then return .error ec
  if generation != g.generation then return .error .illegalGeneration
  match g.state with
  | .empty => return .error .unknownMemberId
  | .preparingRebalance => return .error .rebalanceInProgress
  | .completingRebalance =>
    let some m := g.member? id | throw .memberNotFound
    modify fun g => { g with members := modifyObject m.ptr (fun x => { x with syncing := true }) g.members }
    if g.isLeader id then
      modify fun g => { g with syncStores := g.syncStores ++ [g.generation] }
    return .awaiting
  | .stable =>
    if (g.member? id).isNone then throw .memberNotFound
    return .assignment
  | .dead => return .error .coordinatorNotAvailable

/-- The continuation of a leader's `store_group` in
    `sync_group_completing_rebalance`, which captured `expected`. -/
def syncStoreCompleted (expected : Int) (ok : Bool) : GroupM I G P M T Unit := do
  modify fun g => { g with syncStores := g.syncStores.erase expected }
  let g ← get
  if g.state != .completingRebalance || expected != g.generation then return
  if ok then
    finishSyncingMembers
    discard <| setState .stable
  else
    finishSyncingMembers
    tryPrepareRebalance

/-- The continuation of the background store of
    `update_static_member_and_rebalance`: on failure the member is rekeyed
    back and given back what was captured, and its join is answered with the
    error; on success the join is answered. -/
def staticStoreCompleted (s : StaticStore I G P M) (ok : Bool) : GroupM I G P M T Unit := do
  modify fun g => { g with staticStores := g.staticStores.erase s }
  if !ok then
    let mp ← replaceStaticMember s.instanceId s.newMemberId s.oldMemberId
    updateMemberNoJoin mp s.oldProtocols s.oldSessionTimeout s.oldRebalanceTimeout
    tryFinishJoiningMember mp
  else
    if (← get).isLeader s.newMemberId then memberMetadata
    tryFinishJoiningMember s.member

/-- `heartbeat_expire(member_id, deadline)`. -/
def heartbeatExpire (id : I) (timely : Bool) : GroupM I G P M T Unit := do
  let g ← get
  if g.state = .dead then return
  if g.containsPendingMember id then
    removePendingMember id
    return
  match g.member? id with
  | none => pure ()
  | some m => if !m.shouldKeepAlive timely then removeMember m

/-- The join timer firing: it is disarmed, and its callback runs.  The
    debounce arms it again while new members keep arriving and time
    remains. -/
def joinTimerFired : GroupM I G P M T Unit := do
  match (← get).joinTimer with
  | none => pure ()
  | some .completeJoin =>
    modify fun g => { g with joinTimer := none }
    completeJoin
  | some (.debounce initial delay remaining) =>
    modify fun g => { g with joinTimer := none }
    if (← get).newMemberAdded && remaining != 0 then
      modify fun g => { g with
        newMemberAdded := false
        joinTimer := some (.debounce initial (min initial remaining) (remaining - delay)) }
    else
      completeJoin

/-- `group::remove()`: an empty group without transactions in progress is
    marked dead. -/
def remove (hasTransactions : Bool) : GroupM I G P M T ErrorCode := do
  match (← get).state with
  | .dead => return .groupIdNotFound
  | .empty =>
    if hasTransactions then return .nonEmptyGroup
    discard <| setState .dead
    return .none
  | _ => return .nonEmptyGroup

end Handlers

end Group

end Kafka
