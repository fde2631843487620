import Mathlib
import Redpanda.Lib.OrderStatistic

/-! # `group_configuration` under the symmetric change strategy

    Model of `raft/group_configuration.{h,cc}` for configurations of version
    `v_7` and later, which `make_change_strategy` hands to
    `configuration_change_strategy_v6`.  A configuration is its current
    voters and learners, an optional pending update, and an optional old
    configuration kept while the group is in joint consensus.

    Replicas (`vnode`) are a type with decidable equality.  Vectors are
    lists and `std::find` is `List.contains`; `std::erase_if`,
    `std::stable_partition` and the `copy_if` of `all_nodes` are the list
    operations that keep order.  The `vassert`s and `throw`s of the
    strategy are `ConfigError`s. -/

namespace RaftConfiguration

variable {α : Type} [DecidableEq α]

/-- `group_nodes`. -/
structure GroupNodes (α : Type) where
  voters : List α
  learners : List α
deriving DecidableEq, Repr

/-- `configuration_update`. -/
structure ConfigurationUpdate (α : Type) where
  replicasToAdd : List α
  replicasToRemove : List α
  learnerStartOffset : Option Int
deriving DecidableEq, Repr

/-- `group_configuration` (the fields the v6 strategy reads or writes). -/
structure GroupConfiguration (α : Type) where
  current : GroupNodes α
  configurationUpdate : Option (ConfigurationUpdate α)
  old : Option (GroupNodes α)
  revision : Int
deriving DecidableEq, Repr

/-- `configuration_state`. -/
inductive ConfigurationState where
  | simple
  | transitional
  | joint
deriving DecidableEq, Repr

/-- The failures of a reconfiguration request. -/
inductive ConfigError (α : Type) where
  /-- "replica {node} already found in current configuration". -/
  | replicaAlreadyFound (node : α)
  /-- "replica {node} not found in current configuration". -/
  | replicaNotFound (node : α)
  /-- `vassert`: "can not cancel, configuration change is not in progress". -/
  | cancelNotInProgress
deriving DecidableEq, Repr

/-- `group_nodes::contains`. -/
def GroupNodes.contains (n : GroupNodes α) (id : α) : Bool :=
  n.voters.contains id || n.learners.contains id

/-- `configuration_update::is_to_add`. -/
def ConfigurationUpdate.isToAdd (u : ConfigurationUpdate α) (id : α) : Bool :=
  u.replicasToAdd.contains id

/-- `configuration_update::is_to_remove`. -/
def ConfigurationUpdate.isToRemove (u : ConfigurationUpdate α) (id : α) : Bool :=
  u.replicasToRemove.contains id

namespace GroupConfiguration

/-- `group_configuration::get_state`. -/
def getState (cfg : GroupConfiguration α) : ConfigurationState :=
  match cfg.old, cfg.configurationUpdate with
  | some _, _ => .joint
  | none, some _ => .transitional
  | none, none => .simple

/-- `group_configuration::contains`. -/
def contains (cfg : GroupConfiguration α) (id : α) : Bool :=
  cfg.current.contains id ||
    match cfg.old with
    | some o => o.contains id
    | none => false

/-- `group_configuration::has_voters`. -/
def hasVoters (cfg : GroupConfiguration α) : Bool :=
  !(cfg.current.voters.isEmpty ||
    match cfg.old with
    | some o => o.voters.isEmpty
    | none => false)

/-- The `copy_unique` helper of `all_nodes`: append what is not there yet. -/
def copyUnique (ret source : List α) : List α :=
  source.foldl (fun ret vn => if ret.contains vn then ret else ret ++ [vn]) ret

/-- `group_configuration::all_nodes`. -/
def allNodes (cfg : GroupConfiguration α) : List α :=
  let ret := copyUnique (copyUnique [] cfg.current.voters) cfg.current.learners
  match cfg.old with
  | some o => copyUnique (copyUnique ret o.voters) o.learners
  | none => ret

end GroupConfiguration

/-- `details::majority`: `f` holds on at least `size / 2 + 1` members of
    the range; an empty range is a majority of anything. -/
def majorityOf (f : α → Bool) (range : List α) : Bool :=
  range.isEmpty || decide (range.length / 2 + 1 ≤ range.countP f)

/-- `details::quorum_match`: the value `std::nth_element` leaves at
    `majority_match_idx`, which is the one an ascending sort puts there;
    `ret_t{}` for an empty range. -/
def quorumMatchOf {β : Type} [LinearOrder β] [Inhabited β] (f : α → β) (range : List α) : β :=
  if range.isEmpty then default
  else
    let values := range.map f
    let majorityMatchIdx := (values.length - 1) / 2
    OrderStatistic.kth values majorityMatchIdx default

/-- `calculate_configuration_update` (the `vnode` overload). -/
def calculateConfigurationUpdate (currentNodes requestedNodes : List α) :
    ConfigurationUpdate α :=
  { replicasToAdd := requestedNodes.filter fun vn => !currentNodes.contains vn
    replicasToRemove := currentNodes.filter fun vn => !requestedNodes.contains vn
    learnerStartOffset := none }

namespace GroupConfiguration

/-- `group_configuration::majority`. -/
def majority (cfg : GroupConfiguration α) (f : α → Bool) : Bool :=
  match cfg.old with
  | none => majorityOf f cfg.current.voters
  | some o => majorityOf f cfg.current.voters && majorityOf f o.voters

/-- `group_configuration::quorum_match`. -/
def quorumMatch {β : Type} [LinearOrder β] [Inhabited β] (cfg : GroupConfiguration α)
    (f : α → β) : β :=
  match cfg.old with
  | none => quorumMatchOf f cfg.current.voters
  | some o =>
      -- only the old voters decide while the current configuration has none,
      -- and only the current ones while the old configuration has none
      if cfg.current.voters.isEmpty then quorumMatchOf f o.voters
      else if o.voters.isEmpty then quorumMatchOf f cfg.current.voters
      else min (quorumMatchOf f cfg.current.voters) (quorumMatchOf f o.voters)

/-- `group_configuration::promote_to_voter`. -/
def promoteToVoter (cfg : GroupConfiguration α) (id : α) : GroupConfiguration α :=
  if cfg.current.learners.contains id then
    { cfg with current :=
        { voters := cfg.current.voters ++ [id]
          learners := cfg.current.learners.erase id } }
  else cfg

/-- `group_configuration::maybe_demote_removed_voters` (joint state): old
    voters that left the current configuration become old learners. -/
def maybeDemoteRemovedVoters (cfg : GroupConfiguration α) :
    Bool × GroupConfiguration α :=
  match cfg.old with
  | none => (false, cfg)
  | some o =>
      if o.voters.isEmpty then (false, cfg)
      else
        let kept := o.voters.filter cfg.current.contains
        let removed := o.voters.filter fun v => !cfg.current.contains v
        if removed.isEmpty then (false, cfg)
        else (true, { cfg with old := some { voters := kept, learners := o.learners ++ removed } })

/-! ## `configuration_change_strategy_v6` -/

/-- `finish_configuration_transition`: in the transitional state, drop the
    update when no replica to remove is left, else enter joint consensus. -/
def finishConfigurationTransition (cfg : GroupConfiguration α) : GroupConfiguration α :=
  match cfg.old, cfg.configurationUpdate with
  | none, some u =>
      if u.replicasToRemove.any cfg.current.contains then
        { cfg with
          old := some cfg.current
          current := { cfg.current with
            voters := cfg.current.voters.filter fun v => !u.isToRemove v } }
      else { cfg with configurationUpdate := none }
  | _, _ => cfg

/-- `replace`: start moving the voters to `replicas`; new replicas join as
    learners, and with nothing to add the group goes straight to joint
    consensus. -/
def replace (cfg : GroupConfiguration α) (replicas : List α) (rev : Int)
    (learnerStartOffset : Option Int) : GroupConfiguration α :=
  let cfg := { cfg with revision := rev }
  let areEqual := cfg.current.voters.length == replicas.length && replicas.all cfg.contains
  if areEqual then cfg
  else
    let u := { calculateConfigurationUpdate cfg.current.voters replicas with
      learnerStartOffset := learnerStartOffset }
    let cfg := { cfg with
      configurationUpdate := some u
      current := { cfg.current with
        learners := cfg.current.learners ++ replicas.filter u.isToAdd } }
    if u.replicasToAdd.isEmpty then finishConfigurationTransition cfg else cfg

/-- `add`. -/
def add (cfg : GroupConfiguration α) (node : α) (rev : Int)
    (learnerStartOffset : Option Int) : Except (ConfigError α) (GroupConfiguration α) :=
  if cfg.current.contains node then .error (.replicaAlreadyFound node)
  else .ok (replace cfg (cfg.allNodes ++ [node]) rev learnerStartOffset)

/-- `remove`. -/
def remove (cfg : GroupConfiguration α) (node : α) (rev : Int) :
    Except (ConfigError α) (GroupConfiguration α) :=
  if !cfg.current.contains node then .error (.replicaNotFound node)
  else .ok (replace cfg (cfg.allNodes.filter fun v => v ≠ node) rev none)

/-- `discard_old_config`. -/
def discardOldConfig (cfg : GroupConfiguration α) : GroupConfiguration α :=
  { cfg with old := none, configurationUpdate := none }

/-- `fill_learners_with_nodes_to_add`. -/
def fillLearnersWithNodesToAdd (cfg : GroupConfiguration α) : GroupConfiguration α :=
  match cfg.configurationUpdate with
  | some u =>
      let current := u.replicasToAdd.foldl
        (fun (cur : GroupNodes α) toAdd =>
          if cur.contains toAdd then cur else { cur with learners := cur.learners ++ [toAdd] })
        cfg.current
      { cfg with current := current }
  | none => cfg

/-- The pending update with its two directions exchanged. -/
def swapUpdate (cfg : GroupConfiguration α) : GroupConfiguration α :=
  { cfg with configurationUpdate := cfg.configurationUpdate.map fun u =>
      { u with replicasToAdd := u.replicasToRemove, replicasToRemove := u.replicasToAdd } }

/-- The `erase_if` of `cancel_update_in_transitional_state`: drop the
    learners the (swapped) update now removes. -/
def eraseLearnersToRemove (cfg : GroupConfiguration α) : GroupConfiguration α :=
  match cfg.configurationUpdate with
  | some u => { cfg with current := { cfg.current with
      learners := cfg.current.learners.filter fun l => !u.isToRemove l } }
  | none => cfg

/-- `cancel_update_in_transitional_state`. -/
def cancelUpdateInTransitionalState (cfg : GroupConfiguration α) : GroupConfiguration α :=
  cfg.swapUpdate.eraseLearnersToRemove.fillLearnersWithNodesToAdd.finishConfigurationTransition

/-- `cancel_update_in_joint_state`. -/
def cancelUpdateInJointState (cfg : GroupConfiguration α) : GroupConfiguration α :=
  let cfg := swapUpdate cfg
  let cfg := match cfg.old with
    | some o => { cfg with current := o, old := none }
    | none => cfg
  fillLearnersWithNodesToAdd cfg

/-- `cancel_configuration_change`: reverse the direction of the change. -/
def cancelConfigurationChange (cfg : GroupConfiguration α) (revision : Int) :
    Except (ConfigError α) (GroupConfiguration α) :=
  match cfg.getState with
  | .simple => .error .cancelNotInProgress
  | .transitional => .ok { cancelUpdateInTransitionalState cfg with revision := revision }
  | .joint => .ok { cancelUpdateInJointState cfg with revision := revision }

end GroupConfiguration

end RaftConfiguration
