import Redpanda.Lib.Majority
import Redpanda.Raft.GroupConfiguration

/-! # No reconfiguration step jumps between disjoint quorums

    Toward: every step of the symmetric change strategy, taken in a state
    its `vassert`s allow and from a configuration with voters, moves to a
    configuration each of whose quorums meets each quorum of the old one.

    The route: a step never touches the current voter list except in three
    ways.  Most steps keep it, either as the new current voters or as the
    new old configuration (`KeepsVoters`); `promote_to_voter` appends one
    voter; cancelling in joint state makes the old voters current.  In each
    case both quorum families are strict majorities of one list (or of a
    list and that list plus one voter), and `Majority` closes it. -/

namespace JointConsensus

open RaftConfiguration Majority

variable {α : Type}

/-! ## Quorums as strict majorities -/

/-- On a non-empty range `details::majority` is a strict majority. -/
theorem isMajority_of_majorityOf {f : α → Bool} {range : List α} (hne : range ≠ [])
    (h : majorityOf f range = true) : IsMajority f range := by
  unfold majorityOf at h
  have hlen : range.isEmpty = false := List.isEmpty_eq_false_iff.mpr hne
  rw [hlen, Bool.false_or, decide_eq_true_eq] at h
  unfold IsMajority
  omega

theorem isMajority_current {cfg : GroupConfiguration α} {f : α → Bool}
    (hne : cfg.current.voters ≠ []) (h : cfg.majority f = true) :
    IsMajority f cfg.current.voters := by
  unfold GroupConfiguration.majority at h
  split at h
  · exact isMajority_of_majorityOf hne h
  · exact isMajority_of_majorityOf hne (Bool.and_eq_true_iff.mp h).1

theorem isMajority_old {cfg : GroupConfiguration α} {o : GroupNodes α} {f : α → Bool}
    (ho : cfg.old = some o) (hne : o.voters ≠ []) (h : cfg.majority f = true) :
    IsMajority f o.voters := by
  unfold GroupConfiguration.majority at h
  rw [ho] at h
  exact isMajority_of_majorityOf hne (Bool.and_eq_true_iff.mp h).2

theorem current_voters_ne_nil {cfg : GroupConfiguration α} (hv : cfg.hasVoters = true) :
    cfg.current.voters ≠ [] := by
  intro hnil
  simp [GroupConfiguration.hasVoters, hnil] at hv

theorem old_voters_ne_nil {cfg : GroupConfiguration α} {o : GroupNodes α}
    (hv : cfg.hasVoters = true) (ho : cfg.old = some o) : o.voters ≠ [] := by
  intro hnil
  simp [GroupConfiguration.hasVoters, ho, hnil] at hv

/-! ## What each step does to the voters -/

/-- `V` survives a step: as the current voters, or as the old voters of a
    joint configuration. -/
def KeepsVoters (V : List α) (cfg' : GroupConfiguration α) : Prop :=
  cfg'.current.voters = V ∨ ∃ o', cfg'.old = some o' ∧ o'.voters = V

/-- Every quorum of a configuration that keeps `V` is a strict majority of
    `V`. -/
theorem isMajority_of_keepsVoters {V : List α} {cfg' : GroupConfiguration α}
    {f : α → Bool} (hk : KeepsVoters V cfg') (hne : V ≠ []) (h : cfg'.majority f = true) :
    IsMajority f V := by
  rcases hk with hcur | ⟨o', ho', hvo⟩
  · rw [← hcur] at hne ⊢
    exact isMajority_current hne h
  · rw [← hvo] at hne ⊢
    exact isMajority_old ho' hne h

variable [DecidableEq α]

/-- The reconfiguration steps of `configuration_change_strategy_v6`, each in
    the states the `vassert`s of `group_configuration` allow.
    `abort_configuration_change` is left out: its own documentation calls it
    unsafe. -/
inductive Step : GroupConfiguration α → GroupConfiguration α → Prop where
  | replace {cfg : GroupConfiguration α} (replicas : List α) (rev : Int) (lso : Option Int) :
      cfg.getState = .simple → Step cfg (cfg.replace replicas rev lso)
  | add {cfg cfg' : GroupConfiguration α} (node : α) (rev : Int) (lso : Option Int) :
      cfg.getState = .simple → cfg.add node rev lso = .ok cfg' → Step cfg cfg'
  | remove {cfg cfg' : GroupConfiguration α} (node : α) (rev : Int) :
      cfg.getState = .simple → cfg.remove node rev = .ok cfg' → Step cfg cfg'
  | promoteToVoter {cfg : GroupConfiguration α} (id : α) :
      Step cfg (cfg.promoteToVoter id)
  | finishConfigurationTransition {cfg : GroupConfiguration α} :
      Step cfg cfg.finishConfigurationTransition
  | discardOldConfig {cfg : GroupConfiguration α} :
      cfg.getState = .joint → Step cfg cfg.discardOldConfig
  | maybeDemoteRemovedVoters {cfg : GroupConfiguration α} :
      cfg.getState = .joint → Step cfg cfg.maybeDemoteRemovedVoters.2
  | cancelConfigurationChange {cfg cfg' : GroupConfiguration α} (rev : Int) :
      cfg.getState ≠ .simple → cfg.cancelConfigurationChange rev = .ok cfg' → Step cfg cfg'

/-! ## The steps that keep the voters -/

theorem finishConfigurationTransition_keepsVoters (cfg : GroupConfiguration α) :
    KeepsVoters cfg.current.voters cfg.finishConfigurationTransition := by
  unfold GroupConfiguration.finishConfigurationTransition
  split
  · split
    · -- entering joint consensus: the voters become the old configuration
      exact .inr ⟨cfg.current, rfl, rfl⟩
    · exact .inl rfl
  · exact .inl rfl

theorem replace_keepsVoters (cfg : GroupConfiguration α) (replicas : List α) (rev : Int)
    (lso : Option Int) : KeepsVoters cfg.current.voters (cfg.replace replicas rev lso) := by
  unfold GroupConfiguration.replace
  simp only
  split
  · exact .inl rfl
  · split
    · exact finishConfigurationTransition_keepsVoters _
    · exact .inl rfl

theorem add_keepsVoters {cfg cfg' : GroupConfiguration α} {node : α} {rev : Int}
    {lso : Option Int} (h : cfg.add node rev lso = .ok cfg') :
    KeepsVoters cfg.current.voters cfg' := by
  unfold GroupConfiguration.add at h
  split at h
  · cases h
  · cases h
    exact replace_keepsVoters ..

theorem remove_keepsVoters {cfg cfg' : GroupConfiguration α} {node : α} {rev : Int}
    (h : cfg.remove node rev = .ok cfg') : KeepsVoters cfg.current.voters cfg' := by
  unfold GroupConfiguration.remove at h
  split at h
  · cases h
  · cases h
    exact replace_keepsVoters ..

/-- Filling learners touches only the learners. -/
theorem fillLearnersWithNodesToAdd_voters (cfg : GroupConfiguration α) :
    cfg.fillLearnersWithNodesToAdd.current.voters = cfg.current.voters ∧
      cfg.fillLearnersWithNodesToAdd.old = cfg.old := by
  unfold GroupConfiguration.fillLearnersWithNodesToAdd
  split
  · rename_i u _
    refine ⟨?_, rfl⟩
    show (u.replicasToAdd.foldl _ cfg.current).voters = cfg.current.voters
    generalize cfg.current = cur
    induction u.replicasToAdd generalizing cur with
    | nil => rfl
    | cons a rest ih =>
        rw [List.foldl_cons, ih]
        split <;> rfl
  · exact ⟨rfl, rfl⟩

theorem cancelUpdateInTransitionalState_keepsVoters (cfg : GroupConfiguration α) :
    KeepsVoters cfg.current.voters cfg.cancelUpdateInTransitionalState := by
  -- swapping the update and dropping learners keep the voters; so does the fill
  have herase : cfg.swapUpdate.eraseLearnersToRemove.current.voters = cfg.current.voters := by
    unfold GroupConfiguration.eraseLearnersToRemove
    split <;> rfl
  have hfill := (fillLearnersWithNodesToAdd_voters cfg.swapUpdate.eraseLearnersToRemove).1
  have hfinish := finishConfigurationTransition_keepsVoters
    cfg.swapUpdate.eraseLearnersToRemove.fillLearnersWithNodesToAdd
  rw [hfill, herase] at hfinish
  exact hfinish

theorem promoteToVoter_shape (cfg : GroupConfiguration α) (id : α) :
    (cfg.promoteToVoter id).old = cfg.old ∧
      ((cfg.promoteToVoter id).current.voters = cfg.current.voters ∨
        (cfg.promoteToVoter id).current.voters = cfg.current.voters ++ [id]) := by
  unfold GroupConfiguration.promoteToVoter
  split
  · exact ⟨rfl, .inr rfl⟩
  · exact ⟨rfl, .inl rfl⟩

theorem maybeDemoteRemovedVoters_current (cfg : GroupConfiguration α) :
    cfg.maybeDemoteRemovedVoters.2.current = cfg.current := by
  unfold GroupConfiguration.maybeDemoteRemovedVoters
  split
  · rfl
  · dsimp only
    split_ifs <;> rfl

/-! ## Quorum intersection -/

/-- **QUORUM INTERSECTION ACROSS A STEP.**  For every step of the v6 strategy
    taken where its `vassert`s allow, from a configuration with voters, every
    set accepted by `majority()` after the step meets every set accepted by
    `majority()` before it. -/
theorem majority_intersects_after_step {cfg cfg' : GroupConfiguration α}
    (hstep : Step cfg cfg') (hv : cfg.hasVoters = true) {p q : α → Bool}
    (hp : cfg'.majority p = true) (hq : cfg.majority q = true) :
    ∃ a, p a = true ∧ q a = true := by
  have hne := current_voters_ne_nil hv
  have hqv : IsMajority q cfg.current.voters := isMajority_current hne hq
  -- the steps that keep the voter list
  have keeps : KeepsVoters cfg.current.voters cfg' → ∃ a, p a = true ∧ q a = true :=
    fun hk => by
      obtain ⟨a, -, hpa, hqa⟩ := (isMajority_of_keepsVoters hk hne hp).inter hqv
      exact ⟨a, hpa, hqa⟩
  cases hstep with
  | replace replicas rev lso _ => exact keeps (replace_keepsVoters ..)
  | add node rev lso _ h => exact keeps (add_keepsVoters h)
  | remove node rev _ h => exact keeps (remove_keepsVoters h)
  | promoteToVoter id =>
      rcases (promoteToVoter_shape cfg id).2 with hsame | hmore
      · exact keeps (.inl hsame)
      · -- one more voter: a majority of the longer list meets one of the shorter
        have hpv := isMajority_current (by rw [hmore]; simp) hp
        rw [hmore] at hpv
        obtain ⟨a, -, hpa, hqa⟩ := hpv.inter_concat hqv
        exact ⟨a, hpa, hqa⟩
  | finishConfigurationTransition => exact keeps (finishConfigurationTransition_keepsVoters _)
  | discardOldConfig _ => exact keeps (.inl rfl)
  | maybeDemoteRemovedVoters _ =>
      exact keeps (.inl (by rw [maybeDemoteRemovedVoters_current]))
  | cancelConfigurationChange rev hns h =>
      unfold GroupConfiguration.cancelConfigurationChange at h
      split at h
      · cases h
      · -- transitional: the voters stay, and the change may turn joint
        cases h
        exact keeps (cancelUpdateInTransitionalState_keepsVoters cfg)
      · -- joint: the old voters become current and the old configuration goes
        cases h
        rename_i hjoint
        obtain ⟨o, ho⟩ : ∃ o, cfg.old = some o := by
          unfold GroupConfiguration.getState at hjoint
          split at hjoint
          · exact ⟨_, by assumption⟩
          · cases hjoint
          · cases hjoint
        have hone := old_voters_ne_nil hv ho
        have hqo : IsMajority q o.voters := isMajority_old ho hone hq
        have hshape := fillLearnersWithNodesToAdd_voters
          ({ cfg.swapUpdate with current := o, old := none } : GroupConfiguration α)
        have hpo : IsMajority p o.voters := by
          unfold GroupConfiguration.cancelUpdateInJointState at hp
          simp only [GroupConfiguration.swapUpdate, ho] at hp
          unfold GroupConfiguration.majority at hp
          simp only [GroupConfiguration.swapUpdate] at hshape
          rw [hshape.2, hshape.1] at hp
          exact isMajority_of_majorityOf hone hp
        obtain ⟨a, -, hpa, hqa⟩ := hpo.inter hqo
        exact ⟨a, hpa, hqa⟩

theorem majority_intersects_after_removing_a_voter :
    ∃ a, (fun x : Nat => x == 1 || x == 2) a = true ∧ (fun x : Nat => x == 2 || x == 3) a = true :=
  majority_intersects_after_step
    (Step.remove 3 0 rfl rfl :
      Step (⟨⟨[1, 2, 3], []⟩, none, none, 0⟩ : GroupConfiguration Nat)
        ⟨⟨[1, 2], []⟩, some ⟨[], [3], none⟩, some ⟨[1, 2, 3], []⟩, 0⟩)
    rfl rfl rfl

end JointConsensus
