import Mathlib
import Redpanda.Raft.GroupConfiguration

/-! # Reconfiguration runs to its end, and cancelling it turns it round

    The leader drives a configuration change: `replace` starts it, the new
    replicas join as learners and are promoted once they catch up, and each
    committed configuration makes `maybe_commit_configuration` take the next
    step (`maybeCommitConfiguration`): finish the transition, demote the
    removed voters, and last leave joint consensus.

    * `replace_transitional` and `replace_joint` say where `replace` from a
      simple configuration leaves the group, `promoteLearners_eq` what the
      promotions do, and `maybeCommitConfiguration` is computed on each
      state by the lemmas after it.
    * `reconfiguration_reaches_requested_replicas`: within three steps the
      configuration is simple with the requested voters.
    * `Phase` follows `replace` and any sequence of promotions and
      transition finishes; `cancel_twice_turns_round` says what cancelling
      a joint configuration once and twice gives, with
      `cancel_configuration_change_not_involution` where cancelling twice
      does not give back the configuration it started from. -/

namespace RaftConfiguration

variable {α : Type} [DecidableEq α]

namespace GroupConfiguration

/-- The step `maybe_commit_configuration` takes on the latest configuration
    once it is committed: none while the current configuration has learners
    or is simple; in the transitional state `finish_configuration_transition`;
    in joint state `maybe_demote_removed_voters`, or `discard_old_config` when
    it demotes nothing. -/
def maybeCommitConfiguration (cfg : GroupConfiguration α) : GroupConfiguration α :=
  if !cfg.current.learners.isEmpty then cfg
  else
    match cfg.getState with
    | .simple => cfg
    | .transitional => cfg.finishConfigurationTransition
    | .joint =>
        let res := cfg.maybeDemoteRemovedVoters
        if res.1 then res.2 else res.2.discardOldConfig

/-- `promote_to_voter` of every current learner, in order. -/
def promoteLearners (cfg : GroupConfiguration α) : GroupConfiguration α :=
  cfg.current.learners.foldl promoteToVoter cfg

end GroupConfiguration

open GroupConfiguration

/-- The end of a reconfiguration to `replicas`: a simple configuration whose
    voters are the replicas, with no learners and no pending update. -/
structure Settled (replicas : List α) (cfg : GroupConfiguration α) : Prop where
  simple : cfg.getState = .simple
  voters : ∀ v, v ∈ cfg.current.voters ↔ v ∈ replicas
  learners : cfg.current.learners = []
  update : cfg.configurationUpdate = none

@[simp] theorem GroupNodes.contains_eq_true {n : GroupNodes α} {v : α} :
    n.contains v = true ↔ v ∈ n.voters ∨ v ∈ n.learners := by
  simp [GroupNodes.contains]

/-! ## The steps on each state -/

omit [DecidableEq α] in
theorem getState_simple {cfg : GroupConfiguration α} (h : cfg.getState = .simple) :
    cfg.old = none ∧ cfg.configurationUpdate = none := by
  unfold getState at h
  split at h <;> simp_all

/-- A settled configuration is where the leader's steps stop. -/
theorem Settled.maybeCommitConfiguration_eq {B : List α} {cfg : GroupConfiguration α}
    (h : Settled B cfg) : cfg.maybeCommitConfiguration = cfg := by
  simp [maybeCommitConfiguration, h.learners, h.simple]

/-- Promoting the learners, which are `ls`, makes them voters in order. -/
theorem foldl_promoteToVoter :
    ∀ (ls : List α) (cfg : GroupConfiguration α), cfg.current.learners = ls →
      ls.foldl promoteToVoter cfg =
        { cfg with current := { voters := cfg.current.voters ++ ls, learners := [] } }
  | [], cfg, h => by
      rw [List.foldl_nil, List.append_nil, ← h]
  | l :: ls, cfg, h => by
      -- the first learner is promoted, and the rest are the learners left
      have hpromote : cfg.promoteToVoter l =
          { cfg with current := { voters := cfg.current.voters ++ [l], learners := ls } } := by
        simp [promoteToVoter, h]
      rw [List.foldl_cons, hpromote, foldl_promoteToVoter ls _ rfl, List.append_assoc]
      rfl

theorem promoteLearners_eq (cfg : GroupConfiguration α) :
    cfg.promoteLearners =
      { cfg with current := { voters := cfg.current.voters ++ cfg.current.learners, learners := [] } } :=
  foldl_promoteToVoter _ cfg rfl

/-- In the transitional state with a replica to remove still present, the
    transition finishes into joint consensus. -/
theorem finishConfigurationTransition_of_remove {cfg : GroupConfiguration α}
    {u : ConfigurationUpdate α} (hold : cfg.old = none) (hu : cfg.configurationUpdate = some u)
    (hrm : ∃ r ∈ u.replicasToRemove, cfg.current.contains r = true) :
    cfg.finishConfigurationTransition =
      { cfg with
        old := some cfg.current
        current := { cfg.current with
          voters := cfg.current.voters.filter fun v => !u.isToRemove v } } := by
  have hany : u.replicasToRemove.any cfg.current.contains = true := List.any_eq_true.mpr hrm
  simp only [finishConfigurationTransition, hold, hu, hany, if_true]

/-- With no replica to remove left, the transition drops the update. -/
theorem finishConfigurationTransition_of_no_remove {cfg : GroupConfiguration α}
    {u : ConfigurationUpdate α} (hold : cfg.old = none) (hu : cfg.configurationUpdate = some u)
    (hrm : ∀ r ∈ u.replicasToRemove, cfg.current.contains r = false) :
    cfg.finishConfigurationTransition = { cfg with configurationUpdate := none } := by
  have hany : u.replicasToRemove.any cfg.current.contains = false := by
    rw [List.any_eq_false]
    intro r hr
    simp [hrm r hr]
  simp only [finishConfigurationTransition, hold, hu, hany, Bool.false_eq_true, if_false]

/-- In joint state with no learners, an old voter not in the current
    configuration is demoted. -/
theorem maybeCommitConfiguration_demote {cfg : GroupConfiguration α} {o : GroupNodes α}
    (hl : cfg.current.learners = []) (hold : cfg.old = some o)
    (hrm : ∃ v ∈ o.voters, v ∉ cfg.current.voters) :
    cfg.maybeCommitConfiguration =
      { cfg with old := some ⟨o.voters.filter cfg.current.contains,
          o.learners ++ o.voters.filter fun v => !cfg.current.contains v⟩ } := by
  obtain ⟨v, hv, hnot⟩ := hrm
  have hne : o.voters.isEmpty = false := by
    cases h : o.voters with
    | nil => rw [h] at hv; cases hv
    | cons _ _ => rfl
  have hremoved : (o.voters.filter fun v => !cfg.current.contains v).isEmpty = false := by
    rw [List.isEmpty_eq_false_iff_exists_mem]
    exact ⟨v, List.mem_filter.mpr ⟨hv, by simp [GroupNodes.contains, hl, hnot]⟩⟩
  simp [maybeCommitConfiguration, getState, maybeDemoteRemovedVoters, hl, hold, hne, hremoved]

/-- In joint state with no learners and every old voter still current, the
    group leaves joint consensus. -/
theorem maybeCommitConfiguration_discard {cfg : GroupConfiguration α} {o : GroupNodes α}
    (hl : cfg.current.learners = []) (hold : cfg.old = some o)
    (hkept : ∀ v ∈ o.voters, v ∈ cfg.current.voters) :
    cfg.maybeCommitConfiguration = cfg.discardOldConfig := by
  have hremoved : (o.voters.filter fun v => !cfg.current.contains v).isEmpty = true := by
    rw [List.isEmpty_iff, List.filter_eq_nil_iff]
    intro v hv
    simp [hl, hkept v hv]
  by_cases hne : o.voters.isEmpty = true
  · simp [maybeCommitConfiguration, getState, maybeDemoteRemovedVoters, hl, hold, hne]
  · simp [maybeCommitConfiguration, getState, maybeDemoteRemovedVoters, hl, hold, hne, hremoved]

/-! ## `replace` from a simple configuration -/

section Replace

variable {cfg : GroupConfiguration α} {B : List α} {rev : Int} {lso : Option Int}

/-- With a replica to add, `replace` leaves the group transitional with the
    new replicas as learners. -/
theorem replace_transitional (hs : cfg.getState = .simple) (hl : cfg.current.learners = [])
    (hadd : ∃ b ∈ B, b ∉ cfg.current.voters) :
    cfg.replace B rev lso =
      { cfg with
        revision := rev
        configurationUpdate := some
          { calculateConfigurationUpdate cfg.current.voters B with learnerStartOffset := lso }
        current := ⟨cfg.current.voters, B.filter fun v => !cfg.current.voters.contains v⟩ } := by
  obtain ⟨hold, -⟩ := getState_simple hs
  obtain ⟨b, hb, hnot⟩ := hadd
  -- the requested replicas are not all voters already
  have hne : ¬(cfg.current.voters.length = B.length ∧
      ∀ x ∈ B, ({ cfg with revision := rev } : GroupConfiguration α).contains x = true) := by
    rintro ⟨-, hall⟩
    have := hall b hb
    simp [GroupConfiguration.contains, GroupNodes.contains, hold, hl] at this
    exact hnot this
  have hadd' : ¬(calculateConfigurationUpdate cfg.current.voters B).replicasToAdd.isEmpty = true := by
    rw [List.isEmpty_iff]
    exact List.ne_nil_of_mem (List.mem_filter.mpr ⟨hb, by simpa using hnot⟩)
  -- the learners added are the replicas to add
  have hlearners : B.filter ({ calculateConfigurationUpdate cfg.current.voters B with
      learnerStartOffset := lso } : ConfigurationUpdate α).isToAdd =
      B.filter fun v => !cfg.current.voters.contains v := by
    refine List.filter_congr fun v hv => ?_
    simp [ConfigurationUpdate.isToAdd, calculateConfigurationUpdate, hv]
  simp only [GroupConfiguration.replace, beq_iff_eq, List.all_eq_true, Bool.and_eq_true]
  rw [if_neg hne, if_neg hadd', hl, List.nil_append, hlearners]

theorem contains_of_simple (hs : cfg.getState = .simple) (hl : cfg.current.learners = []) (v : α) :
    ({ cfg with revision := rev } : GroupConfiguration α).contains v = true ↔ v ∈ cfg.current.voters := by
  obtain ⟨hold, -⟩ := getState_simple hs
  simp [GroupConfiguration.contains, GroupNodes.contains, hold, hl]

/-- When the voters already hold every requested replica and as many, there
    is nothing to do. -/
theorem replace_equal (hs : cfg.getState = .simple) (hl : cfg.current.learners = [])
    (hsub : ∀ b ∈ B, b ∈ cfg.current.voters) (hlen : cfg.current.voters.length = B.length) :
    cfg.replace B rev lso = { cfg with revision := rev } := by
  have heq : cfg.current.voters.length = B.length ∧
      ∀ x ∈ B, ({ cfg with revision := rev } : GroupConfiguration α).contains x = true :=
    ⟨hlen, fun x hx => (contains_of_simple hs hl x).mpr (hsub x hx)⟩
  simp only [GroupConfiguration.replace, beq_iff_eq, List.all_eq_true, Bool.and_eq_true]
  rw [if_pos heq]

/-- When the voters hold every requested replica but not as many, there is
    nothing to add and `replace` finishes the transition at once. -/
theorem replace_finish (hl : cfg.current.learners = [])
    (hsub : ∀ b ∈ B, b ∈ cfg.current.voters) (hlen : cfg.current.voters.length ≠ B.length) :
    cfg.replace B rev lso =
      ({ cfg with
        revision := rev
        configurationUpdate := some
          { calculateConfigurationUpdate cfg.current.voters B with learnerStartOffset := lso } } :
        GroupConfiguration α).finishConfigurationTransition := by
  have hne : ¬(cfg.current.voters.length = B.length ∧
      ∀ x ∈ B, ({ cfg with revision := rev } : GroupConfiguration α).contains x = true) :=
    fun h => hlen h.1
  have hnil : B.filter (fun v => !cfg.current.voters.contains v) = [] :=
    List.filter_eq_nil_iff.mpr fun b hb => by simp [hsub b hb]
  have hadd : (calculateConfigurationUpdate cfg.current.voters B).replicasToAdd.isEmpty = true := by
    rw [List.isEmpty_iff]
    exact hnil
  have hlearners : B.filter ({ calculateConfigurationUpdate cfg.current.voters B with
      learnerStartOffset := lso } : ConfigurationUpdate α).isToAdd = [] := by
    rw [List.filter_eq_nil_iff]
    intro b hb
    simp [ConfigurationUpdate.isToAdd, calculateConfigurationUpdate, hsub b hb]
  simp only [GroupConfiguration.replace, beq_iff_eq, List.all_eq_true, Bool.and_eq_true]
  rw [if_neg hne, if_pos hadd, hl, List.nil_append, hlearners]
  -- the current configuration had no learners to begin with
  have hcur : (⟨cfg.current.voters, []⟩ : GroupNodes α) = cfg.current := by
    rw [← hl]
  rw [hcur]

end Replace

/-! ## The leader's steps -/

theorem promoteLearners_of_nil {cfg : GroupConfiguration α} (hl : cfg.current.learners = []) :
    cfg.promoteLearners = cfg := by
  rw [promoteLearners_eq, hl, List.append_nil]
  have hcur : (⟨cfg.current.voters, []⟩ : GroupNodes α) = cfg.current := by
    rw [← hl]
  rw [hcur]

theorem maybeCommitConfiguration_transitional {cfg : GroupConfiguration α} {u : ConfigurationUpdate α}
    (hl : cfg.current.learners = []) (hold : cfg.old = none) (hu : cfg.configurationUpdate = some u) :
    cfg.maybeCommitConfiguration = cfg.finishConfigurationTransition := by
  simp [maybeCommitConfiguration, getState, hl, hold, hu]

/-- In joint state with a voter to demote, two steps leave joint consensus:
    the demotion, then the discard of the old configuration it changed. -/
theorem maybeCommitConfiguration_twice {cfg : GroupConfiguration α} {o : GroupNodes α}
    (hl : cfg.current.learners = []) (hold : cfg.old = some o)
    (hrm : ∃ v ∈ o.voters, v ∉ cfg.current.voters) :
    cfg.maybeCommitConfiguration.maybeCommitConfiguration = cfg.discardOldConfig := by
  rw [maybeCommitConfiguration_demote hl hold hrm]
  -- every voter kept in the old configuration is a current voter
  have hkept : ∀ v ∈ o.voters.filter cfg.current.contains, v ∈ cfg.current.voters := by
    intro v hv
    have hc := (List.mem_filter.mp hv).2
    simpa [hl] using hc
  refine (maybeCommitConfiguration_discard ?_ rfl hkept).trans rfl
  exact hl

omit [DecidableEq α] in
theorem settled_discardOldConfig {B : List α} {cfg : GroupConfiguration α}
    (hl : cfg.current.learners = []) (hv : ∀ v, v ∈ cfg.current.voters ↔ v ∈ B) :
    Settled B cfg.discardOldConfig :=
  ⟨rfl, hv, hl, rfl⟩

/-- The voters that the update does not remove, among voters that hold
    every requested replica, are the requested replicas. -/
theorem mem_filter_not_toRemove {A B V : List α} {lso : Option Int}
    (hV : ∀ v, v ∈ V ↔ v ∈ A ∨ v ∈ B) (v : α) :
    v ∈ V.filter (fun v => !({ calculateConfigurationUpdate A B with learnerStartOffset := lso } :
      ConfigurationUpdate α).isToRemove v) ↔ v ∈ B := by
  simp only [List.mem_filter, ConfigurationUpdate.isToRemove, calculateConfigurationUpdate,
    hV, Bool.not_eq_eq_eq_not, Bool.not_true, List.contains_eq_mem, decide_eq_false_iff_not]
  by_cases hA : v ∈ A <;> by_cases hB : v ∈ B <;> simp [hA, hB]

/-- From the transitional state with a voter to remove, three steps finish
    the transition, demote the removed voters and leave joint consensus. -/
theorem maybeCommitConfiguration_thrice {cfg : GroupConfiguration α} {u : ConfigurationUpdate α}
    (hl : cfg.current.learners = []) (hold : cfg.old = none) (hu : cfg.configurationUpdate = some u)
    (hrm : ∃ r ∈ u.replicasToRemove, r ∈ cfg.current.voters) :
    cfg.maybeCommitConfiguration.maybeCommitConfiguration.maybeCommitConfiguration =
      ({ cfg with
        old := some cfg.current
        current := { cfg.current with
          voters := cfg.current.voters.filter fun v => !u.isToRemove v } } :
        GroupConfiguration α).discardOldConfig := by
  obtain ⟨r, hr, hrv⟩ := hrm
  rw [maybeCommitConfiguration_transitional hl hold hu,
    finishConfigurationTransition_of_remove hold hu ⟨r, hr, by simp [hrv]⟩]
  refine maybeCommitConfiguration_twice hl rfl ⟨r, hrv, ?_⟩
  -- the replica to remove is no longer a current voter
  have hrem : u.isToRemove r = true := by simp [ConfigurationUpdate.isToRemove, hr]
  simp [hrem]

theorem settled_iterate_promoteLearners {B : List α} {k : Nat} {cfg : GroupConfiguration α}
    (hl : cfg.current.learners = []) (h : Settled B (maybeCommitConfiguration^[k] cfg)) :
    Settled B (maybeCommitConfiguration^[k] cfg.promoteLearners) := by
  rw [promoteLearners_of_nil hl]
  exact h

/-- Requested replicas without duplicates, all among as many voters, are
    all the voters. -/
theorem mem_of_length_eq {A B : List α} (hnodup : B.Nodup) (hsub : ∀ b ∈ B, b ∈ A)
    (hlen : A.length = B.length) (a : α) (ha : a ∈ A) : a ∈ B := by
  by_contra haB
  have hss : B.toFinset ⊂ A.toFinset := by
    refine Finset.ssubset_iff_of_subset (fun b hb => ?_) |>.mpr ⟨a, ?_, ?_⟩
    · simpa using hsub b (by simpa using hb)
    · simpa using ha
    · simpa using haB
  have hcard := Finset.card_lt_card hss
  rw [List.toFinset_card_of_nodup hnodup] at hcard
  have := List.toFinset_card_le A
  omega

/-- **THE LEADER RECONFIGURES TO THE REQUESTED REPLICAS.**  From a simple
    configuration with no learners, `replace` with replicas without
    duplicates, the promotion of every learner, and at most three steps of
    `maybe_commit_configuration` give a simple configuration whose voters
    are the replicas, with no learners and no pending update. -/
theorem reconfiguration_reaches_requested_replicas (cfg : GroupConfiguration α) (B : List α)
    (rev : Int) (lso : Option Int) (hs : cfg.getState = .simple) (hl : cfg.current.learners = [])
    (hnodup : B.Nodup) :
    ∃ k ≤ 3, Settled B (maybeCommitConfiguration^[k] (cfg.replace B rev lso).promoteLearners) := by
  obtain ⟨hold, hupd⟩ := getState_simple hs
  by_cases hadd : ∃ b ∈ B, b ∉ cfg.current.voters
  · -- new replicas join as learners and are promoted
    rw [replace_transitional hs hl hadd, promoteLearners_eq]
    have hvoters : ∀ v, v ∈ cfg.current.voters ++ B.filter (fun v => !cfg.current.voters.contains v) ↔
        v ∈ cfg.current.voters ∨ v ∈ B := by
      intro v
      by_cases hv : v ∈ cfg.current.voters <;> simp [hv]
    by_cases hrm : ∃ a ∈ cfg.current.voters, a ∉ B
    · -- the removed voters leave through joint consensus: three steps
      obtain ⟨a, ha, haB⟩ := hrm
      refine ⟨3, le_refl 3, ?_⟩
      show Settled B (maybeCommitConfiguration (maybeCommitConfiguration (maybeCommitConfiguration _)))
      refine (congrArg (Settled B) (maybeCommitConfiguration_thrice rfl ?_ rfl
        ⟨a, by simp [calculateConfigurationUpdate, ha, haB], List.mem_append_left _ ha⟩)).mpr ?_
      · exact hold
      · exact settled_discardOldConfig rfl (mem_filter_not_toRemove hvoters)
    · -- nothing to remove: the transition finishes with the update dropped
      refine ⟨1, by decide, ?_⟩
      rw [Function.iterate_one]
      refine (congrArg (Settled B) ((maybeCommitConfiguration_transitional rfl ?_ rfl).trans
        (finishConfigurationTransition_of_no_remove ?_ rfl ?_))).mpr ?_
      · exact hold
      · exact hold
      rotate_left
      · refine ⟨by simp [getState, hold], fun v => ?_, rfl, rfl⟩
        rw [hvoters]
        constructor
        · rintro (hv | hv)
          · by_contra hvB
            exact hrm ⟨v, hv, hvB⟩
          · exact hv
        · exact Or.inr
      · intro r hr
        simp [calculateConfigurationUpdate] at hr
        exact absurd ⟨r, hr.1, hr.2⟩ hrm
  · -- every requested replica is a voter already
    have hsub : ∀ b ∈ B, b ∈ cfg.current.voters := fun b hb => by
      by_contra hnot
      exact hadd ⟨b, hb, hnot⟩
    by_cases hlen : cfg.current.voters.length = B.length
    · -- as many voters: nothing to do
      rw [replace_equal hs hl hsub hlen]
      refine ⟨0, Nat.zero_le 3, settled_iterate_promoteLearners hl ?_⟩
      exact ⟨by simp [getState, hold, hupd], fun v => ⟨mem_of_length_eq hnodup hsub hlen v,
        hsub v⟩, hl, hupd⟩
    · rw [replace_finish hl hsub hlen]
      set u₀ : ConfigurationUpdate α :=
        { calculateConfigurationUpdate cfg.current.voters B with learnerStartOffset := lso } with hu₀
      have hold₀ : ({ cfg with revision := rev, configurationUpdate := some u₀ } :
          GroupConfiguration α).old = none := hold
      by_cases hrm : ∃ a ∈ cfg.current.voters, a ∉ B
      · -- straight to joint consensus, then two steps
        obtain ⟨a, ha, haB⟩ := hrm
        have hrem : u₀.isToRemove a = true := by
          simp [hu₀, ConfigurationUpdate.isToRemove, calculateConfigurationUpdate, ha, haB]
        rw [finishConfigurationTransition_of_remove hold₀ rfl
          ⟨a, by simpa [ConfigurationUpdate.isToRemove] using hrem, by simp [ha]⟩]
        refine ⟨2, by decide, settled_iterate_promoteLearners hl ?_⟩
        show Settled B (maybeCommitConfiguration (maybeCommitConfiguration _))
        refine (congrArg (Settled B) (maybeCommitConfiguration_twice ?_ rfl
          ⟨a, ha, by simp [hrem]⟩)).mpr ?_
        · exact hl
        refine settled_discardOldConfig hl (mem_filter_not_toRemove fun v => ?_)
        exact ⟨Or.inl, fun h => h.elim id (hsub v)⟩
      · -- the same voters: the update is dropped at once
        have hnone : ∀ r ∈ u₀.replicasToRemove, GroupNodes.contains cfg.current r = false := by
          intro r hr
          simp [hu₀, calculateConfigurationUpdate] at hr
          exact absurd ⟨r, hr.1, hr.2⟩ hrm
        rw [finishConfigurationTransition_of_no_remove hold₀ rfl hnone]
        refine ⟨0, Nat.zero_le 3, settled_iterate_promoteLearners hl ?_⟩
        refine ⟨by simp [getState, hold], fun v => ⟨fun hv => ?_, hsub v⟩, hl, rfl⟩
        by_contra hvB
        exact hrm ⟨v, hv, hvB⟩

/-- From voters `[1, 2]` to `[2, 3]`: replica `3` joins as a learner, is
    promoted, and node `1` leaves through joint consensus. -/
theorem reconfiguration_reaches_requested_replicas_sample :
    (⟨⟨[1, 2], []⟩, none, none, 0⟩ : GroupConfiguration Nat).getState = .simple ∧
      (⟨⟨[1, 2], []⟩, none, none, 0⟩ : GroupConfiguration Nat).current.learners = [] ∧
      [2, 3].Nodup ∧
      ∃ k ≤ 3, Settled [2, 3] (maybeCommitConfiguration^[k]
        ((⟨⟨[1, 2], []⟩, none, none, 0⟩ : GroupConfiguration Nat).replace [2, 3] 1 none).promoteLearners) :=
  ⟨rfl, rfl, by decide, reconfiguration_reaches_requested_replicas _ [2, 3] 1 none rfl rfl (by decide)⟩

/-! ## Cancelling a reconfiguration in joint state -/

/-- What the leader does while a change is in progress: promote a learner,
    or finish the transition. -/
inductive ChangeStep (α : Type) where
  | promoteToVoter (id : α)
  | finishConfigurationTransition
deriving DecidableEq, Repr

/-- A sequence of change steps, in order. -/
def ChangeStep.run (cfg : GroupConfiguration α) (steps : List (ChangeStep α)) : GroupConfiguration α :=
  steps.foldl (fun cfg step =>
    match step with
    | .promoteToVoter id => cfg.promoteToVoter id
    | .finishConfigurationTransition => cfg.finishConfigurationTransition) cfg

/-- Where `replace` from voters `A` and the change steps after it leave the
    configuration: transitional with the replicas to add split into promoted
    voters `P` and learners `L`; in joint state entered with `P` and `L`,
    with `P'` promoted since; or simple once there was nothing to remove. -/
inductive Phase (A : List α) (u : ConfigurationUpdate α) (rev : Int) :
    GroupConfiguration α → Prop where
  | transitional (P L : List α) : (P ++ L).Perm u.replicasToAdd →
      Phase A u rev ⟨⟨A ++ P, L⟩, some u, none, rev⟩
  | joint (P L P' L' : List α) : (P ++ L).Perm u.replicasToAdd → (P' ++ L').Perm L →
      (∃ r ∈ u.replicasToRemove, r ∈ A) →
      Phase A u rev
        ⟨⟨(A ++ P).filter (fun v => !u.isToRemove v) ++ P', L'⟩, some u, some ⟨A ++ P, L⟩, rev⟩
  | simple (cfg : GroupConfiguration α) : cfg.getState = .simple → Phase A u rev cfg

section Phase

variable {A : List α} {u : ConfigurationUpdate α} {rev : Int}

/-- Promoting a learner moves it from the learners to the end of the
    voters. -/
theorem promoteToVoter_of_mem {cfg : GroupConfiguration α} {id : α} (h : id ∈ cfg.current.learners) :
    cfg.promoteToVoter id =
      { cfg with current := ⟨cfg.current.voters ++ [id], cfg.current.learners.erase id⟩ } := by
  simp [promoteToVoter, h]

theorem promoteToVoter_of_not_mem {cfg : GroupConfiguration α} {id : α}
    (h : id ∉ cfg.current.learners) : cfg.promoteToVoter id = cfg := by
  simp [promoteToVoter, h]

theorem perm_promote {P L : List α} {N : List α} {id : α} (hperm : (P ++ L).Perm N) (h : id ∈ L) :
    (P ++ [id] ++ L.erase id).Perm N := by
  refine List.Perm.trans ?_ hperm
  rw [List.append_assoc, List.singleton_append]
  exact List.Perm.append_left P (List.perm_cons_erase h).symm

theorem Phase.promoteToVoter {cfg : GroupConfiguration α} (h : Phase A u rev cfg) (id : α) :
    Phase A u rev (cfg.promoteToVoter id) := by
  cases h with
  | transitional P L hperm =>
      by_cases hid : id ∈ L
      · rw [promoteToVoter_of_mem hid]
        have : Phase A u rev _ := .transitional _ _ (perm_promote hperm hid)
        simpa only [List.append_assoc] using this
      · rw [promoteToVoter_of_not_mem hid]
        exact .transitional P L hperm
  | joint P L P' L' hperm hperm' hrm =>
      by_cases hid : id ∈ L'
      · rw [promoteToVoter_of_mem hid]
        have : Phase A u rev _ := .joint P L _ _ hperm (perm_promote hperm' hid) hrm
        simpa only [List.append_assoc] using this
      · rw [promoteToVoter_of_not_mem hid]
        exact .joint P L P' L' hperm hperm' hrm
  | simple cfg hs =>
      refine .simple _ ?_
      obtain ⟨hold, hupd⟩ := getState_simple hs
      unfold GroupConfiguration.promoteToVoter
      split <;> simp [getState, hold, hupd]

theorem Phase.finishConfigurationTransition {cfg : GroupConfiguration α} (h : Phase A u rev cfg)
    (hRA : ∀ r ∈ u.replicasToRemove, r ∈ A) : Phase A u rev cfg.finishConfigurationTransition := by
  cases h with
  | transitional P L hperm =>
      by_cases hrm : ∃ r ∈ u.replicasToRemove, r ∈ A
      · -- a voter to remove: into joint consensus
        obtain ⟨r, hr, hrA⟩ := hrm
        rw [finishConfigurationTransition_of_remove rfl rfl ⟨r, hr, by simp [hrA]⟩]
        have : Phase A u rev _ := .joint P L [] L hperm (by simp) ⟨r, hr, hrA⟩
        rwa [List.append_nil] at this
      · -- nothing to remove: the update is dropped
        rw [finishConfigurationTransition_of_no_remove rfl rfl fun r hr =>
          absurd ⟨r, hr, hRA r hr⟩ hrm]
        exact .simple _ rfl
  | joint P L P' L' hperm hperm' hrm => exact .joint P L P' L' hperm hperm' hrm
  | simple cfg hs =>
      obtain ⟨hold, hupd⟩ := getState_simple hs
      have hfin : cfg.finishConfigurationTransition = cfg := by
        simp [GroupConfiguration.finishConfigurationTransition, hold, hupd]
      rw [hfin]
      exact .simple cfg hs

/-- Every sequence of change steps keeps the phase. -/
theorem Phase.run (hRA : ∀ r ∈ u.replicasToRemove, r ∈ A) :
    ∀ (steps : List (ChangeStep α)) {cfg : GroupConfiguration α}, Phase A u rev cfg →
      Phase A u rev (ChangeStep.run cfg steps)
  | [], _, h => h
  | step :: steps, cfg, h => by
      have hstep : Phase A u rev (match step with
          | .promoteToVoter id => cfg.promoteToVoter id
          | .finishConfigurationTransition => cfg.finishConfigurationTransition) := by
        cases step with
        | promoteToVoter id => exact h.promoteToVoter id
        | finishConfigurationTransition => exact h.finishConfigurationTransition hRA
      exact Phase.run hRA steps hstep

/-- In joint state the phase records the configuration the change entered
    joint consensus with. -/
theorem Phase.of_joint {cfg : GroupConfiguration α} (h : Phase A u rev cfg)
    (hj : cfg.getState = .joint) :
    ∃ P L, (P ++ L).Perm u.replicasToAdd ∧ (∃ r ∈ u.replicasToRemove, r ∈ A) ∧
      cfg.configurationUpdate = some u ∧ cfg.old = some ⟨A ++ P, L⟩ := by
  cases h with
  | transitional P L _ => simp [getState] at hj
  | joint P L P' L' hperm _ hrm => exact ⟨P, L, hperm, hrm, rfl, rfl⟩
  | simple c hs => rw [hs] at hj; cases hj

end Phase

/-! ## Cancelling twice -/

/-- A joint configuration changing with update `u`, whose voters once the
    old configuration is discarded are those that satisfy `V`. -/
structure HeadsTo (u : ConfigurationUpdate α) (V : α → Prop) (cfg : GroupConfiguration α) : Prop where
  joint : cfg.getState = .joint
  update : cfg.configurationUpdate = some u
  voters : ∀ v, v ∈ cfg.discardOldConfig.current.voters ↔ V v

theorem foldl_fill_of_contained (cur : GroupNodes α) :
    ∀ xs : List α, (∀ x ∈ xs, cur.contains x = true) →
      xs.foldl (fun (cur : GroupNodes α) toAdd =>
        if cur.contains toAdd then cur else { cur with learners := cur.learners ++ [toAdd] }) cur = cur
  | [], _ => rfl
  | x :: xs, h => by
      rw [List.foldl_cons, if_pos (h x List.mem_cons_self)]
      exact foldl_fill_of_contained cur xs fun y hy => h y (List.mem_cons_of_mem x hy)

/-- In joint state, cancelling makes the old configuration current again
    with the update swapped, and adds no learner when the old configuration
    holds every replica the swapped update adds. -/
theorem cancelConfigurationChange_joint {cfg : GroupConfiguration α} {u : ConfigurationUpdate α}
    {o : GroupNodes α} (hu : cfg.configurationUpdate = some u) (hold : cfg.old = some o)
    (hfill : ∀ x ∈ u.replicasToRemove, o.contains x = true) (r : Int) :
    cfg.cancelConfigurationChange r = .ok
      ⟨o, some { u with replicasToAdd := u.replicasToRemove, replicasToRemove := u.replicasToAdd },
        none, r⟩ := by
  have hstate : cfg.getState = .joint := by simp [getState, hold]
  simp only [cancelConfigurationChange, hstate, cancelUpdateInJointState, swapUpdate, hu, hold,
    Option.map_some, fillLearnersWithNodesToAdd]
  rw [foldl_fill_of_contained o _ hfill]

variable {A B P L : List α} {lso : Option Int}

/-- The update `replace` computes from voters `A` to replicas `B`. -/
abbrev replaceUpdate (A B : List α) (lso : Option Int) : ConfigurationUpdate α :=
  { calculateConfigurationUpdate A B with learnerStartOffset := lso }

theorem mem_replicasToAdd {v : α} :
    v ∈ (calculateConfigurationUpdate A B).replicasToAdd ↔ v ∈ B ∧ v ∉ A := by
  simp [calculateConfigurationUpdate]

theorem mem_replicasToRemove {v : α} :
    v ∈ (calculateConfigurationUpdate A B).replicasToRemove ↔ v ∈ A ∧ v ∉ B := by
  simp [calculateConfigurationUpdate]

/-- Cancelling the joint configuration of a change from `A` (entered with the
    promoted replicas `P` and the learners `L`) and finishing the transition
    heads back to exactly `A`. -/
theorem cancel_joint_heads_back (hperm : (P ++ L).Perm (replaceUpdate A B lso).replicasToAdd)
    (hadd : ∃ b ∈ B, b ∉ A) {cfg : GroupConfiguration α} {r : Int}
    (hu : cfg.configurationUpdate = some (replaceUpdate A B lso)) (hold : cfg.old = some ⟨A ++ P, L⟩) :
    ∃ c, cfg.cancelConfigurationChange r = .ok c ∧
      c.finishConfigurationTransition =
        ⟨⟨A, L⟩, some { replaceUpdate A B lso with
            replicasToAdd := (replaceUpdate A B lso).replicasToRemove
            replicasToRemove := (replaceUpdate A B lso).replicasToAdd },
          some ⟨A ++ P, L⟩, r⟩ := by
  have hmemN : ∀ v, v ∈ P ∨ v ∈ L ↔ v ∈ B ∧ v ∉ A := fun v => by
    rw [← List.mem_append, hperm.mem_iff, mem_replicasToAdd]
  refine ⟨_, cancelConfigurationChange_joint hu hold (fun x hx => ?_) r, ?_⟩
  · -- the replicas to remove are old voters
    simp [(mem_replicasToRemove.mp hx).1]
  · obtain ⟨b, hb, hbA⟩ := hadd
    have hbN : b ∈ P ∨ b ∈ L := (hmemN b).mpr ⟨hb, hbA⟩
    set u' : ConfigurationUpdate α := { replaceUpdate A B lso with
      replicasToAdd := (replaceUpdate A B lso).replicasToRemove
      replicasToRemove := (replaceUpdate A B lso).replicasToAdd } with hu'
    have hbN' : b ∈ u'.replicasToRemove := mem_replicasToAdd.mpr ⟨hb, hbA⟩
    rw [finishConfigurationTransition_of_remove rfl rfl
      ⟨b, hbN', by simpa [or_assoc] using Or.inr hbN⟩]
    -- the voters left are `A`: none of it is added, and all of `P` is
    have hvoters : (A ++ P).filter (fun v => !u'.isToRemove v) = A := by
      rw [List.filter_append, List.filter_eq_self.mpr, List.filter_eq_nil_iff.mpr, List.append_nil]
      · intro v hv
        obtain ⟨hvB, hvA⟩ := (hmemN v).mp (.inl hv)
        simp [hu', ConfigurationUpdate.isToRemove, calculateConfigurationUpdate, hvB, hvA]
      · intro v hv
        simp [hu', ConfigurationUpdate.isToRemove, calculateConfigurationUpdate, hv]
    rw [hvoters]

/-- Cancelling the joint configuration that heads back to `A` and finishing
    the transition heads to `B` again, with the voters of the old
    configuration that `B` keeps. -/
theorem cancel_joint_heads_forward (hperm : (P ++ L).Perm (replaceUpdate A B lso).replicasToAdd)
    (hrm : ∃ r ∈ (replaceUpdate A B lso).replicasToRemove, r ∈ A) (cfg : GroupConfiguration α)
    (r : Int)
    (hu : cfg.configurationUpdate = some { replaceUpdate A B lso with
      replicasToAdd := (replaceUpdate A B lso).replicasToRemove
      replicasToRemove := (replaceUpdate A B lso).replicasToAdd })
    (hold : cfg.old = some ⟨A ++ P, L⟩) :
    ∃ c, cfg.cancelConfigurationChange r = .ok c ∧
      c.finishConfigurationTransition =
        ⟨⟨(A ++ P).filter (fun v => !(replaceUpdate A B lso).isToRemove v), L⟩,
          some (replaceUpdate A B lso), some ⟨A ++ P, L⟩, r⟩ := by
  refine ⟨_, cancelConfigurationChange_joint hu hold (fun x hx => ?_) r, ?_⟩
  · -- the replicas the swapped update removes were added: promoted or learners
    have hx' : x ∈ P ++ L := hperm.mem_iff.mpr hx
    rw [List.mem_append] at hx'
    rcases hx' with hxP | hxL <;> simp [*]
  · obtain ⟨a, ha, haA⟩ := hrm
    exact finishConfigurationTransition_of_remove rfl rfl ⟨a, ha, by simp [haA]⟩

/-- **CANCELLING TURNS A RECONFIGURATION ROUND.**  Let `replace` move a
    simple configuration with voters `A` and no learners to replicas `B`
    that add a replica, and let promotions and transition finishes bring it
    to joint state, entered with old configuration `o`.  Cancelling and
    finishing the transition gives a joint configuration with the update
    swapped whose voters, the old configuration discarded, are exactly `A`;
    cancelling that and finishing gives a joint configuration with the
    original update whose voters are the replicas of `B` among the voters
    of `o`. -/
theorem cancel_twice_turns_round (cfg cfg' : GroupConfiguration α) (B : List α) (rev r₁ r₂ : Int)
    (lso : Option Int) (steps : List (ChangeStep α)) (hs : cfg.getState = .simple)
    (hl : cfg.current.learners = []) (hadd : ∃ b ∈ B, b ∉ cfg.current.voters)
    (hreach : cfg' = ChangeStep.run (cfg.replace B rev lso) steps) (hjoint : cfg'.getState = .joint) :
    ∃ o u c₁ c₂, cfg'.old = some o ∧ cfg'.configurationUpdate = some u ∧
      cfg'.cancelConfigurationChange r₁ = .ok c₁ ∧
      HeadsTo { u with replicasToAdd := u.replicasToRemove, replicasToRemove := u.replicasToAdd }
        (· ∈ cfg.current.voters) c₁.finishConfigurationTransition ∧
      c₁.finishConfigurationTransition.discardOldConfig.current.voters = cfg.current.voters ∧
      c₁.finishConfigurationTransition.cancelConfigurationChange r₂ = .ok c₂ ∧
      HeadsTo u (fun v => v ∈ B ∧ v ∈ o.voters) c₂.finishConfigurationTransition := by
  obtain ⟨hold, -⟩ := getState_simple hs
  -- `replace` starts the transitional phase, which the steps keep
  have hphase : Phase cfg.current.voters (replaceUpdate cfg.current.voters B lso) rev
      (cfg.replace B rev lso) := by
    rw [replace_transitional hs hl hadd]
    have : Phase cfg.current.voters (replaceUpdate cfg.current.voters B lso) rev _ :=
      .transitional [] (replaceUpdate cfg.current.voters B lso).replicasToAdd (List.Perm.refl _)
    rw [List.append_nil, ← hold] at this
    exact this
  have hRA : ∀ r ∈ (replaceUpdate cfg.current.voters B lso).replicasToRemove,
      r ∈ cfg.current.voters := fun r hr => (mem_replicasToRemove.mp hr).1
  subst hreach
  obtain ⟨P, L, hperm, hrm, hu, hold'⟩ := (Phase.run hRA steps hphase).of_joint hjoint
  obtain ⟨c₁, hc₁, hfin₁⟩ := cancel_joint_heads_back (r := r₁) hperm hadd hu hold'
  obtain ⟨c₂, hc₂, hfin₂⟩ := cancel_joint_heads_forward hperm hrm
    c₁.finishConfigurationTransition r₂ (by rw [hfin₁]) (by rw [hfin₁])
  refine ⟨_, _, c₁, c₂, hold', hu, hc₁,
    ⟨by rw [hfin₁]; rfl, by rw [hfin₁], fun v => by rw [hfin₁]; rfl⟩, by rw [hfin₁]; rfl, hc₂,
    ⟨by rw [hfin₂]; rfl, by rw [hfin₂], fun v => ?_⟩⟩
  -- the voters kept are the old voters that are not removed
  rw [hfin₂]
  show v ∈ (cfg.current.voters ++ P).filter _ ↔ _
  have hP : v ∈ P → v ∈ B ∧ v ∉ cfg.current.voters := fun hv =>
    mem_replicasToAdd.mp (hperm.mem_iff.mp (List.mem_append_left L hv))
  by_cases hA : v ∈ cfg.current.voters
  · simp [ConfigurationUpdate.isToRemove, calculateConfigurationUpdate, hA]
  · by_cases hvP : v ∈ P
    · simp [ConfigurationUpdate.isToRemove, calculateConfigurationUpdate, hA, hvP, (hP hvP).1]
    · simp [hA, hvP]

/-- From voters `[1, 2]` to `[2, 3]`: once `3` is promoted and the change is
    in joint consensus, cancelling twice heads to `[2, 3]` again. -/
theorem cancel_twice_turns_round_sample :
    (∃ b ∈ [2, 3], b ∉ [1, 2]) ∧
      (ChangeStep.run ((⟨⟨[1, 2], []⟩, none, none, 0⟩ : GroupConfiguration Nat).replace [2, 3] 1 none)
        [.promoteToVoter 3, .finishConfigurationTransition]).getState = .joint ∧
      ∃ o u c₁ c₂,
        (ChangeStep.run ((⟨⟨[1, 2], []⟩, none, none, 0⟩ : GroupConfiguration Nat).replace [2, 3] 1 none)
          [.promoteToVoter 3, .finishConfigurationTransition]).old = some o ∧
        (ChangeStep.run ((⟨⟨[1, 2], []⟩, none, none, 0⟩ : GroupConfiguration Nat).replace [2, 3] 1 none)
          [.promoteToVoter 3, .finishConfigurationTransition]).configurationUpdate = some u ∧
        (ChangeStep.run ((⟨⟨[1, 2], []⟩, none, none, 0⟩ : GroupConfiguration Nat).replace [2, 3] 1 none)
          [.promoteToVoter 3, .finishConfigurationTransition]).cancelConfigurationChange 2 = .ok c₁ ∧
        HeadsTo { u with replicasToAdd := u.replicasToRemove, replicasToRemove := u.replicasToAdd }
          (· ∈ [1, 2]) c₁.finishConfigurationTransition ∧
        c₁.finishConfigurationTransition.discardOldConfig.current.voters = [1, 2] ∧
        c₁.finishConfigurationTransition.cancelConfigurationChange 3 = .ok c₂ ∧
        HeadsTo u (fun v => v ∈ [2, 3] ∧ v ∈ o.voters) c₂.finishConfigurationTransition :=
  ⟨by decide, rfl, cancel_twice_turns_round _ _ [2, 3] 1 2 3 none _ rfl rfl (by decide) rfl rfl⟩

/-- Cancelling twice need not head back to the requested replicas.  From
    voters `[1, 2]` to `[1]` nothing is added, and the first cancellation
    finishes into a simple configuration; from `[1]` to `[2]`, entering joint
    consensus before `2` is promoted, the second cancellation heads to no
    voter at all. -/
theorem cancel_configuration_change_not_involution :
    (((⟨⟨[1, 2], []⟩, none, none, 0⟩ : GroupConfiguration Nat).replace [1] 1 none
      ).cancelConfigurationChange 2).toOption.map (·.finishConfigurationTransition.getState) =
        some .simple ∧
    (ChangeStep.run ((⟨⟨[1], []⟩, none, none, 0⟩ : GroupConfiguration Nat).replace [2] 1 none)
        [.finishConfigurationTransition]).getState = .joint ∧
    ((ChangeStep.run ((⟨⟨[1], []⟩, none, none, 0⟩ : GroupConfiguration Nat).replace [2] 1 none)
        [.finishConfigurationTransition]).cancelConfigurationChange 2 >>= fun c₁ =>
      c₁.finishConfigurationTransition.cancelConfigurationChange 3 >>= fun c₂ =>
        pure c₂.finishConfigurationTransition.discardOldConfig.current.voters).toOption = some [] := by
  decide

end RaftConfiguration
