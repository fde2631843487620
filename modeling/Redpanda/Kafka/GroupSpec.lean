import Mathlib
import Redpanda.Lib.KeyedList
import Redpanda.Kafka.Group
import Redpanda.Kafka.GroupInvariant

/-! # What each internal operation of the group does

    One `Std.Do` triple per internal operation of `Group`, registered with
    `@[spec]`, so that `mvcgen` composes them and never unfolds a callee.

    The triples are exact: from the group `g₀` an operation leaves the effect
    that `GroupInvariant` names (`addMember_spec`,
    `tryFinishJoiningMember_spec`, `updateMember_spec`, ...), or leaves the
    group as it was and says what it returns or throws.  Their hypotheses
    are what keeps the operation from its `vassert`: the support counts
    cover the protocols taken off (`dropProtocols_spec`), the joining count
    covers a member that is joining (`tryFinishJoiningMember_spec`), the
    transition is valid (`setState_spec`).  Under the invariant every one of
    them holds (`Inv.count_le`, `Inv.numMembersJoining_pos`), and the loop of
    `remove_member` is the loop of `update_member_no_join` once the member
    has stopped joining (`removeProtocols_false`).

    Over them stand the triples of whole operations, from any group that
    keeps the invariant: `shutdown()`, `handle_sync_group` and the last loop
    of `complete_join` keep the invariant and never reach a `vassert`; what
    they throw, if anything, is an exception the caller survives.  In
    `remove_member` the loop over the protocols reads a member that is no
    longer joining (`removeMember_loop_member_not_joining`). -/

open Std.Do

set_option mvcgen.warning false

/-! ## Runs of a triple -/

section Runs

variable {ε σ α : Type} {prog : EStateM ε σ α} {P : σ → Prop}

/-- From a state that meets its precondition, a program ends as its triple
    says: in the postcondition of the value it returns, or in that of the
    exception it throws. -/
theorem EStateM.run_of_triple {Q : α → σ → Prop} {E : ε → σ → Prop}
    (hspec : ⦃fun s => ⌜P s⌝⦄ prog ⦃post⟨fun r s => ⌜Q r s⌝, fun e s => ⌜E e s⌝⟩⦄) {s : σ}
    (hs : P s) :
    match prog.run s with
    | .ok r s' => Q r s'
    | .error e s' => E e s' := by
  have h := hspec s hs
  -- the weakest precondition over `EStateM` is the postcondition of the run
  cases hrun : prog.run s with
  | ok r s' =>
      simp only [WP.wp, PredTrans.apply, hrun] at h
      exact h
  | error e s' =>
      simp only [WP.wp, PredTrans.apply, hrun] at h
      exact h

/-- A program whose triple rules out exceptions returns normally. -/
theorem EStateM.run_ok_of_triple {Q : α → σ → Prop}
    (hspec : ⦃fun s => ⌜P s⌝⦄ prog ⦃⇓ r s => ⌜Q r s⌝⦄) {s : σ} (hs : P s) :
    ∃ r s', prog.run s = .ok r s' ∧ Q r s' := by
  have h := EStateM.run_of_triple (E := fun _ _ => False) hspec hs
  split at h
  · exact ⟨_, _, ‹_›, h⟩
  · exact h.elim

end Runs

namespace Kafka

namespace Group

variable {I G P M T : Type} [DecidableEq I] [DecidableEq G] [DecidableEq P] [DecidableEq M]

/-! ## Leaf operations -/

section Leaves

omit [DecidableEq I] [DecidableEq G] [DecidableEq P] [DecidableEq M] in
@[spec] theorem setState_spec (s : GroupState) (g₀ : Group I G P M T)
    (hv : g₀.state.validPrevious s = true) :
    ⦃fun g => ⌜g = g₀⌝⦄ setState s ⦃⇓ r g => ⌜r = g₀.state ∧ g = { g₀ with state := s }⌝⦄ := by
  mvcgen [setState]
  · -- the `vassert` of `set_state` never fires: the transition is valid
    rename_i g hg _ hinv
    subst hg
    simp [hv] at hinv
  · rename_i g hg _ _
    subst hg
    exact ⟨rfl, rfl⟩

omit [DecidableEq G] [DecidableEq P] [DecidableEq M] in
/-- `contains_member` finds exactly the ids of the members. -/
theorem containsMember_iff {g : Group I G P M T} {id : I} :
    g.containsMember id = true ↔ id ∈ g.members.map (·.id) := by
  simp [containsMember]

omit [DecidableEq M] in
@[spec] theorem addMemberNoJoin_spec (m : Member I G P M T) (g₀ : Group I G P M T)
    (hid : m.id ∉ g₀.members.map (·.id)) :
    ⦃fun g => ⌜g = g₀⌝⦄ addMemberNoJoin m
    ⦃post⟨fun _ g => ⌜g = g₀.insertMember m⌝,
      fun e g => ⌜e = .duplicateInstanceId ∧ g = g₀⌝⟩⦄ := by
  -- the updates of the protocol type and the leader keep the members, so
  -- `duplicate_member` never throws; and they read the group as it was
  cases hmi : m.instanceId with
  | none =>
    mvcgen [addMemberNoJoin, hmi]
    · rename_i _ g hg t₁ t₂ _ hc
      subst hg
      have hms : t₂.2.members = g.members := by
        simp +zetaDelta only
        split_ifs <;> rfl
      rw [containsMember_iff, hms] at hc
      exact (hid hc).elim
    · rename_i _ g hg t₁ t₂ _ _
      subst hg
      by_cases he : g.members.isEmpty <;> by_cases hl : g.leader.isNone <;>
        simp +zetaDelta [insertMember, hmi, he, hl]
  | some gi =>
    -- an instance id the static index holds throws `duplicate_instance_id`
    -- before any update; a free one is indexed first
    mvcgen [addMemberNoJoin, hmi]
    · rename_i _ g hg _ _ t₁ t₂ _ hc
      subst hg
      have hms : t₂.2.members = g.members := by
        simp +zetaDelta only
        split_ifs <;> rfl
      rw [containsMember_iff, hms] at hc
      exact (hid hc).elim
    · rename_i _ g hg _ _ t₁ t₂ _ _
      subst hg
      by_cases he : g.members.isEmpty <;> by_cases hl : g.leader.isNone <;>
        simp +zetaDelta [insertMember, hmi, he, hl]

omit [DecidableEq M] in
@[spec] theorem addMember_spec (m : Member I G P M T) (g₀ : Group I G P M T)
    (hid : m.id ∉ g₀.members.map (·.id)) :
    ⦃fun g => ⌜g = g₀⌝⦄ addMember m
    ⦃post⟨fun _ g => ⌜g = (g₀.insertMember m).joinObject m.ptr⌝,
      fun e g => ⌜e = .duplicateInstanceId ∧ g = g₀⌝⟩⦄ := by
  mvcgen [addMember]
  · -- `add_member_no_join` starts from the group as it was
    rename_i g hg
    exact hg ▸ hid
  · -- then the member's join is engaged and counted
    rename_i g hg _ g' hg' _
    subst hg hg'
    rfl
  · -- `add_member_no_join` threw, and left the group as it was
    rename_i g hg e g'
    subst hg
    rintro he rfl
    exact ⟨he, rfl⟩

omit [DecidableEq I] [DecidableEq G] [DecidableEq P] [DecidableEq M] in
@[spec] theorem tryFinishJoiningMember_spec (mp : Nat) (g₀ : Group I G P M T)
    (hj : g₀.isJoining mp = true → 0 < g₀.numMembersJoining) :
    ⦃fun g => ⌜g = g₀⌝⦄ tryFinishJoiningMember mp ⦃⇓ _ g => ⌜g = g₀.finishObject mp⌝⦄ := by
  mvcgen [tryFinishJoiningMember]
  all_goals simp_all [finishObject]
  -- a member that is joining is counted, so the count stays non-negative
  omega

omit [DecidableEq I] [DecidableEq G] [DecidableEq M] in
@[spec] theorem dropProtocols_spec (ps : List P) (g₀ : Group I G P M T)
    (hc : ∀ p, (ps.count p : Int) ≤ (g₀.supportedProtocols p).getD 0) :
    ⦃fun g => ⌜g = g₀⌝⦄ dropProtocols ps
    ⦃⇓ _ g => ⌜g = { g₀ with supportedProtocols := bumpAll g₀.supportedProtocols ps (-1) }⌝⦄ := by
  induction ps generalizing g₀ with
  | nil => mvcgen [dropProtocols]
  | cons p ps ih =>
    -- the rest of the loop starts from the count of `p` taken down by one
    have hc' : ∀ q, (ps.count q : Int) ≤ ((bump g₀.supportedProtocols p (-1)) q).getD 0 := by
      intro q
      have := hc q
      rw [List.count_cons] at this
      rw [bump_getD]
      split_ifs at this ⊢ <;> simp_all
    mvcgen [dropProtocols, ih]
    all_goals simp_all +zetaDelta
    · -- the count of `p` covers the protocol taken off first
      have := hc p
      rw [List.count_cons_self] at this
      omega
    · intro _
      rfl

omit [DecidableEq I] [DecidableEq G] [DecidableEq M] in
/-- With a member that is not joining, the loop of `remove_member` is the
    loop of `update_member_no_join`. -/
theorem removeProtocols_false (ps : List P) :
    removeProtocols (I := I) (G := G) (M := M) (T := T) false ps = dropProtocols ps := by
  induction ps with
  | nil => rfl
  | cons p ps ih => simp [removeProtocols, dropProtocols, ih]

omit [DecidableEq I] [DecidableEq G] [DecidableEq M] in
@[spec] theorem removeProtocols_spec (j : Bool) (ps : List P) (g₀ : Group I G P M T)
    (hj : j = false) (hc : ∀ p, (ps.count p : Int) ≤ (g₀.supportedProtocols p).getD 0) :
    ⦃fun g => ⌜g = g₀⌝⦄ removeProtocols j ps
    ⦃⇓ _ g => ⌜g = { g₀ with supportedProtocols := bumpAll g₀.supportedProtocols ps (-1) }⌝⦄ := by
  subst hj
  rw [removeProtocols_false]
  exact dropProtocols_spec ps g₀ hc

omit [DecidableEq I] [DecidableEq G] [DecidableEq P] [DecidableEq M] in
theorem ptr_of_object? {g : Group I G P M T} {mp : Nat} {x : Member I G P M T}
    (hx : g.object? mp = some x) : x.ptr = mp := by
  simpa using List.find?_some hx

omit [DecidableEq I] [DecidableEq G] [DecidableEq M] in
/-- `update_member_no_join` replaces the protocols and timeouts of the
    member object it is given, if the group has it. -/
@[spec] theorem updateMemberNoJoin_spec (mp : Nat) (ps : List (MemberProtocol P M)) (s r : Nat)
    (g₀ : Group I G P M T) (h : Inv g₀) :
    ⦃fun g => ⌜g = g₀⌝⦄ updateMemberNoJoin mp ps s r
    ⦃⇓ _ g => ⌜∀ x, g₀.object? mp = some x → g = g₀.updateObject x ps s r⌝⦄ := by
  mvcgen [updateMemberNoJoin]
  · rename_i g hg x hx
    subst hg
    exact h.count_le ((object?_eq_some h.ptrs_nodup).1 hx).1
  · rename_i g hg x hx _ _ _ _ _
    subst hg
    intro y hy
    obtain rfl : x = y := Option.some.inj (hx.symm.trans hy)
    have hp := ptr_of_object? hx
    subst hp
    simp_all +zetaDelta [updateObject]
  · rename_i g hg o hnone ho
    subst hg
    intro y hy
    exact (hnone y (ho.symm.trans hy)).elim

omit [DecidableEq I] [DecidableEq G] [DecidableEq M] in
/-- `update_member_no_join` keeps whether the member is joining. -/
theorem isJoining_updateObject {g : Group I G P M T} {x : Member I G P M T} {mp : Nat}
    (hx : g.object? mp = some x) (ps : List (MemberProtocol P M)) (s r : Nat) :
    (g.updateObject x ps s r).isJoining mp = x.joining := by
  have hp := ptr_of_object? hx
  subst hp
  have key₁ : ∀ y : Member I G P M T, ({ y with protocols := ps } : Member I G P M T).ptr = y.ptr :=
    fun _ => rfl
  have key₂ : ∀ y : Member I G P M T,
      ({ y with sessionTimeout := s, rebalanceTimeout := r } : Member I G P M T).ptr = y.ptr :=
    fun _ => rfl
  simp only [isJoining, object?, updateObject, modifyObject] at hx ⊢
  rw [KeyedList.find?_modify_self key₂, KeyedList.find?_modify_self key₁]
  simp [hx]

omit [DecidableEq I] [DecidableEq G] [DecidableEq M] in
/-- `update_member` joins the member again, or, for a member already
    joining, answers the join it waits on with an error. -/
@[spec] theorem updateMember_spec (mp : Nat) (ps : List (MemberProtocol P M)) (s r : Nat)
    (g₀ : Group I G P M T) (h : Inv g₀) :
    ⦃fun g => ⌜g = g₀⌝⦄ updateMember mp ps s r
    ⦃⇓ res g => ⌜∀ x, g₀.object? mp = some x →
      if x.joining then res = .failed ∧ g = g₀.updateObject x ps s r
      else res = .awaiting ∧ g = (g₀.updateObject x ps s r).joinObject mp⌝⦄ := by
  mvcgen [updateMember]
  · rename_i g hg
    exact hg ▸ h
  · -- not joining: the member joins again
    rename_i g hg _ g' hu hj _
    subst hg
    intro x hx
    obtain rfl := hu x hx
    have hnj : x.joining = false := by simpa [isJoining_updateObject hx] using hj
    rw [if_neg (by simp [hnj])]
    exact ⟨trivial, rfl⟩
  · -- joining: the join it waits on fails
    rename_i g hg _ g' hu hj
    subst hg
    intro x hx
    obtain rfl := hu x hx
    have hjx : x.joining = true := by simpa [isJoining_updateObject hx] using hj
    rw [if_pos hjx]
    exact ⟨trivial, rfl⟩

omit [DecidableEq I] [DecidableEq G] [DecidableEq P] [DecidableEq M] in
@[spec] theorem rebalanceTimeout_spec (g₀ : Group I G P M T) :
    ⦃fun g => ⌜g = g₀⌝⦄ rebalanceTimeout
    ⦃post⟨fun _ g => ⌜g = g₀⌝, fun e g => ⌜e = .noMembers ∧ g = g₀ ∧ g₀.members = []⌝⟩⦄ := by
  mvcgen [rebalanceTimeout]
  all_goals simp_all

omit [DecidableEq I] [DecidableEq G] [DecidableEq P] [DecidableEq M] in
@[spec] theorem allMembersJoined_spec (g₀ : Group I G P M T) (hn : 0 ≤ g₀.numMembersJoining) :
    ⦃fun g => ⌜g = g₀⌝⦄ allMembersJoined
    ⦃⇓ r g => ⌜r = ((g₀.members.length : Int) == g₀.numMembersJoining &&
      g₀.pendingMembers.isEmpty) ∧ g = g₀⌝⦄ := by
  mvcgen [allMembersJoined]
  all_goals simp_all
  omega

omit [DecidableEq I] [DecidableEq G] [DecidableEq M] in
@[spec] theorem selectProtocol_spec (g₀ : Group I G P M T) :
    ⦃fun g => ⌜g = g₀⌝⦄ selectProtocol
    ⦃post⟨fun _ g => ⌜g = g₀⌝, fun e g => ⌜e = .noMatchingProtocol ∧ g = g₀⌝⟩⦄ := by
  mvcgen [selectProtocol]

omit [DecidableEq I] [DecidableEq G] [DecidableEq M] in
@[spec] theorem memberMetadata_spec (g₀ : Group I G P M T) :
    ⦃fun g => ⌜g = g₀⌝⦄ memberMetadata
    ⦃post⟨fun _ g => ⌜g = g₀⌝, fun e g => ⌜e.isAssertion = false ∧ g = g₀⌝⟩⦄ := by
  mvcgen [memberMetadata]

omit [DecidableEq I] [DecidableEq G] [DecidableEq P] [DecidableEq M] in
@[spec] theorem finishSyncingMembers_spec (g₀ : Group I G P M T) :
    ⦃fun g => ⌜g = g₀⌝⦄ finishSyncingMembers
    ⦃⇓ _ g => ⌜g = { g₀ with members := g₀.members.map fun m => { m with syncing := false } }⌝⦄ := by
  mvcgen [finishSyncingMembers]
  simp_all +zetaDelta

omit [DecidableEq G] [DecidableEq P] [DecidableEq M] in
@[spec] theorem addPendingMember_spec (id : I) (g₀ : Group I G P M T) :
    ⦃fun g => ⌜g = g₀⌝⦄ addPendingMember id
    ⦃⇓ _ g => ⌜g = if g₀.containsPendingMember id then g₀
      else { g₀ with pendingMembers := g₀.pendingMembers ++ [id] }⌝⦄ := by
  mvcgen [addPendingMember]
  rename_i g hg _
  subst hg
  rfl

omit [DecidableEq G] [DecidableEq M] in
/-- `leader_rejoined()` leaves the leader, or hands the leadership to a
    member that is joining; a leader that is no member would throw, and the
    invariant rules it out. -/
@[spec] theorem leaderRejoined_spec (g₀ : Group I G P M T) (h : Inv g₀) :
    ⦃fun g => ⌜g = g₀⌝⦄ leaderRejoined
    ⦃⇓ _ g => ⌜g = g₀ ∨ ∃ m ∈ g₀.members, g = { g₀ with leader := some m.id }⌝⦄ := by
  mvcgen [leaderRejoined]
  all_goals subst_vars
  · exact .inl rfl
  · -- a leader that is no member
    rename_i l hl hnone
    obtain ⟨y, hy, rfl⟩ := List.mem_map.1 (h.leader_mem l hl)
    exact (KeyedList.find?_eq_none_iff.1 hnone y hy rfl).elim
  · exact .inl rfl
  · exact .inl rfl
  · rename_i m hm
    exact .inr ⟨m, List.mem_of_find?_eq_some hm, rfl⟩

end Leaves

/-! ## The loop of `remove_member` -/

section Removal

omit [DecidableEq G] [DecidableEq M] in
/-- Looking up by id a member whose object was updated, keeping its id and
    object, finds the updated member. -/
theorem member?_modifyObject {g : Group I G P M T} (h : Inv g) {m : Member I G P M T}
    (hm : m ∈ g.members) {f : Member I G P M T → Member I G P M T} (hid : ∀ x, (f x).id = x.id) :
    ({ g with members := modifyObject m.ptr f g.members } : Group I G P M T).member? m.id =
      some (f m) := by
  have hnd : ((modifyObject m.ptr f g.members).map (·.id)).Nodup := by
    rw [modifyObject, KeyedList.map_modify _ hid]
    exact h.ids_nodup
  rw [member?_eq_some hnd]
  exact ⟨mem_modifyObject.2 ⟨m, hm, if_pos rfl⟩, hid m⟩

omit [DecidableEq G] [DecidableEq M] in
/-- In `remove_member`, the member that the loop over its protocols reads
    is not joining: `try_finish_joining_member` has answered it first.  So
    the loop's `_num_members_joining--`, and the `vassert` after it, never
    run. -/
theorem removeMember_loop_member_not_joining (g₀ : Group I G P M T) (m : Member I G P M T)
    (h : Inv g₀) (hm : m ∈ g₀.members) :
    ⦃fun g => ⌜g = g₀⌝⦄ tryFinishJoiningMember m.ptr
    ⦃⇓ _ g => ⌜∃ x, g.member? m.id = some x ∧ x.joining = false⌝⦄ := by
  mvcgen
  · rename_i g hg _ g'
    subst hg
    rintro rfl
    unfold finishObject
    split
    · -- it was joining, and `set_join_response` has just disengaged it
      exact ⟨_, member?_modifyObject h hm fun _ => rfl, rfl⟩
    · rename_i hnj
      have hj : m.joining = false := by
        cases hmj : m.joining
        · rfl
        · exact absurd ((isJoining_iff h).2 ⟨m, hm, rfl, hmj⟩) hnj
      exact ⟨m, (member?_eq_some h.ids_nodup).2 ⟨hm, rfl⟩, hj⟩
  · rintro g rfl hj
    exact h.numMembersJoining_pos hj

/-- A group made by the group manager, whose one member `0` has joined it
    and is waiting for its join response. -/
def oneJoining : Group Nat Nat Nat Nat Nat :=
  let m : Member Nat Nat Nat Nat Nat := ⟨0, 1, none, 0, [], 0, 0, true, false, false⟩
  let g₀ : Group Nat Nat Nat Nat Nat := { Group.new 0 with allocated := 1 }
  { (g₀.insertMember m).joinObject m.ptr with pendingMembers := g₀.pendingMembers.erase m.id }

theorem Inv.oneJoining : Inv oneJoining :=
  (Inv.allocate (Inv.new 0)).addJoining (by simp [Group.new]) (by simp) (by simp [Group.new])
    (by simp) (by simp [Group.new])

/-- A group made by the group manager, with one member that is joining. -/
theorem removeMember_loop_member_not_joining_single :
    let m : Member Nat Nat Nat Nat Nat := ⟨0, 1, none, 0, [], 0, 0, true, false, false⟩
    let g₀ : Group Nat Nat Nat Nat Nat := { Group.new 0 with allocated := 1 }
    let g : Group Nat Nat Nat Nat Nat :=
      { (g₀.insertMember m).joinObject m.ptr with pendingMembers := g₀.pendingMembers.erase m.id }
    let joined : Member Nat Nat Nat Nat Nat := { m with joining := true }
    Inv g ∧ joined ∈ g.members ∧
      ⦃fun g' => ⌜g' = g⌝⦄ tryFinishJoiningMember joined.ptr
      ⦃⇓ _ g' => ⌜∃ x, g'.member? joined.id = some x ∧ x.joining = false⌝⦄ := by
  intro m g₀ g joined
  have h : Inv g := Inv.oneJoining
  have hm : joined ∈ g.members := by
    simp [g, g₀, m, joined, Group.new, insertMember, joinObject, modifyObject, KeyedList.modify]
  exact ⟨h, hm, removeMember_loop_member_not_joining g joined h hm⟩
end Removal

/-! ## Shutdown -/

section Shutdown

omit [DecidableEq I] [DecidableEq G] [DecidableEq M] in
/-- The loop of `shutdown()`: a syncing member gets its sync response, a
    joining one its join response, and the invariant holds throughout. -/
@[spec] theorem shutdownMembers_spec (ms : List (Member I G P M T)) :
    ⦃fun g => ⌜Inv g⌝⦄ shutdownMembers ms ⦃⇓ _ g => ⌜Inv g⌝⦄ := by
  induction ms with
  | nil => mvcgen [shutdownMembers]
  | cons m ms ih =>
    mvcgen [shutdownMembers, ih]
    · -- a syncing member: its sync response is set
      rename_i _ g h _
      exact h.of_modifyObject (fun _ => rfl) (fun _ => rfl) (fun _ => rfl)
    · rename_i g h
      exact h.numMembersJoining_pos
    · -- a joining member: `try_finish_joining_member`
      rename_i g h _ g' hg'
      subst hg'
      exact h.finishObject m.ptr

omit [DecidableEq I] [DecidableEq G] [DecidableEq M] in
/-- `shutdown()` keeps the group's bookkeeping invariant, and never reaches
    the `vassert` of `try_finish_joining_member`: it cannot throw. -/
theorem shutdown_keeps_invariant :
    ⦃fun g => ⌜Inv g⌝⦄ shutdown (I := I) (G := G) (P := P) (M := M) (T := T)
    ⦃⇓ _ g => ⌜Inv g⌝⦄ := by
  mvcgen [shutdown]
  -- the join timer is cancelled before the loop
  rename_i g h _
  exact h.setTimer none (by simp)

/-- `shutdown()` of that group returns, and leaves a group that keeps the
    invariant. -/
theorem shutdown_keeps_invariant_one_joining :
    Inv oneJoining ∧ ∃ r g, shutdown.run oneJoining = .ok r g ∧ Inv g :=
  ⟨Inv.oneJoining, EStateM.run_ok_of_triple shutdown_keeps_invariant Inv.oneJoining⟩

end Shutdown

/-! ## Sync -/

section Sync

omit [DecidableEq G] [DecidableEq M] in
/-- A member id that `validate_existing_member` accepts is a member's: by
    the map itself, or through the static index. -/
theorem Inv.member?_of_validate {g : Group I G P M T} (h : Inv g) {id : I} {inst : Option G}
    (hv : g.validateExistingMember id inst = .none) : ∃ m, g.member? id = some m := by
  unfold validateExistingMember at hv
  rcases inst with _ | gi
  · simp only at hv
    split_ifs at hv with hc
    obtain ⟨m, hm, hid⟩ := List.any_eq_true.1 hc
    exact ⟨m, (member?_eq_some h.ids_nodup).2 ⟨hm, by simpa using hid⟩⟩
  · simp only at hv
    split at hv
    · cases hv
    · rename_i sid hsid
      split_ifs at hv with hs
      subst hs
      obtain ⟨m, hm, hmid, -⟩ := h.static_sound gi sid hsid
      exact ⟨m, (member?_eq_some h.ids_nodup).2 ⟨hm, hmid⟩⟩

omit [DecidableEq G] [DecidableEq M] in
/-- `handle_sync_group` never throws: the member it looks up has passed
    `validate_existing_member`, so `get_member` finds it.  It keeps the
    invariant: it only marks the member syncing and records the leader's
    store. -/
theorem handleSyncGroup_keeps_invariant [DecidableEq T] [Inhabited I] [Inhabited T] (id : I)
    (inst : Option G) (generation : Int) :
    ⦃fun g => ⌜Inv g⌝⦄ handleSyncGroup (P := P) (M := M) (T := T) id inst generation
    ⦃⇓ _ g => ⌜Inv g⌝⦄ := by
  mvcgen [handleSyncGroup]
  · -- the leader: it waits for its assignment and the group is stored
    rename_i g h _ _ _ _ _ m _ t₁ _ _ t₂
    have h₁ : Inv t₁.2 := h.of_modifyObject (fun _ => rfl) (fun _ => rfl) (fun _ => rfl)
    exact h₁.of_eq rfl le_rfl rfl rfl rfl rfl rfl rfl h₁.timer
  · -- another member: it waits for its assignment
    have h := ‹Inv _›
    exact h.of_modifyObject (fun _ => rfl) (fun _ => rfl) (fun _ => rfl)
  · -- `get_member` in `completing_rebalance` finds the member
    rename_i g h _ ec hv _ _ o hnone ho
    have hv' : g.validateExistingMember id inst = .none := by simpa [ec] using hv
    obtain ⟨m, hm⟩ := h.member?_of_validate hv'
    exact (hnone m (ho.symm.trans hm)).elim
  · -- and in `stable`
    rename_i g h _ ec hv _ _ _ hn
    have hv' : g.validateExistingMember id inst = .none := by simpa [ec] using hv
    obtain ⟨m, hm⟩ := h.member?_of_validate hv'
    simp [hm] at hn

/-- `handle_sync_group` of member `0` in generation `0` of the group with one
    joining member returns, and leaves a group that keeps the invariant. -/
theorem handleSyncGroup_keeps_invariant_one_joining :
    Inv oneJoining ∧
      ∃ r g, (handleSyncGroup 0 none 0).run oneJoining = .ok r g ∧ Inv g :=
  ⟨Inv.oneJoining, EStateM.run_ok_of_triple (handleSyncGroup_keeps_invariant 0 none 0) Inv.oneJoining⟩

end Sync

/-! ## The last loop of `complete_join` -/

omit [DecidableEq G] [DecidableEq M] in
/-- The last loop of `complete_join` never reaches the `vassert` of
    `try_finish_joining_member`: each member's join is answered, the leader's
    with the member metadata, whose exceptions are not `vassert`s, and the
    invariant holds after every member, returned or thrown. -/
theorem finishJoiningMembers_keeps_invariant (ms : List (Member I G P M T)) :
    ⦃fun g => ⌜Inv g⌝⦄ finishJoiningMembers ms
    ⦃post⟨fun _ g => ⌜Inv g⌝, fun e g => ⌜e.isAssertion = false ∧ Inv g⌝⟩⦄ := by
  induction ms with
  | nil => mvcgen [finishJoiningMembers]
  | cons m ms ih =>
    mvcgen [finishJoiningMembers, ih]
    · rename_i g h _ _ _ g' hg
      subst hg
      exact h.numMembersJoining_pos
    · -- the leader: its join is answered, then it is no longer new
      rename_i g h _ _ _ g₁ hg₁ _ g₂ hg₂ _
      subst hg₂ hg₁
      exact (h.finishObject m.ptr).of_modifyObject (fun _ => rfl) (fun _ => rfl) (fun _ => rfl)
    · -- `member_metadata` threw
      rename_i g h _ _ _ _
      rintro he rfl
      exact ⟨he, h⟩
    · rename_i g h _ _
      exact h.numMembersJoining_pos
    · -- another member
      rename_i g h _ _ _ g' hg _
      subst hg
      exact (h.finishObject m.ptr).of_modifyObject (fun _ => rfl) (fun _ => rfl) (fun _ => rfl)

/-- The last loop of `complete_join` over the members of the group with one
    joining member ends in a group that keeps the invariant, and in no
    `vassert` if it throws. -/
theorem finishJoiningMembers_keeps_invariant_one_joining :
    Inv oneJoining ∧
      match (finishJoiningMembers oneJoining.members).run oneJoining with
      | .ok _ g => Inv g
      | .error e g => e.isAssertion = false ∧ Inv g :=
  ⟨Inv.oneJoining,
    EStateM.run_of_triple (finishJoiningMembers_keeps_invariant oneJoining.members) Inv.oneJoining⟩

end Group

end Kafka
