import Mathlib
import Redpanda.Lib.KeyedList
import Redpanda.Kafka.Group

/-! # The group's bookkeeping invariant

    `Group.Inv` is what the membership handling keeps between handlers:
    * the members' ids and objects are distinct, and every object was made
      by the group;
    * `_supported_protocols[p]` is the number of times the members list `p`
      (a member that lists it twice counts twice);
    * `_num_members_joining` is the number of members joining;
    * the leader is engaged exactly when there are members, and names one;
    * `_static_members` maps each instance id to the one member that carries
      it, and nothing else;
    * pending member ids are distinct and no member's;
    * a background store of a static member's new id still to complete has
      captured an old id that is nobody's, and the member that has its new
      id, if any, carries its instance id;
    * the join timer is armed only in `preparing_rebalance`.

    This module states it, gives the effect of each internal operation that
    changes the bookkeeping as a function of the group (`insertMember`,
    `joinObject`, `finishObject`, `updateObject`, `dropMember`,
    `renameMember`), and proves what each keeps.  `GroupSpec` shows that
    the operations of `Group` have these effects. -/

namespace Kafka

variable {I G P M T : Type} [DecidableEq P]

/-- The number of times the members list protocol `p`. -/
def protocolCount (ms : List (Member I G P M T)) (p : P) : Nat :=
  (ms.map fun m => m.protocolNames.count p).sum

/-! ## Support counts -/

section Counts

@[simp] theorem bump_getD (f : P → Option Int) (p q : P) (d : Int) :
    ((bump f p d) q).getD 0 = (f q).getD 0 + if q = p then d else 0 := by
  unfold bump
  by_cases h : q = p
  · subst h; simp
  · simp [h]

@[simp] theorem bumpAll_getD (ps : List P) (f : P → Option Int) (q : P) (d : Int) :
    ((bumpAll f ps d) q).getD 0 = (f q).getD 0 + d * ps.count q := by
  induction ps generalizing f with
  | nil => simp [bumpAll]
  | cons p ps ih =>
    simp only [bumpAll, List.foldl_cons] at ih ⊢
    rw [ih, bump_getD, List.count_cons]
    by_cases h : q = p
    · subst h; simp; ring
    · simp [h, Ne.symm h]

theorem bumpAll_cons (f : P → Option Int) (p : P) (ps : List P) (d : Int) :
    bumpAll f (p :: ps) d = bumpAll (bump f p d) ps d := rfl

@[simp] theorem protocolCount_nil (p : P) : protocolCount ([] : List (Member I G P M T)) p = 0 := rfl

@[simp] theorem protocolCount_append (ms ms' : List (Member I G P M T)) (p : P) :
    protocolCount (ms ++ ms') p = protocolCount ms p + protocolCount ms' p := by
  simp [protocolCount]

@[simp] theorem protocolCount_cons (m : Member I G P M T) (ms : List (Member I G P M T)) (p : P) :
    protocolCount (m :: ms) p = m.protocolNames.count p + protocolCount ms p := by
  simp [protocolCount]

theorem protocolCount_sublist {ms ms' : List (Member I G P M T)} (h : List.Sublist ms ms') (p : P) :
    protocolCount ms p ≤ protocolCount ms' p := by
  induction h with
  | slnil => rfl
  | cons m _ ih => simp only [protocolCount_cons]; omega
  | cons_cons m _ ih => simp only [protocolCount_cons]; omega

theorem count_le_protocolCount {ms : List (Member I G P M T)} {m : Member I G P M T} (hm : m ∈ ms)
    (p : P) : m.protocolNames.count p ≤ protocolCount ms p := by
  have := protocolCount_sublist (List.singleton_sublist.2 hm) p
  simpa using this

end Counts

/-! ## The invariant -/

/-- What the bookkeeping reads of a member besides its protocols and
    whether it is joining: its object, id and instance id. -/
def Member.key (m : Member I G P M T) : Nat × I × Option G := (m.ptr, m.id, m.instanceId)

namespace Group

/-- An id that `generate_member_id` can hand out: a fresh uuid is no
    member's, pending member's, or background store's. -/
def Fresh (g : Group I G P M T) (id : I) : Prop :=
  id ∉ g.members.map (·.id) ∧ id ∉ g.pendingMembers ∧
    ∀ s ∈ g.staticStores, id ≠ s.oldMemberId ∧ id ≠ s.newMemberId

/-- The bookkeeping invariant of a group. -/
structure Inv (g : Group I G P M T) : Prop where
  ids_nodup : (g.members.map (·.id)).Nodup
  ptrs_nodup : (g.members.map (·.ptr)).Nodup
  ptr_lt : ∀ m ∈ g.members, m.ptr < g.allocated
  supported : ∀ p, (g.supportedProtocols p).getD 0 = protocolCount g.members p
  joining : g.numMembersJoining = g.members.countP (·.joining)
  leader_none : g.leader = none ↔ g.members = []
  leader_mem : ∀ l, g.leader = some l → l ∈ g.members.map (·.id)
  static_sound : ∀ gi i, g.staticMembers gi = some i →
    ∃ m ∈ g.members, m.id = i ∧ m.instanceId = some gi
  static_complete : ∀ m ∈ g.members, ∀ gi, m.instanceId = some gi → g.staticMembers gi = some m.id
  pending_nodup : g.pendingMembers.Nodup
  pending_fresh : ∀ i ∈ g.pendingMembers, i ∉ g.members.map (·.id)
  stores_nodup : (g.staticStores.map (·.oldMemberId)).Nodup
  stores_fresh : ∀ s ∈ g.staticStores,
    s.oldMemberId ∉ g.members.map (·.id) ∧ s.oldMemberId ∉ g.pendingMembers
  stores_new_pending : ∀ s ∈ g.staticStores, s.newMemberId ∉ g.pendingMembers
  stores_inst : ∀ s ∈ g.staticStores, ∀ m ∈ g.members, m.id = s.newMemberId →
    m.instanceId = some s.instanceId
  stores_chain : ∀ s ∈ g.staticStores, ∀ s' ∈ g.staticStores, s'.oldMemberId = s.newMemberId →
    s'.instanceId = s.instanceId
  timer : g.joinTimer.isSome → g.state = .preparingRebalance

section Frame

variable {g g' : Group I G P M T}

omit [DecidableEq P] in
theorem map_id_of_key (hk : g'.members.map Member.key = g.members.map Member.key) :
    g'.members.map (·.id) = g.members.map (·.id) := by
  have := congrArg (List.map fun v => v.2.1) hk
  simpa [List.map_map, Function.comp_def, Member.key] using this

omit [DecidableEq P] in
theorem map_ptr_of_key (hk : g'.members.map Member.key = g.members.map Member.key) :
    g'.members.map (·.ptr) = g.members.map (·.ptr) := by
  have := congrArg (List.map fun v => v.1) hk
  simpa [List.map_map, Function.comp_def, Member.key] using this

omit [DecidableEq P] in
theorem exists_of_key (hk : g'.members.map Member.key = g.members.map Member.key)
    {m' : Member I G P M T} (hm : m' ∈ g'.members) : ∃ m ∈ g.members, m.key = m'.key := by
  have : m'.key ∈ g.members.map Member.key := hk ▸ List.mem_map_of_mem hm
  simpa using this

/-- `Inv` reads of the members their keys, protocols and joining flags, and
    of the group the fields it names; more objects made keep it.  The two
    counts are for the caller to give. -/
theorem Inv.frame (h : Inv g) (hk : g'.members.map Member.key = g.members.map Member.key)
    (ha : g.allocated ≤ g'.allocated)
    (hs : ∀ p, (g'.supportedProtocols p).getD 0 = protocolCount g'.members p)
    (hj : g'.numMembersJoining = g'.members.countP (·.joining)) (hl : g'.leader = g.leader)
    (hst : g'.staticMembers = g.staticMembers) (hp : g'.pendingMembers = g.pendingMembers)
    (hss : g'.staticStores = g.staticStores)
    (ht : g'.joinTimer.isSome → g'.state = .preparingRebalance) : Inv g' := by
  have hid := map_id_of_key hk
  -- a member of `g'` is a member of `g` with the same key, and back
  have back : ∀ m' ∈ g'.members, ∃ m ∈ g.members, m.id = m'.id ∧ m.ptr = m'.ptr ∧
      m.instanceId = m'.instanceId := by
    intro m' hm
    obtain ⟨m, hm, he⟩ := exists_of_key hk hm
    simp only [Member.key, Prod.mk.injEq] at he
    exact ⟨m, hm, he.2.1, he.1, he.2.2⟩
  have fwd : ∀ m ∈ g.members, ∃ m' ∈ g'.members, m'.id = m.id ∧ m'.instanceId = m.instanceId := by
    intro m hm
    obtain ⟨m', hm', he⟩ := exists_of_key hk.symm hm
    simp only [Member.key, Prod.mk.injEq] at he
    exact ⟨m', hm', he.2.1, he.2.2⟩
  refine ⟨hid ▸ h.ids_nodup, map_ptr_of_key hk ▸ h.ptrs_nodup, ?_, hs, hj, ?_, ?_, ?_, ?_,
    hp ▸ h.pending_nodup, ?_, hss ▸ h.stores_nodup, ?_, ?_, ?_, hss ▸ h.stores_chain, ht⟩
  · intro m' hm
    obtain ⟨m, hm, -, hptr, -⟩ := back m' hm
    exact hptr ▸ lt_of_lt_of_le (h.ptr_lt m hm) ha
  · rw [hl, h.leader_none]
    have hlen : g'.members.length = g.members.length := by simpa using congrArg List.length hid
    constructor
    · intro e
      exact List.eq_nil_of_length_eq_zero (by rw [hlen, e]; rfl)
    · intro e
      exact List.eq_nil_of_length_eq_zero (by rw [← hlen, e]; rfl)
  · intro l hl'
    rw [hid]
    exact h.leader_mem l (hl ▸ hl')
  · intro gi i hgi
    obtain ⟨m, hm, rfl, hinst⟩ := h.static_sound gi i (hst ▸ hgi)
    obtain ⟨m', hm', hid', hinst'⟩ := fwd m hm
    exact ⟨m', hm', hid', hinst'.trans hinst⟩
  · intro m' hm' gi hgi
    obtain ⟨m, hm, hid', -, hinst⟩ := back m' hm'
    rw [hst, ← hid']
    exact h.static_complete m hm gi (hinst.trans hgi)
  · intro i hi
    rw [hid]
    exact h.pending_fresh i (hp ▸ hi)
  · intro s hs'
    rw [hid, hp]
    exact h.stores_fresh s (hss ▸ hs')
  · intro s hs'
    rw [hp]
    exact h.stores_new_pending s (hss ▸ hs')
  · intro s hs' m' hm' hid'
    obtain ⟨m, hm, hid'', -, hinst⟩ := back m' hm'
    rw [← hinst]
    exact h.stores_inst s (hss ▸ hs') m hm (hid''.trans hid')

/-- A group that differs only in what `Inv` does not read keeps it. -/
theorem Inv.of_eq (h : Inv g) (hm : g'.members = g.members) (ha : g.allocated ≤ g'.allocated)
    (hs : g'.supportedProtocols = g.supportedProtocols)
    (hj : g'.numMembersJoining = g.numMembersJoining) (hl : g'.leader = g.leader)
    (hst : g'.staticMembers = g.staticMembers) (hp : g'.pendingMembers = g.pendingMembers)
    (hss : g'.staticStores = g.staticStores)
    (ht : g'.joinTimer.isSome → g'.state = .preparingRebalance) : Inv g' :=
  h.frame (by rw [hm]) ha (by rw [hs, hm]; exact h.supported) (by rw [hj, hm]; exact h.joining)
    hl hst hp hss ht

end Frame

/-! ## Member updates -/

section Objects

variable {o : Nat} {f : Member I G P M T → Member I G P M T} {l : List (Member I G P M T)}

omit [DecidableEq P] in
theorem mem_modifyObject {m' : Member I G P M T} :
    m' ∈ modifyObject o f l ↔ ∃ m ∈ l, (if m.ptr = o then f m else m) = m' :=
  KeyedList.mem_modify

omit [DecidableEq P] in
theorem map_key_modifyObject (hf : ∀ x, (f x).key = x.key) :
    (modifyObject o f l).map Member.key = l.map Member.key :=
  KeyedList.map_modify _ hf l

theorem protocolCount_modifyObject (hnd : (l.map (·.ptr)).Nodup) {x : Member I G P M T}
    (hx : x ∈ l) (hp : x.ptr = o) (p : P) :
    protocolCount (modifyObject o f l) p + x.protocolNames.count p =
      protocolCount l p + (f x).protocolNames.count p :=
  KeyedList.sum_map_modify _ hnd hx hp

theorem protocolCount_modifyObject_of_protocols (hf : ∀ x, (f x).protocols = x.protocols) (p : P) :
    protocolCount (modifyObject o f l) p = protocolCount l p := by
  unfold protocolCount
  rw [modifyObject, KeyedList.map_modify]
  intro x
  simp [Member.protocolNames, hf]

omit [DecidableEq P] in
theorem countP_modifyObject (hnd : (l.map (·.ptr)).Nodup) {x : Member I G P M T}
    (hx : x ∈ l) (hp : x.ptr = o) :
    (modifyObject o f l).countP (·.joining) + (if x.joining then 1 else 0) =
      l.countP (·.joining) + (if (f x).joining then 1 else 0) :=
  KeyedList.countP_modify _ hnd hx hp

omit [DecidableEq P] in
theorem countP_modifyObject_of_joining (hf : ∀ x, (f x).joining = x.joining) :
    (modifyObject o f l).countP (·.joining) = l.countP (·.joining) := by
  rw [KeyedList.countP_eq_sum_map, KeyedList.countP_eq_sum_map, modifyObject, KeyedList.map_modify]
  intro x
  simp [hf]

omit [DecidableEq P] in
theorem object?_eq_some {g : Group I G P M T} (hnd : (g.members.map (·.ptr)).Nodup)
    {x : Member I G P M T} : g.object? o = some x ↔ x ∈ g.members ∧ x.ptr = o :=
  KeyedList.find?_eq_some_iff hnd

omit [DecidableEq P] in
theorem member?_eq_some [DecidableEq I] {g : Group I G P M T} (hnd : (g.members.map (·.id)).Nodup)
    {x : Member I G P M T} {id : I} : g.member? id = some x ↔ x ∈ g.members ∧ x.id = id :=
  KeyedList.find?_eq_some_iff hnd

end Objects

/-- A member update that keeps the key, the protocols and the joining flag
    keeps the invariant. -/
theorem Inv.of_modifyObject {g : Group I G P M T} (h : Inv g) {mp : Nat}
    {f : Member I G P M T → Member I G P M T} (hk : ∀ x, (f x).key = x.key)
    (hp : ∀ x, (f x).protocols = x.protocols) (hj : ∀ x, (f x).joining = x.joining) :
    Inv { g with members := modifyObject mp f g.members } :=
  h.frame (map_key_modifyObject hk) le_rfl
    (fun p => by rw [protocolCount_modifyObject_of_protocols hp]; exact h.supported p)
    (by rw [countP_modifyObject_of_joining hj]; exact h.joining) rfl rfl rfl rfl h.timer

/-! ## Effects -/

section Effects

variable [DecidableEq I] [DecidableEq G]

/-- `_num_members_joining++` and the join promise of object `mp` engaged. -/
def joinObject (g : Group I G P M T) (mp : Nat) : Group I G P M T :=
  { g with
    numMembersJoining := g.numMembersJoining + 1
    members := modifyObject mp (fun x => { x with joining := true }) g.members }

/-- What `try_finish_joining_member` does. -/
def finishObject (g : Group I G P M T) (mp : Nat) : Group I G P M T :=
  if g.isJoining mp then
    { g with
      members := modifyObject mp (fun x => { x with joining := false }) g.members
      numMembersJoining := g.numMembersJoining - 1 }
  else g

/-- What `add_member_no_join(m)` does when it does not throw. -/
def insertMember (g : Group I G P M T) (m : Member I G P M T) : Group I G P M T :=
  { g with
    staticMembers := match m.instanceId with
      | some gi => Function.update g.staticMembers gi (some m.id)
      | none => g.staticMembers
    protocolType := if g.members.isEmpty then some m.protocolType else g.protocolType
    leader := if g.leader.isNone then some m.id else g.leader
    members := g.members ++ [m]
    supportedProtocols := bumpAll g.supportedProtocols m.protocolNames 1 }

/-- What `update_member_no_join(mp, ps, s, r)` does to the member object
    `x` it holds. -/
def updateObject (g : Group I G P M T) (x : Member I G P M T) (ps : List (MemberProtocol P M))
    (s r : Nat) : Group I G P M T :=
  { g with
    members := modifyObject x.ptr (fun y => { y with sessionTimeout := s, rebalanceTimeout := r })
      (modifyObject x.ptr (fun y => { y with protocols := ps }) g.members)
    supportedProtocols :=
      bumpAll (bumpAll g.supportedProtocols x.protocolNames (-1)) (ps.map (·.name)) 1 }

/-- What `remove_member` does to the map for the member `x` it finds, and
    then to the leader. -/
def dropMember (g : Group I G P M T) (x : Member I G P M T) : Group I G P M T :=
  let g' : Group I G P M T :=
    { g with
      supportedProtocols := bumpAll g.supportedProtocols x.protocolNames (-1)
      staticMembers := match x.instanceId with
        | some gi => Function.update g.staticMembers gi none
        | none => g.staticMembers
      members := eraseMember x.id g.members }
  if g'.isLeader x.id then { g' with leader := g'.members.head?.map (·.id) } else g'

/-- What `replace_static_member(gi, m.id, newId)` does to a group that holds
    the member `m`. -/
def renameMember (g : Group I G P M T) (m : Member I G P M T) (gi : G) (newId : I) :
    Group I G P M T :=
  let g₁ : Group I G P M T :=
    { g with members := emplaceMember { m with id := newId } (eraseMember m.id g.members) }
  let g₂ := g₁.finishObject m.ptr
  let g₃ : Group I G P M T :=
    if (g₂.object? m.ptr).any (·.syncing) then
      { g₂ with members := modifyObject m.ptr (fun x => { x with syncing := false }) g₂.members }
    else g₂
  let g₄ : Group I G P M T := if g₃.isLeader m.id then { g₃ with leader := some newId } else g₃
  { g₄ with staticMembers := Function.update g₄.staticMembers gi (some newId) }

end Effects

/-! ## What the effects keep -/

section Keeps

variable {g : Group I G P M T}

theorem isJoining_iff (h : Inv g) {mp : Nat} :
    g.isJoining mp = true ↔ ∃ x ∈ g.members, x.ptr = mp ∧ x.joining = true := by
  unfold isJoining
  cases ho : g.object? mp with
  | none =>
    have hall := KeyedList.find?_eq_none_iff.mp ho
    simp only [Option.any_none, Bool.false_eq_true, false_iff, not_exists, not_and]
    exact fun x hx hptr => absurd hptr (hall x hx)
  | some y =>
    obtain ⟨hy, hyp⟩ := (object?_eq_some h.ptrs_nodup).mp ho
    simp only [Option.any_some]
    constructor
    · exact fun hj => ⟨y, hy, hyp, hj⟩
    · rintro ⟨x, hx, hxp, hxj⟩
      have : x = y := by
        have := (object?_eq_some h.ptrs_nodup).mpr ⟨hx, hxp⟩
        rw [ho] at this
        exact (Option.some.inj this).symm
      exact this ▸ hxj

/-- `try_finish_joining_member` keeps the invariant: the member it answers
    stops joining and the count drops with it. -/
theorem Inv.finishObject (h : Inv g) (mp : Nat) : Inv (g.finishObject mp) := by
  unfold Group.finishObject
  split
  · rename_i hjoin
    obtain ⟨x, hx, hptr, hxj⟩ := (isJoining_iff h).mp hjoin
    have hc := countP_modifyObject (f := fun y => { y with joining := false }) h.ptrs_nodup hx hptr
    refine h.frame (map_key_modifyObject fun _ => rfl) le_rfl
      (fun p => (protocolCount_modifyObject_of_protocols (o := mp)
        (f := fun y => { y with joining := false }) (fun _ => rfl) p).symm ▸ h.supported p)
      ?_ rfl rfl rfl rfl h.timer
    simp only [hxj, if_true, Bool.false_eq_true, if_false] at hc
    show g.numMembersJoining - 1 =
      (Kafka.modifyObject mp (fun y => { y with joining := false }) g.members).countP (·.joining)
    rw [h.joining]
    omega
  · exact h

/-- Engaging the join promise of a member that is not joining, with the
    count, keeps the invariant. -/
theorem Inv.joinObject (h : Inv g) {x : Member I G P M T} (hx : x ∈ g.members)
    (hnj : x.joining = false) : Inv (g.joinObject x.ptr) := by
  have hc := countP_modifyObject (f := fun y => { y with joining := true }) h.ptrs_nodup hx rfl
  refine h.frame (map_key_modifyObject fun _ => rfl) le_rfl
    (fun p => (protocolCount_modifyObject_of_protocols (o := x.ptr)
      (f := fun y => { y with joining := true }) (fun _ => rfl) p).symm ▸ h.supported p)
    ?_ rfl rfl rfl rfl h.timer
  simp only [hnj, Bool.false_eq_true, if_false, if_true] at hc
  show g.numMembersJoining + 1 =
    (Kafka.modifyObject x.ptr (fun y => { y with joining := true }) g.members).countP (·.joining)
  rw [h.joining]
  omega

/-- `update_member_no_join` keeps the invariant: the counts lose the
    member's old protocols and gain its new ones. -/
theorem Inv.updateObject (h : Inv g) {x : Member I G P M T} (hx : x ∈ g.members)
    (ps : List (MemberProtocol P M)) (s r : Nat) : Inv (g.updateObject x ps s r) := by
  have hk₁ := map_key_modifyObject (o := x.ptr) (l := g.members)
    (f := fun y => { y with protocols := ps }) fun _ => rfl
  refine h.frame ?_ le_rfl ?_ ?_ rfl rfl rfl rfl h.timer
  · exact (map_key_modifyObject (f := fun y => { y with sessionTimeout := s, rebalanceTimeout := r })
      fun _ => rfl).trans hk₁
  · intro p
    have hc := protocolCount_modifyObject (f := fun y => { y with protocols := ps }) h.ptrs_nodup
      hx rfl p
    have hc' := protocolCount_modifyObject_of_protocols (o := x.ptr)
      (l := Kafka.modifyObject x.ptr (fun y => { y with protocols := ps }) g.members)
      (f := fun y => { y with sessionTimeout := s, rebalanceTimeout := r }) (fun _ => rfl) p
    show (bumpAll (bumpAll g.supportedProtocols x.protocolNames (-1)) (ps.map (·.name)) 1 p).getD 0 =
      (protocolCount (Kafka.modifyObject x.ptr _ (Kafka.modifyObject x.ptr _ g.members)) p : Int)
    rw [bumpAll_getD, bumpAll_getD, h.supported, hc']
    simp only [Member.protocolNames] at hc ⊢
    omega
  · show g.numMembersJoining =
      (Kafka.modifyObject x.ptr (fun y => { y with sessionTimeout := s, rebalanceTimeout := r })
        (Kafka.modifyObject x.ptr (fun y => { y with protocols := ps }) g.members)).countP (·.joining)
    rw [countP_modifyObject_of_joining
        (f := fun y => { y with sessionTimeout := s, rebalanceTimeout := r }) fun _ => rfl,
      countP_modifyObject_of_joining (f := fun y => { y with protocols := ps }) fun _ => rfl]
    exact h.joining

end Keeps

section Lists

variable {o : Nat} {f : Member I G P M T → Member I G P M T} {l : List (Member I G P M T)}
  {x : Member I G P M T}

omit [DecidableEq P] in
theorem modifyObject_append_single (hl : ∀ y ∈ l, y.ptr ≠ o) (hx : x.ptr = o) :
    modifyObject o f (l ++ [x]) = l ++ [f x] := by
  simp only [modifyObject, KeyedList.modify, List.map_append, List.map_cons, List.map_nil, hx,
    if_true]
  congr 1
  exact KeyedList.modify_of_forall_ne f hl

omit [DecidableEq P] in
theorem emplaceMember_of_not_mem [DecidableEq I] (hx : x.id ∉ l.map (·.id)) :
    emplaceMember x l = l ++ [x] := by
  unfold emplaceMember
  rw [if_neg]
  simpa using fun y hy e => hx (List.mem_map.2 ⟨y, hy, e⟩)

omit [DecidableEq P] in
theorem object?_append_single (hl : ∀ y ∈ l, y.ptr ≠ o) (hx : x.ptr = o) (g : Group I G P M T)
    (hg : g.members = l ++ [x]) : g.object? o = some x := by
  simp only [object?, KeyedList.find?, hg, List.find?_append]
  rw [List.find?_eq_none.2 fun y hy => by simpa using hl y hy]
  simp [hx]

omit [DecidableEq P] in
theorem id_eq_of_mem_of_nodup {y z : Member I G P M T} (hnd : (l.map (·.id)).Nodup) (hy : y ∈ l)
    (hz : z ∈ l) (h : y.id = z.id) : y = z :=
  List.inj_on_of_nodup_map hnd hy hz h

end Lists

section Insert

variable [DecidableEq I] [DecidableEq G] {g : Group I G P M T} {m : Member I G P M T}

/-- Adding a new joining member under a fresh object and id, whose
    instance id is free, and taking its id off the pending members, keeps
    the invariant: the step `add_member_and_rebalance` takes before
    `try_prepare_rebalance`. -/
theorem Inv.addJoining (h : Inv g) (hptr : ∀ x ∈ g.members, x.ptr ≠ m.ptr)
    (hlt : m.ptr < g.allocated) (hid : m.id ∉ g.members.map (·.id))
    (hinst : ∀ gi, m.instanceId = some gi → g.staticMembers gi = none)
    (hstores : ∀ s ∈ g.staticStores, m.id ≠ s.oldMemberId ∧ m.id ≠ s.newMemberId) :
    Inv { (g.insertMember m).joinObject m.ptr with
      pendingMembers := g.pendingMembers.erase m.id } := by
  have hms : modifyObject m.ptr (fun y => { y with joining := true }) (g.members ++ [m]) =
      g.members ++ [{ m with joining := true }] :=
    modifyObject_append_single hptr rfl
  -- the new member list, and what a member of it is
  have hmem : ∀ y, y ∈ g.members ++ [{ m with joining := true }] ↔
      y ∈ g.members ∨ y = { m with joining := true } := by simp
  have hnotmem : m ∉ g.members := fun hm => hid (List.mem_map_of_mem hm)
  constructor
  all_goals simp only [Group.joinObject, Group.insertMember, hms]
  · rw [List.map_append]
    exact KeyedList.nodup_append_single h.ids_nodup hid
  · rw [List.map_append]
    exact KeyedList.nodup_append_single h.ptrs_nodup fun hm => by
      obtain ⟨y, hy, e⟩ := List.mem_map.1 hm
      exact hptr y hy e
  · intro y hy
    rcases (hmem y).mp hy with hy | rfl
    · exact h.ptr_lt y hy
    · exact hlt
  · intro p
    rw [bumpAll_getD, h.supported, protocolCount_append]
    simp [protocolCount, Member.protocolNames]
  · rw [List.countP_append, h.joining]
    simp
  · simp only [List.append_eq_nil_iff, List.cons_ne_nil, and_false, iff_false]
    split
    · simp
    · rename_i hc
      simpa using hc
  · intro l hl
    rw [List.map_append]
    split at hl
    · cases hl
      simp
    · exact List.mem_append_left _ (h.leader_mem l hl)
  · intro gi i hgi
    rcases hmi : m.instanceId with _ | gi'
    · simp only [hmi] at hgi
      obtain ⟨y, hy, hyi, hyg⟩ := h.static_sound gi i hgi
      exact ⟨y, List.mem_append_left _ hy, hyi, hyg⟩
    · simp only [hmi] at hgi
      by_cases hg : gi = gi'
      · subst hg
        rw [Function.update_self] at hgi
        cases hgi
        exact ⟨_, List.mem_append_right _ (List.mem_singleton_self _), rfl, rfl⟩
      · rw [Function.update_of_ne hg] at hgi
        obtain ⟨y, hy, hyi, hyg⟩ := h.static_sound gi i hgi
        exact ⟨y, List.mem_append_left _ hy, hyi, hyg⟩
  · intro y hy gi hgi
    rcases (hmem y).mp hy with hy | rfl
    · have hold := h.static_complete y hy gi hgi
      rcases hmi : m.instanceId with _ | gi'
      · simpa only [hmi] using hold
      · have hne : gi ≠ gi' := by
          rintro rfl
          rw [hinst gi hmi] at hold
          cases hold
        simp only
        rw [Function.update_of_ne hne, hold]
    · simp only at hgi
      simp [hgi]
  · exact h.pending_nodup.erase _
  · intro i hi
    rw [h.pending_nodup.mem_erase_iff] at hi
    simp only [List.map_append, List.mem_append, List.map_cons, List.map_nil, List.mem_singleton,
      not_or]
    exact ⟨h.pending_fresh i hi.2, hi.1⟩
  · exact h.stores_nodup
  · intro s hs
    obtain ⟨hfresh, hpend⟩ := h.stores_fresh s hs
    simp only [List.map_append, List.mem_append, List.map_cons, List.map_nil, List.mem_singleton,
      not_or]
    exact ⟨⟨hfresh, fun e => (hstores s hs).1 e.symm⟩,
      fun he => hpend (List.mem_of_mem_erase he)⟩
  · intro s hs
    exact fun he => h.stores_new_pending s hs (List.mem_of_mem_erase he)
  · intro s hs y hy hyid
    rcases (hmem y).mp hy with hy | rfl
    · exact h.stores_inst s hs y hy hyid
    · exact absurd hyid (hstores s hs).2
  · exact h.stores_chain
  · exact h.timer

end Insert

section Drop

variable [DecidableEq I] [DecidableEq G] {g : Group I G P M T} {x : Member I G P M T}

omit [DecidableEq P] [DecidableEq I] [DecidableEq G] in
theorem not_mem_map_of_sublist {l l' : List (Member I G P M T)} (hs : List.Sublist l l') {i : I}
    (hi : i ∉ l'.map (·.id)) : i ∉ l.map (·.id) :=
  fun h => hi ((hs.map _).subset h)

/-- Taking a member that is not joining off the map, with its protocols and
    its static entry, and leaving a leader that is engaged exactly when a
    member remains and names one, keeps the invariant. -/
theorem Inv.erase (h : Inv g) (hx : x ∈ g.members) (hnj : x.joining = false) (L : Option I)
    (hL : L = none ↔ eraseMember x.id g.members = [])
    (hLm : ∀ l, L = some l → l ∈ (eraseMember x.id g.members).map (·.id)) :
    Inv { g with
      supportedProtocols := bumpAll g.supportedProtocols x.protocolNames (-1)
      staticMembers := match x.instanceId with
        | some gi => Function.update g.staticMembers gi none
        | none => g.staticMembers
      members := eraseMember x.id g.members
      leader := L } := by
  have hsub : List.Sublist (eraseMember x.id g.members) g.members := KeyedList.erase_sublist _ _
  have hmemE : ∀ y, y ∈ eraseMember x.id g.members ↔ y ∈ g.members ∧ y.id ≠ x.id :=
    fun _ => KeyedList.mem_erase
  -- a member other than `x` stays, and only `x` has its id
  have hother : ∀ y ∈ g.members, y ≠ x → y ∈ eraseMember x.id g.members := fun y hy hne =>
    (hmemE y).2 ⟨hy, fun e => hne (id_eq_of_mem_of_nodup h.ids_nodup hy hx e)⟩
  constructor
  all_goals simp only
  · exact h.ids_nodup.sublist (hsub.map _)
  · exact h.ptrs_nodup.sublist (hsub.map _)
  · exact fun y hy => h.ptr_lt y (hsub.subset hy)
  · intro p
    have := KeyedList.sum_map_erase (fun m => m.protocolNames.count p) h.ids_nodup hx
    rw [bumpAll_getD, h.supported]
    simp only [protocolCount, eraseMember] at this ⊢
    omega
  · have := KeyedList.countP_erase (·.joining) h.ids_nodup hx
    simp only [hnj, Bool.false_eq_true, if_false, Nat.add_zero] at this
    rw [h.joining]
    exact congrArg _ this.symm
  · exact hL
  · exact hLm
  · intro gi i hgi
    have hold : g.staticMembers gi = some i ∧ x.instanceId ≠ some gi := by
      rcases hxi : x.instanceId with _ | gx
      · simp only [hxi] at hgi
        exact ⟨hgi, by simp⟩
      · simp only [hxi] at hgi
        by_cases hg : gi = gx
        · subst hg
          simp at hgi
        · rw [Function.update_of_ne hg] at hgi
          exact ⟨hgi, by simpa using Ne.symm hg⟩
    obtain ⟨y, hy, hyi, hyg⟩ := h.static_sound gi i hold.1
    exact ⟨y, hother y hy (by rintro rfl; exact hold.2 hyg), hyi, hyg⟩
  · intro y hy gi hgi
    obtain ⟨hy, hyx⟩ := (hmemE y).1 hy
    have hold := h.static_complete y hy gi hgi
    rcases hxi : x.instanceId with _ | gx
    · simpa only [hxi] using hold
    · have hne : gi ≠ gx := by
        rintro rfl
        have := h.static_complete x hx gi hxi
        rw [hold] at this
        exact hyx (Option.some.inj this)
      simp only
      rw [Function.update_of_ne hne, hold]
  · exact h.pending_nodup
  · exact fun i hi => not_mem_map_of_sublist hsub (h.pending_fresh i hi)
  · exact h.stores_nodup
  · exact fun s hs => ⟨not_mem_map_of_sublist hsub (h.stores_fresh s hs).1, (h.stores_fresh s hs).2⟩
  · exact h.stores_new_pending
  · exact fun s hs y hy => h.stores_inst s hs y (hsub.subset hy)
  · exact h.stores_chain
  · exact h.timer

/-- `remove_member` after `try_finish_joining_member`, and each removal of
    `complete_join`, keep the invariant: a member that led hands over to the
    first that remains. -/
theorem Inv.dropMember (h : Inv g) (hx : x ∈ g.members) (hnj : x.joining = false) :
    Inv (g.dropMember x) := by
  dsimp only [Group.dropMember]
  split_ifs with hlead
  · apply h.erase hx hnj
    · simp
    · intro l hl
      obtain ⟨y, hy, rfl⟩ := Option.map_eq_some_iff.mp hl
      exact List.mem_map_of_mem (List.mem_of_mem_head? hy)
  · -- the leader was another member, which stays
    obtain ⟨l, hl⟩ : ∃ l, g.leader = some l := by
      cases hg : g.leader with
      | none => exact absurd (h.leader_none.mp hg) (List.ne_nil_of_mem hx)
      | some l => exact ⟨l, rfl⟩
    have hlx : l ≠ x.id := fun e => hlead (by simp [isLeader, hl, e])
    have hlE : l ∈ (eraseMember x.id g.members).map (·.id) := by
      obtain ⟨y, hy, rfl⟩ := List.mem_map.1 (h.leader_mem l hl)
      exact List.mem_map_of_mem (KeyedList.mem_erase.2 ⟨hy, hlx⟩)
    apply h.erase hx hnj
    · simp only [hl, reduceCtorEq, false_iff]
      intro e
      rw [e] at hlE
      simp at hlE
    · intro l' hl'
      simp only [hl, Option.some.injEq] at hl'
      exact hl' ▸ hlE

end Drop

section Rename

variable [DecidableEq I] [DecidableEq G] {g : Group I G P M T} {m : Member I G P M T} {gi : G}
  {newId : I}

omit [DecidableEq P] [DecidableEq G] in
theorem ptr_ne_of_mem_erase (hp : (g.members.map (·.ptr)).Nodup) (hm : m ∈ g.members) :
    ∀ y ∈ eraseMember m.id g.members, y.ptr ≠ m.ptr := by
  intro y hy e
  obtain ⟨hy, hyid⟩ := KeyedList.mem_erase.1 hy
  exact hyid (congrArg Member.id (List.inj_on_of_nodup_map hp hy hm e))

/-- `replace_static_member` moves the member to its new id, answers its join
    and sync, hands it the leadership it had, and points the static index
    at it. -/
theorem renameMember_eq (h : Inv g) (hm : m ∈ g.members) (hnew : newId ∉ g.members.map (·.id)) :
    g.renameMember m gi newId =
      { g with
        members := eraseMember m.id g.members ++
          [{ m with id := newId, joining := false, syncing := false }]
        numMembersJoining := if m.joining then g.numMembersJoining - 1 else g.numMembersJoining
        leader := if g.isLeader m.id then some newId else g.leader
        staticMembers := Function.update g.staticMembers gi (some newId) } := by
  have hE := ptr_ne_of_mem_erase h.ptrs_nodup hm
  have hnewE : newId ∉ (eraseMember m.id g.members).map (·.id) :=
    not_mem_map_of_sublist (KeyedList.erase_sublist _ _) hnew
  have hemp : emplaceMember { m with id := newId } (eraseMember m.id g.members) =
      eraseMember m.id g.members ++ [{ m with id := newId }] :=
    emplaceMember_of_not_mem hnewE
  -- the object is the last entry throughout
  have hfind : ∀ x : Member I G P M T, x.ptr = m.ptr →
      KeyedList.find? (·.ptr) m.ptr (eraseMember m.id g.members ++ [x]) = some x :=
    fun x hx => object?_append_single hE hx { g with members := _ } rfl
  have hmod : ∀ (f : Member I G P M T → Member I G P M T) (x : Member I G P M T), x.ptr = m.ptr →
      modifyObject m.ptr f (eraseMember m.id g.members ++ [x]) = eraseMember m.id g.members ++ [f x] :=
    fun f x hx => modifyObject_append_single hE hx
  simp only [renameMember, hemp, Group.finishObject, Group.isJoining, Group.object?, isLeader]
  -- the three flags decide which of the source's updates happen
  cases hj : m.joining <;> cases hs : m.syncing <;> by_cases hl : g.leader = some m.id <;>
    simp [hfind, hmod, hl]

/-- Moving a static member to a fresh id keeps the invariant, given that no
    pending id and no store's old id is the new one, and that a store which
    already names the new id is for the same instance. -/
theorem Inv.renameMember (h : Inv g) (hm : m ∈ g.members) (hgi : m.instanceId = some gi)
    (hnew : newId ∉ g.members.map (·.id)) (hpend : newId ∉ g.pendingMembers)
    (hold : ∀ s ∈ g.staticStores, newId ≠ s.oldMemberId)
    (hinst : ∀ s ∈ g.staticStores, s.newMemberId = newId → s.instanceId = gi) :
    Inv (g.renameMember m gi newId) := by
  rw [renameMember_eq h hm hnew]
  set m' : Member I G P M T := { m with id := newId, joining := false, syncing := false }
  have hsub : List.Sublist (eraseMember m.id g.members) g.members := KeyedList.erase_sublist _ _
  have hE := ptr_ne_of_mem_erase h.ptrs_nodup hm
  have hnewE : newId ∉ (eraseMember m.id g.members).map (·.id) := not_mem_map_of_sublist hsub hnew
  -- a member of the result is one of the others, or the renamed one
  have hmem : ∀ y, y ∈ eraseMember m.id g.members ++ [m'] ↔
      (y ∈ g.members ∧ y.id ≠ m.id) ∨ y = m' := by
    intro y
    rw [List.mem_append, List.mem_singleton]
    exact or_congr_left KeyedList.mem_erase
  have hids : (eraseMember m.id g.members ++ [m']).map (·.id) =
      (eraseMember m.id g.members).map (·.id) ++ [newId] := by simp [m']
  have hstatic := h.static_complete m hm gi hgi
  constructor
  all_goals simp only
  · rw [hids]
    exact KeyedList.nodup_append_single (h.ids_nodup.sublist (hsub.map _)) hnewE
  · rw [List.map_append]
    exact KeyedList.nodup_append_single (h.ptrs_nodup.sublist (hsub.map _))
      fun e => by obtain ⟨y, hy, hyp⟩ := List.mem_map.1 e; exact hE y hy hyp
  · intro y hy
    rcases (hmem y).1 hy with ⟨hy, -⟩ | rfl
    · exact h.ptr_lt y hy
    · exact h.ptr_lt m hm
  · intro p
    have := KeyedList.sum_map_erase (fun m => m.protocolNames.count p) h.ids_nodup hm
    rw [h.supported, protocolCount_append]
    simp only [protocolCount, eraseMember] at this ⊢
    simp only [List.map_cons, List.map_nil, List.sum_cons, List.sum_nil, m', Member.protocolNames]
    simp only [Member.protocolNames] at this
    omega
  · have hc := KeyedList.countP_erase (·.joining) h.ids_nodup hm
    have hm' : [m'].countP (·.joining) = 0 := by simp [m']
    rw [List.countP_append, hm', h.joining]
    simp only [eraseMember] at hc ⊢
    -- the renamed member stops joining: its share leaves the count
    cases hj : m.joining <;> simp [hj] at hc ⊢ <;> omega
  · have hne : g.leader ≠ none := fun e => List.ne_nil_of_mem hm (h.leader_none.1 e)
    split_ifs <;> simp [hne]
  · intro l hl
    rw [hids]
    split_ifs at hl with hlead
    · simp only [Option.some.injEq] at hl
      simp [hl]
    · have hlm : l ≠ m.id := fun e => hlead (by simp [isLeader, hl, e])
      obtain ⟨y, hy, rfl⟩ := List.mem_map.1 (h.leader_mem l hl)
      exact List.mem_append_left _ (List.mem_map_of_mem (KeyedList.mem_erase.2 ⟨hy, hlm⟩))
  · intro gi' i hgi'
    by_cases hg : gi' = gi
    · subst hg
      simp only [Function.update_self, Option.some.injEq] at hgi'
      exact ⟨m', (hmem m').2 (Or.inr rfl), hgi', hgi⟩
    · rw [Function.update_of_ne hg] at hgi'
      obtain ⟨y, hy, hyi, hyg⟩ := h.static_sound gi' i hgi'
      -- `y` has another instance than `m`, so it is another member
      have hym : y.id ≠ m.id := fun e => by
        rw [id_eq_of_mem_of_nodup h.ids_nodup hy hm e, hgi] at hyg
        exact hg (Option.some.inj hyg).symm
      exact ⟨y, (hmem y).2 (Or.inl ⟨hy, hym⟩), hyi, hyg⟩
  · intro y hy gi' hyg
    rcases (hmem y).1 hy with ⟨hy, hym⟩ | rfl
    · have hg : gi' ≠ gi := by
        rintro rfl
        exact hym (Option.some.inj ((h.static_complete y hy gi' hyg).symm.trans hstatic))
      rw [Function.update_of_ne hg]
      exact h.static_complete y hy gi' hyg
    · have : gi' = gi := Option.some.inj (hyg.symm.trans hgi)
      subst this
      simp [m']
  · exact h.pending_nodup
  · intro i hi
    rw [hids, List.mem_append, List.mem_singleton, not_or]
    exact ⟨not_mem_map_of_sublist hsub (h.pending_fresh i hi), fun e => hpend (e ▸ hi)⟩
  · exact h.stores_nodup
  · intro s hs
    rw [hids, List.mem_append, List.mem_singleton, not_or]
    exact ⟨⟨not_mem_map_of_sublist hsub (h.stores_fresh s hs).1, fun e => hold s hs e.symm⟩,
      (h.stores_fresh s hs).2⟩
  · exact h.stores_new_pending
  · intro s hs y hy hys
    rcases (hmem y).1 hy with ⟨hy, -⟩ | rfl
    · exact h.stores_inst s hs y hy hys
    · rw [hinst s hs hys.symm]
      exact hgi
  · exact h.stores_chain
  · exact h.timer

end Rename

/-! ## The other fields -/

section Fields

variable {g : Group I G P M T}

theorem Inv.timer_none (h : Inv g) (hs : g.state ≠ .preparingRebalance) : g.joinTimer = none := by
  cases ht : g.joinTimer with
  | none => rfl
  | some t => exact absurd (h.timer (by simp [ht])) hs

theorem Inv.numMembersJoining_pos (h : Inv g) {mp : Nat} (hj : g.isJoining mp = true) :
    0 < g.numMembersJoining := by
  obtain ⟨x, hx, -, hxj⟩ := (isJoining_iff h).mp hj
  rw [h.joining]
  exact Int.natCast_pos.2 (List.countP_pos_iff.2 ⟨x, hx, hxj⟩)

/-- A member's protocols are among the support counts, so taking them off
    leaves every count non-negative. -/
theorem Inv.count_le (h : Inv g) {x : Member I G P M T} (hx : x ∈ g.members) (p : P) :
    (x.protocolNames.count p : Int) ≤ (g.supportedProtocols p).getD 0 := by
  rw [h.supported]
  exact Int.ofNat_le.2 (count_le_protocolCount hx p)

/-- A new state keeps the invariant unless the join timer is armed and the
    state is not `preparing_rebalance`. -/
theorem Inv.setState (h : Inv g) (s : GroupState)
    (ht : g.joinTimer = none ∨ s = .preparingRebalance) : Inv { g with state := s } :=
  h.of_eq rfl le_rfl rfl rfl rfl rfl rfl rfl fun hs => by
    rcases ht with ht | ht
    · simp [ht] at hs
    · exact ht

theorem Inv.setTimer (h : Inv g) (t : Option JoinTimer)
    (ht : t.isSome → g.state = .preparingRebalance) : Inv { g with joinTimer := t } :=
  h.of_eq rfl le_rfl rfl rfl rfl rfl rfl rfl ht

/-- Any member may lead. -/
theorem Inv.setLeader (h : Inv g) {m : Member I G P M T} (hm : m ∈ g.members) :
    Inv { g with leader := some m.id } :=
  { h with
    leader_none := by simpa using List.ne_nil_of_mem hm
    leader_mem := fun l hl => by
      cases hl
      exact List.mem_map_of_mem hm }

/-- A map over every member that keeps its key, protocols and joining flag
    keeps the invariant. -/
theorem Inv.mapMembers (h : Inv g) {f : Member I G P M T → Member I G P M T}
    (hk : ∀ x, (f x).key = x.key) (hp : ∀ x, (f x).protocols = x.protocols)
    (hj : ∀ x, (f x).joining = x.joining) : Inv { g with members := g.members.map f } := by
  refine h.frame (by simp [List.map_map, Function.comp_def, hk]) le_rfl (fun p => ?_) ?_
    rfl rfl rfl rfl h.timer
  · simp only [protocolCount, List.map_map, Function.comp_def, Member.protocolNames, hp]
    exact h.supported p
  · simp only [List.countP_map, Function.comp_def, hj]
    exact h.joining

section Pending

theorem Inv.erasePending [DecidableEq I] (h : Inv g) (id : I) :
    Inv { g with pendingMembers := g.pendingMembers.erase id } :=
  { h with
    pending_nodup := h.pending_nodup.erase id
    pending_fresh := fun i hi => h.pending_fresh i (List.mem_of_mem_erase hi)
    stores_fresh := fun s hs =>
      ⟨(h.stores_fresh s hs).1, fun he => (h.stores_fresh s hs).2 (List.mem_of_mem_erase he)⟩
    stores_new_pending := fun s hs he => h.stores_new_pending s hs (List.mem_of_mem_erase he) }

/-- An id that is nobody's and no store's may wait as a pending member. -/
theorem Inv.addPending (h : Inv g) {id : I} (hp : id ∉ g.pendingMembers)
    (hid : id ∉ g.members.map (·.id))
    (hs : ∀ s ∈ g.staticStores, id ≠ s.oldMemberId ∧ id ≠ s.newMemberId) :
    Inv { g with pendingMembers := g.pendingMembers ++ [id] } := by
  have hmem : ∀ i, i ∈ g.pendingMembers ++ [id] ↔ i ∈ g.pendingMembers ∨ i = id := by simp
  exact
    { h with
      pending_nodup := KeyedList.nodup_append_single h.pending_nodup hp
      pending_fresh := fun i hi => by
        rcases (hmem i).1 hi with hi | rfl
        · exact h.pending_fresh i hi
        · exact hid
      stores_fresh := fun s hss => ⟨(h.stores_fresh s hss).1, fun he => by
        rcases (hmem _).1 he with he | he
        · exact (h.stores_fresh s hss).2 he
        · exact (hs s hss).1 he.symm⟩
      stores_new_pending := fun s hss he => by
        rcases (hmem _).1 he with he | he
        · exact h.stores_new_pending s hss he
        · exact (hs s hss).2 he.symm }

end Pending

section Stores

theorem Inv.eraseStore [DecidableEq I] [DecidableEq G] [DecidableEq M] (h : Inv g)
    (s : StaticStore I G P M) : Inv { g with staticStores := g.staticStores.erase s } := by
  have hsub : List.Sublist (g.staticStores.erase s) g.staticStores := List.erase_sublist
  exact
    { h with
      stores_nodup := h.stores_nodup.sublist (hsub.map _)
      stores_fresh := fun s' hs => h.stores_fresh s' (hsub.subset hs)
      stores_new_pending := fun s' hs => h.stores_new_pending s' (hsub.subset hs)
      stores_inst := fun s' hs => h.stores_inst s' (hsub.subset hs)
      stores_chain := fun s₁ h₁ s₂ h₂ => h.stores_chain s₁ (hsub.subset h₁) s₂ (hsub.subset h₂) }

/-- A background store may be recorded whose old id is nobody's and no other
    store's, whose new id is not pending and, if a member's, that member's
    with its instance id, and which chains with the others on the instance
    id. -/
theorem Inv.pushStore (h : Inv g) (S : StaticStore I G P M)
    (hold : S.oldMemberId ∉ g.members.map (·.id)) (hpend : S.oldMemberId ∉ g.pendingMembers)
    (holds : S.oldMemberId ∉ g.staticStores.map (·.oldMemberId))
    (hnew : S.newMemberId ∉ g.pendingMembers)
    (hinst : ∀ m ∈ g.members, m.id = S.newMemberId → m.instanceId = some S.instanceId)
    (hafter : ∀ s ∈ g.staticStores, s.oldMemberId = S.newMemberId → s.instanceId = S.instanceId)
    (hbefore : ∀ s ∈ g.staticStores, S.oldMemberId = s.newMemberId → S.instanceId = s.instanceId) :
    Inv { g with staticStores := g.staticStores ++ [S] } := by
  have hmem : ∀ s, s ∈ g.staticStores ++ [S] ↔ s ∈ g.staticStores ∨ s = S := by simp
  exact
    { h with
      stores_nodup := by
        rw [List.map_append]
        exact KeyedList.nodup_append_single h.stores_nodup holds
      stores_fresh := fun s hs => by
        rcases (hmem s).1 hs with hs | rfl
        · exact h.stores_fresh s hs
        · exact ⟨hold, hpend⟩
      stores_new_pending := fun s hs => by
        rcases (hmem s).1 hs with hs | rfl
        · exact h.stores_new_pending s hs
        · exact hnew
      stores_inst := fun s hs => by
        rcases (hmem s).1 hs with hs | rfl
        · exact h.stores_inst s hs
        · exact hinst
      stores_chain := fun s₁ h₁ s₂ h₂ => by
        rcases (hmem s₁).1 h₁ with hs₁ | rfl <;> rcases (hmem s₂).1 h₂ with hs₂ | rfl
        · exact h.stores_chain s₁ hs₁ s₂ hs₂
        · exact hbefore s₁ hs₁
        · exact hafter s₂ hs₂
        · exact fun _ => rfl }

end Stores

/-- The group the group manager makes for a join to an unknown group. -/
theorem Inv.new (d : Nat) : Inv (Group.new d : Group I G P M T) := by
  constructor <;> simp [Group.new, protocolCount]

/-- Making a member object keeps the invariant. -/
theorem Inv.allocate (h : Inv g) : Inv { g with allocated := g.allocated + 1 } :=
  h.of_eq rfl (Nat.le_succ _) rfl rfl rfl rfl rfl rfl h.timer

end Fields

end Group

end Kafka
