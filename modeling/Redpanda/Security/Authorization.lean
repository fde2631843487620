import Redpanda.Lib.ListLex
import Redpanda.Security.Acl

/-! # The authorizer decides by the ACL rules, up to the empty prefix

    The rules of a request on a resource (`Allowed`): a superuser is
    allowed; with no binding on the resource's literal name, on the wildcard
    `*` or on a prefix of its name, the request gets `allow_empty_matches`;
    otherwise it is allowed when no DENY binding matches the principal or one
    of its roles for the operation, and some ALLOW binding matches one of them
    for the operation or for one that implies it.

    `do_authorized` follows these rules for every store that `add_bindings`,
    `remove_bindings` and `reset_bindings` reach and every user or ephemeral
    user principal, with one exception (`authorized_iff_allowed_in_view`).
    `get_prefix_view` scans the store from the pattern named by the resource
    name up to the one named by its first character, and in the reversed
    name order a prefixed pattern with the empty name sorts past that range:
    its bindings count only for the resource with the empty name
    (`AppliesInView`).  For every other resource they are neither a match
    nor a binding, so an empty-prefix DENY is ignored.

    Two invariants of the reachable stores carry the proof
    (`AclStore.WellFormed`): the patterns are distinct, so the two lookups
    and the prefix scan see every binding of a pattern; and each entry set's
    `_role_cache` counts its role bindings (`AclEntrySet.CacheAccurate`), so
    the short cut of `acl_entry_set::find` for a role without bindings
    answers what the scan would, up to wildcard bindings that already match
    the user itself. -/

namespace Security

/-! ## The role cache -/

namespace AclEntrySet

/-- The number of bindings of the role named `n`. -/
def roleCount (entries : List AclEntry) (n : List Char) : Nat :=
  entries.countP fun e => e.principal = ⟨.role, n⟩

theorem roleCount_eq (entries : List AclEntry) (n : List Char) :
    roleCount entries n = entries.countP fun e => e.principal = ⟨.role, n⟩ := rfl

/-- How `_role_cache` holds a count: a count of 0 is no key. -/
def encodeCount (c : Nat) : Option Int := if c = 0 then none else some c

theorem encodeCount_eq (c : Nat) : encodeCount c = if c = 0 then none else some (c : Int) := rfl

/-- `_role_cache` holds the count of every role's bindings in the set. -/
def CacheAccurate (s : AclEntrySet) : Prop :=
  s.roleCache = fun n => encodeCount (roleCount s.entries n)

theorem cacheAccurate_empty : empty.CacheAccurate := by
  funext n
  rfl

theorem roleCount_append_single (entries : List AclEntry) (e : AclEntry) (n : List Char) :
    roleCount (entries ++ [e]) n = roleCount entries n + if e.principal = ⟨.role, n⟩ then 1 else 0 := by
  simp [roleCount_eq, List.countP_append]

theorem isSome_encodeCount (c : Nat) : (encodeCount c).isSome = true ↔ c ≠ 0 := by
  by_cases hc : c = 0 <;> simp [encodeCount_eq, hc]

theorem getD_encodeCount (c : Nat) : (encodeCount c).getD 0 = c := by
  by_cases hc : c = 0 <;> simp [encodeCount_eq, hc]

/-- A new role binding raises its role's count by one. -/
theorem insert_cacheAccurate {s : AclEntrySet} (h : s.CacheAccurate) (entry : AclEntry) :
    (s.insert entry).CacheAccurate := by
  simp only [insert]
  split
  · exact h
  · rename_i hnew
    split
    · rename_i hrole
      -- the inserted principal is the role named `entry.principal.name`
      have hp : entry.principal = ⟨.role, entry.principal.name⟩ := by
        rw [← hrole]
      funext n
      simp only [CacheAccurate] at h
      by_cases hn : n = entry.principal.name
      · subst hn
        simp only [Function.update_self, h, getD_encodeCount, roleCount_append_single, ← hp,
          if_true]
        simp [encodeCount_eq]
      · have hne : entry.principal ≠ ⟨.role, n⟩ := by
          intro heq
          exact hn (by rw [heq])
        simp [Function.update_of_ne hn, h, roleCount_append_single, hne]
    · rename_i hrole
      have hne : ∀ n, entry.principal ≠ ⟨.role, n⟩ := by
        intro n heq
        exact hrole (by rw [heq])
      funext n
      simp only [CacheAccurate] at h
      simp [h, roleCount_append_single, hne]

theorem entries_removeIfRole (s : AclEntrySet) (p : AclPrincipal) :
    (s.removeIfRole p).entries = s.entries := by
  simp only [removeIfRole]
  split
  · rfl
  · split
    · rfl
    · split <;> rfl

/-- `remove_if_role` takes one off the count of a removed role binding. -/
theorem roleCache_removeIfRole {s : AclEntrySet} {p : AclPrincipal} {f : List Char → Nat}
    (h : s.roleCache = fun n => encodeCount (f n + if p = ⟨.role, n⟩ then 1 else 0)) :
    (s.removeIfRole p).roleCache = fun n => encodeCount (f n) := by
  by_cases hrole : p.type = .role
  · have hp : p = ⟨.role, p.name⟩ := by
      rw [← hrole]
    have hcache : s.roleCache p.name = some ((f p.name : Int) + 1) := by
      rw [h]
      simp [encodeCount_eq, hp.symm]
    simp only [removeIfRole, hrole, ne_eq, not_true_eq_false, if_false, hcache]
    funext n
    by_cases hn : n = p.name
    · subst hn
      by_cases hz : f p.name = 0
      · simp [hz, Function.update_self, encodeCount_eq]
      · simp [Function.update_self, encodeCount_eq, hz]
    · have hne : p ≠ ⟨.role, n⟩ := by
        intro heq
        exact hn (by rw [heq])
      split <;> simp [Function.update_of_ne hn, h, hne]
  · have hne : ∀ n, p ≠ ⟨.role, n⟩ := by
      intro n heq
      exact hrole (by rw [heq])
    simp only [removeIfRole, ne_eq, hrole, not_false_eq_true, if_true, h]
    simp [hne]

/-- The loop of `remove_if_role` calls over the removed bindings: while
    bindings `rs` remain to be counted off, the cache holds the count of the
    set's entries plus theirs. -/
theorem foldl_removeIfRole_cacheAccurate (rs : List AclEntry) : ∀ (t : AclEntrySet),
    t.roleCache = (fun n => encodeCount (roleCount t.entries n + roleCount rs n)) →
      (rs.foldl (fun s e => s.removeIfRole e.principal) t).CacheAccurate := by
  induction rs with
  | nil =>
      intro t ht
      simpa [roleCount_eq, CacheAccurate] using ht
  | cons r rs ih =>
      intro t ht
      apply ih
      rw [entries_removeIfRole]
      apply roleCache_removeIfRole
      rw [ht]
      funext n
      simp [roleCount_eq, List.countP_cons, Nat.add_assoc]

/-- `erase_if` and then `remove_if_role` for each removed role binding
    keep the cache accurate. -/
theorem eraseMatching_cacheAccurate {s : AclEntrySet} (h : s.CacheAccurate)
    (pred : AclEntry → Bool) : (s.eraseMatching pred).CacheAccurate := by
  apply foldl_removeIfRole_cacheAccurate
  show s.roleCache = _
  rw [h]
  funext n
  simp only [roleCount_eq]
  rw [List.countP_eq_countP_filter_add s.entries _ pred, Nat.add_comm]

/-- A user or ephemeral user is looked up by a scan of the entries. -/
theorem find_isSome_of_not_role (s : AclEntrySet) {p : AclPrincipal} (hp : p.type ≠ .role)
    (op : AclOperation) (host : AclHost) (perm : AclPermission) :
    (s.find op p host perm).isSome = true ↔ ∃ e ∈ s.entries, entryMatches e op p host perm = true := by
  simp [find, hp, List.find?_isSome]

/-- With an accurate cache, a role is found exactly when it has a binding in
    the set and the scan finds a match. -/
theorem find_isSome_of_role {s : AclEntrySet} (h : s.CacheAccurate) {p : AclPrincipal}
    (hp : p.type = .role) (op : AclOperation) (host : AclHost) (perm : AclPermission) :
    (s.find op p host perm).isSome = true ↔
      (∃ e ∈ s.entries, e.principal = p) ∧ ∃ e ∈ s.entries, entryMatches e op p host perm = true := by
  have hp' : p = ⟨.role, p.name⟩ := by
    rw [← hp]
  -- the cache has the role's name exactly when one of its bindings is here
  have hcache : (s.roleCache p.name).isSome = true ↔ ∃ e ∈ s.entries, e.principal = p := by
    rw [h, isSome_encodeCount, roleCount_eq, ← Nat.pos_iff_ne_zero, List.countP_pos_iff, ← hp']
    simp
  by_cases hs : (s.roleCache p.name).isSome = true
  · have hnone : ¬ (p.type = .role ∧ (s.roleCache p.name).isNone = true) := by
      rintro ⟨-, hn⟩
      rw [Option.isNone_iff_eq_none] at hn
      exact Option.isSome_iff_ne_none.mp hs hn
    simp only [find, hnone, if_false, List.find?_isSome]
    exact ⟨fun hm => ⟨hcache.mp hs, hm⟩, fun hm => hm.2⟩
  · have hnone : p.type = .role ∧ (s.roleCache p.name).isNone = true :=
      ⟨hp, Option.isNone_iff_eq_none.mpr (Option.not_isSome_iff_eq_none.mp hs)⟩
    simp only [find, hnone, and_self, if_true, Option.isSome_none, Bool.false_eq_true, false_iff]
    exact fun hm => hs (hcache.mpr hm.1)

end AclEntrySet

/-! ## Reachable stores -/

namespace AclStore

/-- The invariants of the stores that the ACL commands reach. -/
structure WellFormed (store : AclStore) : Prop where
  keys_nodup : (store.acls.map Prod.fst).Nodup
  cache_accurate : ∀ kv ∈ store.acls, kv.2.CacheAccurate

/-- The stores that `add_bindings`, `remove_bindings` (a dry run or not) and
    `reset_bindings` reach from the empty one. -/
inductive Reachable : AclStore → Prop where
  | empty : Reachable empty
  | addBindings {store : AclStore} (bindings : List AclBinding) :
      Reachable store → Reachable (store.addBindings bindings)
  | removeBindings {store : AclStore} (filters : List AclBindingFilter) (dryRun : Bool) :
      Reachable store → Reachable (store.removeBindings filters dryRun)
  | resetBindings {store : AclStore} (bindings : List AclBinding) :
      Reachable store → Reachable (store.resetBindings bindings)

theorem wellFormed_empty : empty.WellFormed :=
  ⟨List.nodup_nil, fun _ h => nomatch h⟩

/-- Changing the entry set of one pattern, creating it if absent, keeps the
    patterns distinct and, when the change keeps a cache accurate, every
    cache accurate. -/
theorem modifyAt_wellFormed {store : AclStore} (h : store.WellFormed) (p : ResourcePattern)
    {f : AclEntrySet → AclEntrySet} (hf : ∀ s, s.CacheAccurate → (f s).CacheAccurate) :
    (store.modifyAt p f).WellFormed := by
  simp only [modifyAt]
  split
  · -- `p` is a key already: only its entry set changes
    constructor
    · show ((store.acls.map fun kv => if kv.1 = p then (kv.1, f kv.2) else kv).map Prod.fst).Nodup
      have hkeys : (store.acls.map fun kv => if kv.1 = p then (kv.1, f kv.2) else kv).map
          Prod.fst = store.acls.map Prod.fst := by
        rw [List.map_map]
        apply List.map_congr_left
        intro kv _
        simp only [Function.comp_apply]
        split <;> rfl
      rw [hkeys]
      exact h.keys_nodup
    · intro kv hkv
      obtain ⟨kv', hkv', rfl⟩ := List.mem_map.mp hkv
      split
      · exact hf _ (h.cache_accurate kv' hkv')
      · exact h.cache_accurate kv' hkv'
  · -- a new key goes at the end, with an empty set changed by `f`
    rename_i hnew
    have hfresh : ∀ kv ∈ store.acls, kv.1 ≠ p := by
      intro kv hkv heq
      exact hnew (List.any_eq_true.mpr ⟨kv, hkv, decide_eq_true heq⟩)
    constructor
    · show ((store.acls ++ [(p, f AclEntrySet.empty)]).map Prod.fst).Nodup
      rw [List.map_append, List.nodup_append]
      refine ⟨h.keys_nodup, by simp, ?_⟩
      intro a ha b hb
      obtain ⟨kv, hkv, rfl⟩ := List.mem_map.mp ha
      rw [List.map_singleton, List.mem_singleton] at hb
      rw [hb]
      exact hfresh kv hkv
    · intro kv hkv
      rcases List.mem_append.mp hkv with hkv | hkv
      · exact h.cache_accurate kv hkv
      · rw [List.mem_singleton] at hkv
        rw [hkv]
        exact hf _ AclEntrySet.cacheAccurate_empty

theorem addBindings_wellFormed {store : AclStore} (h : store.WellFormed)
    (bindings : List AclBinding) : (store.addBindings bindings).WellFormed := by
  induction bindings generalizing store with
  | nil => exact h
  | cons b bs ih =>
      exact ih (modifyAt_wellFormed h b.pattern fun _ hs => AclEntrySet.insert_cacheAccurate hs b.entry)

theorem removeBindings_wellFormed {store : AclStore} (h : store.WellFormed)
    (filters : List AclBindingFilter) (dryRun : Bool) :
    (store.removeBindings filters dryRun).WellFormed := by
  simp only [removeBindings]
  split
  · exact h
  · -- every pattern keeps its place, and its entry set loses some entries
    constructor
    · rw [List.map_map]
      exact h.keys_nodup
    · intro kv hkv
      obtain ⟨kv', hkv', rfl⟩ := List.mem_map.mp hkv
      exact AclEntrySet.eraseMatching_cacheAccurate (h.cache_accurate kv' hkv') _

/-- **EVERY REACHABLE STORE IS WELL FORMED**. -/
theorem wellFormed_of_reachable {store : AclStore} (h : store.Reachable) : store.WellFormed := by
  induction h with
  | empty => exact wellFormed_empty
  | addBindings bindings _ ih => exact addBindings_wellFormed ih bindings
  | removeBindings filters dryRun _ ih => exact removeBindings_wellFormed ih filters dryRun
  | resetBindings bindings _ _ => exact addBindings_wellFormed wellFormed_empty bindings

/-- With distinct patterns, `_acls.find` finds the entry set of a pattern
    exactly when the store holds it. -/
theorem lookup_eq_some_iff {store : AclStore} (h : (store.acls.map Prod.fst).Nodup)
    {k : ResourcePattern} {s : AclEntrySet} : store.lookup k = some s ↔ (k, s) ∈ store.acls := by
  obtain ⟨acls⟩ := store
  simp only [lookup] at h ⊢
  induction acls with
  | nil => simp
  | cons kv acls ih =>
      obtain ⟨k', s'⟩ := kv
      obtain ⟨hfresh, hnodup⟩ := List.nodup_cons.mp h
      by_cases hk : k' = k
      · subst hk
        have hnot : (k', s) ∉ acls := fun hm => hfresh (List.mem_map.mpr ⟨_, hm, rfl⟩)
        simp [hnot, eq_comm]
      · have hne : (k, s) ≠ (k', s') := fun heq => hk (by rw [(Prod.mk.inj heq).1])
        simp [hk, hne, ih hnodup]

end AclStore

/-! ## What `acl_store::find` sees -/

theorem ResourceType.code_inj {a b : ResourceType} (h : a.code = b.code) : a = b := by
  cases a <;> cases b <;> simp_all [ResourceType.code]

/-- The patterns whose bindings apply to a request on a resource: its
    literal name, the literal wildcard, and the prefixes of its name. -/
def Applies (resource : ResourceType) (name : List Char) (k : ResourcePattern) : Prop :=
  k.resource = resource ∧
    (k.pattern = .literal ∧ (k.name = resourceWildcard ∨ k.name = name) ∨
      k.pattern = .prefixed ∧ k.name <+: name)

instance (resource : ResourceType) (name : List Char) (k : ResourcePattern) :
    Decidable (Applies resource name k) :=
  inferInstanceAs (Decidable (k.resource = resource ∧
    (k.pattern = .literal ∧ (k.name = resourceWildcard ∨ k.name = name) ∨
      k.pattern = .prefixed ∧ k.name <+: name)))

/-- The patterns that `acl_store::find` sees: those that apply, except the
    prefixed pattern with the empty name, seen only for the empty name. -/
def AppliesInView (resource : ResourceType) (name : List Char) (k : ResourcePattern) : Prop :=
  Applies resource name k ∧ (k.pattern = .prefixed → k.name = [] → name = [])

/-- The scan of `get_prefix_view` keeps a prefix of the name exactly when it
    is a prefixed pattern of the resource type, and not the empty one unless
    the name is empty: in the reversed name order the range runs from the
    name down to its first character, and the empty name sorts after it. -/
theorem inPrefixRange_iff {resource : ResourceType} {name : List Char} {k : ResourcePattern}
    (hk : k.name <+: name) :
    (!patternCompare k ⟨resource, name, .prefixed⟩ &&
        !patternCompare ⟨resource, name.take 1, .prefixed⟩ k) = true ↔
      k.resource = resource ∧ k.pattern = .prefixed ∧ (k.name = [] → name = []) := by
  obtain ⟨kr, kn, kp⟩ := k
  by_cases hr : kr = resource
  · subst hr
    cases kp with
    | literal => simp [patternCompare, PatternType.code]
    | prefixed =>
        have hle : ¬ name < kn := ListLex.not_lt_of_prefix hk
        simp only [patternCompare, ne_eq, not_true_eq_false, if_false, hle, decide_false,
          Bool.not_false, Bool.true_and, Bool.not_eq_eq_eq_not, Bool.not_true,
          decide_eq_false_iff_not, true_and]
        constructor
        · intro hlt hnil
          by_contra hne
          exact hlt (hnil ▸ ListLex.nil_lt_take_one hne)
        · intro hemp hlt
          by_cases hnil : kn = []
          · subst hnil
            rw [hemp rfl] at hlt
            exact List.not_lt_nil _ hlt
          · exact ListLex.not_lt_take_one_of_prefix hnil hk hlt
  · have hcode : kr.code ≠ resource.code := fun h => hr (ResourceType.code_inj h)
    simp only [patternCompare, ne_eq, hr, not_false_eq_true, if_true, Ne.symm hr, false_and,
      iff_false]
    simp only [Bool.and_eq_true, Bool.not_eq_eq_eq_not, Bool.not_true, decide_eq_false_iff_not,
      not_lt, not_and]
    omega

/-- The entry sets a match holds. -/
def AclMatches.sets (m : AclMatches) : List AclEntrySet :=
  m.prefixes ++ m.wildcards.toList ++ m.literals.toList

/-- **THE VIEW OF `find`**: on a well-formed store, the entry sets that
    `acl_store::find` returns are those of the patterns in view. -/
theorem exists_sets_find_iff {store : AclStore} (h : store.WellFormed) (resource : ResourceType)
    (name : List Char) (Q : AclEntrySet → Prop) :
    (∃ s ∈ (store.find resource name).sets, Q s) ↔
      ∃ kv ∈ store.acls, AppliesInView resource name kv.1 ∧ Q kv.2 := by
  simp only [AclMatches.sets, AclStore.find, AclStore.prefixView, List.mem_append, List.mem_map,
    List.mem_filter, Option.mem_toList, AclStore.lookup_eq_some_iff h.keys_nodup,
    List.isPrefixOf_iff_prefix]
  constructor
  · rintro ⟨s, ((⟨kv, ⟨⟨hkv, hrange⟩, hpre⟩, rfl⟩ | hw) | hl), hQ⟩
    · obtain ⟨hres, hpat, hemp⟩ := (inPrefixRange_iff hpre).mp hrange
      exact ⟨kv, hkv, ⟨⟨hres, .inr ⟨hpat, hpre⟩⟩, fun _ => hemp⟩, hQ⟩
    · exact ⟨_, hw, ⟨⟨rfl, .inl ⟨rfl, .inl rfl⟩⟩, fun h => nomatch h⟩, hQ⟩
    · exact ⟨_, hl, ⟨⟨rfl, .inl ⟨rfl, .inr rfl⟩⟩, fun h => nomatch h⟩, hQ⟩
  · rintro ⟨⟨⟨r, n, pat⟩, s⟩, hkv, ⟨⟨rfl, ⟨rfl, rfl | rfl⟩ | ⟨rfl, hpre⟩⟩, hemp⟩, hQ⟩
    · exact ⟨s, .inl (.inr hkv), hQ⟩
    · exact ⟨s, .inr hkv, hQ⟩
    · have hrange := (@inPrefixRange_iff r _ _ hpre).mpr ⟨rfl, rfl, hemp rfl⟩
      exact ⟨s, .inl (.inl ⟨_, ⟨⟨hkv, hrange⟩, hpre⟩, rfl⟩), hQ⟩

/-- `acl_matches::find` finds a match in one of its entry sets. -/
theorem AclMatches.find_isSome_iff (m : AclMatches) (op : AclOperation) (p : AclPrincipal)
    (host : AclHost) (perm : AclPermission) :
    (m.find op p host perm).isSome = true ↔ ∃ s ∈ m.sets, (s.find op p host perm).isSome = true := by
  obtain ⟨w, l, ps⟩ := m
  cases w <;> cases l <;>
    simp [AclMatches.find, AclMatches.sets, List.findSome?_isSome_iff, or_and_right, exists_or]

/-- `acl_matches::empty`: every entry set of the match is empty. -/
theorem AclMatches.isEmpty_iff (m : AclMatches) :
    m.isEmpty = true ↔ ∀ s ∈ m.sets, s.entries = [] := by
  obtain ⟨w, l, ps⟩ := m
  cases w <;> cases l <;>
    simp [AclMatches.isEmpty, AclMatches.sets, AclEntrySet.isEmpty, or_imp, forall_and, and_comm]

/-! ## The rules -/

/-- `op'` is `op` or an operation that implies it: `describe` is implied by
    `read`, `write`, `remove` and `alter`, `describe_configs` by
    `alter_configs`. -/
def Implies (op' op : AclOperation) : Prop :=
  op' = op ∨ op = .describe ∧ (op' = .read ∨ op' = .write ∨ op' = .remove ∨ op' = .alter) ∨
    op = .describeConfigs ∧ op' = .alterConfigs

instance (op' op : AclOperation) : Decidable (Implies op' op) :=
  inferInstanceAs (Decidable (op' = op ∨
    op = .describe ∧ (op' = .read ∨ op' = .write ∨ op' = .remove ∨ op' = .alter) ∨
      op = .describeConfigs ∧ op' = .alterConfigs))

/-- The entry of a binding matches a checked principal, with permission
    `perm`, for one of the operations `ops`. -/
def Grants (e : AclEntry) (perm : AclPermission) (q : AclPrincipal) (ops : AclOperation → Prop)
    (host : AclHost) : Prop :=
  e.permission = perm ∧ (e.principal = q ∨ e.principal.wildcard = true) ∧
    (ops e.operation ∨ e.operation = .all) ∧ (e.host = host ∨ e.host = aclWildcardHost)

instance (e : AclEntry) (perm : AclPermission) (q : AclPrincipal) (ops : AclOperation → Prop)
    [DecidablePred ops] (host : AclHost) : Decidable (Grants e perm q ops host) :=
  inferInstanceAs (Decidable (e.permission = perm ∧ (e.principal = q ∨ e.principal.wildcard = true) ∧
    (ops e.operation ∨ e.operation = .all) ∧ (e.host = host ∨ e.host = aclWildcardHost)))

/-- The principals a request is checked for: the principal, and the roles of
    a user. -/
def checkedPrincipals (a : Authorizer) (p : AclPrincipal) : List AclPrincipal :=
  match p.type with
  | .user => p :: (a.rolesForMember p).map (AclPrincipal.mk .role)
  | .ephemeralUser | .role => [p]

/-- Some binding of the store, on a pattern that applies, has an entry
    with `P`. -/
def Bound (store : AclStore) (applies : ResourcePattern → Prop) (P : AclEntry → Prop) : Prop :=
  ∃ kv ∈ store.acls, applies kv.1 ∧ ∃ e ∈ kv.2.entries, P e

instance (store : AclStore) (applies : ResourcePattern → Prop) [DecidablePred applies]
    (P : AclEntry → Prop) [DecidablePred P] : Decidable (Bound store applies P) :=
  inferInstanceAs (Decidable (∃ kv ∈ store.acls, applies kv.1 ∧ ∃ e ∈ kv.2.entries, P e))

/-- The decision the rules give over the bindings on the patterns that
    apply: a superuser; no binding, and empty matches allowed; or no DENY
    for the principal or its roles and an ALLOW for one of them. -/
def Allowed (a : Authorizer) (applies : ResourcePattern → Prop) (op : AclOperation)
    (p : AclPrincipal) (host : AclHost) : Prop :=
  p ∈ a.superusers ∨
    (¬ Bound a.store applies (fun _ => True) ∧ a.allowEmptyMatches = true) ∨
    (¬ Bound a.store applies (fun e => ∃ q ∈ checkedPrincipals a p, Grants e .deny q (· = op) host) ∧
      Bound a.store applies (fun e => ∃ q ∈ checkedPrincipals a p, Grants e .allow q (Implies · op) host))

instance (a : Authorizer) (applies : ResourcePattern → Prop) [DecidablePred applies]
    (op : AclOperation) (p : AclPrincipal) (host : AclHost) : Decidable (Allowed a applies op p host) :=
  inferInstanceAs (Decidable (p ∈ a.superusers ∨
    (¬ Bound a.store applies (fun _ => True) ∧ a.allowEmptyMatches = true) ∨
    (¬ Bound a.store applies (fun e => ∃ q ∈ checkedPrincipals a p, Grants e .deny q (· = op) host) ∧
      Bound a.store applies
        (fun e => ∃ q ∈ checkedPrincipals a p, Grants e .allow q (Implies · op) host))))

theorem mem_impliedOps {op' op : AclOperation} : op' ∈ impliedOps op ↔ Implies op' op := by
  cases op <;> simp [impliedOps, Implies, or_comm]

theorem entryMatches_iff {e : AclEntry} {op : AclOperation} {q : AclPrincipal} {host : AclHost}
    {perm : AclPermission} : AclEntrySet.entryMatches e op q host perm = true ↔ Grants e perm q (· = op) host := by
  simp [AclEntrySet.entryMatches, Grants, and_assoc]

/-- An entry matches for one of the operations looked up by the ALLOW phase
    exactly when it matches for the operation or one implying it. -/
theorem exists_impliedOps_grants {e : AclEntry} {op : AclOperation} {q : AclPrincipal}
    {host : AclHost} {perm : AclPermission} :
    (∃ op' ∈ impliedOps op, Grants e perm q (· = op') host) ↔ Grants e perm q (Implies · op) host := by
  constructor
  · rintro ⟨op', hop', hperm, hq, hop | hall, hhost⟩
    · exact ⟨hperm, hq, .inl (hop ▸ mem_impliedOps.mp hop'), hhost⟩
    · exact ⟨hperm, hq, .inr hall, hhost⟩
  · rintro ⟨hperm, hq, himp | hall, hhost⟩
    · exact ⟨e.operation, mem_impliedOps.mpr himp, hperm, hq, .inl rfl, hhost⟩
    · exact ⟨op, mem_impliedOps.mpr (.inl rfl), hperm, hq, .inr hall, hhost⟩

/-- A wildcard entry that matches one principal matches every principal. -/
theorem grants_of_ne {e : AclEntry} {perm : AclPermission} {q : AclPrincipal}
    {ops : AclOperation → Prop} {host : AclHost} (h : Grants e perm q ops host)
    (hne : e.principal ≠ q) (p : AclPrincipal) : Grants e perm p ops host := by
  obtain ⟨hperm, hq | hwild, hops, hhost⟩ := h
  · exact absurd hq hne
  · exact ⟨hperm, .inr hwild, hops, hhost⟩

/-- **ROLES ADD ONLY THEIR OWN BINDINGS**: for a user, a binding matches the
    user or one of its roles exactly when it matches the user, or it is a
    binding of one of its roles in an entry set where it matches that role.
    A wildcard binding that matches a role matches the user already. -/
theorem bound_checked_iff (a : Authorizer) (applies : ResourcePattern → Prop) {p : AclPrincipal}
    (perm : AclPermission) (ops : AclOperation → Prop) (host : AclHost) :
    Bound a.store applies (fun e => ∃ q ∈ checkedPrincipals a p, Grants e perm q ops host) ↔
      Bound a.store applies (fun e => Grants e perm p ops host) ∨
        p.type = .user ∧ ∃ n ∈ a.rolesForMember p, ∃ kv ∈ a.store.acls, applies kv.1 ∧
          (∃ e ∈ kv.2.entries, e.principal = ⟨.role, n⟩) ∧
            ∃ e ∈ kv.2.entries, Grants e perm ⟨.role, n⟩ ops host := by
  constructor
  · rintro ⟨kv, hkv, happ, e, he, q, hq, hg⟩
    simp only [checkedPrincipals] at hq
    split at hq
    · rename_i huser
      rcases List.mem_cons.mp hq with rfl | hrole
      · exact .inl ⟨kv, hkv, happ, e, he, hg⟩
      · obtain ⟨n, hn, rfl⟩ := List.mem_map.mp hrole
        by_cases hown : e.principal = ⟨.role, n⟩
        · exact .inr ⟨huser, n, hn, kv, hkv, happ, ⟨e, he, hown⟩, e, he, hg⟩
        · exact .inl ⟨kv, hkv, happ, e, he, grants_of_ne hg hown p⟩
    all_goals
      rw [List.mem_singleton] at hq
      subst hq
      exact .inl ⟨kv, hkv, happ, e, he, hg⟩
  · rintro (⟨kv, hkv, happ, e, he, hg⟩ | ⟨huser, n, hn, kv, hkv, happ, -, e, he, hg⟩)
    · have hp : p ∈ checkedPrincipals a p := by
        simp only [checkedPrincipals]
        split <;> simp
      exact ⟨kv, hkv, happ, e, he, p, hp, hg⟩
    · have hrole : ⟨.role, n⟩ ∈ checkedPrincipals a p := by
        simp only [checkedPrincipals, huser]
        exact List.mem_cons_of_mem _ (List.mem_map_of_mem hn)
      exact ⟨kv, hkv, happ, e, he, _, hrole, hg⟩

/-! ## The phases of `do_authorized` -/

namespace Authorizer

/-- The operations a phase looks up: the requested one for DENY, those that
    imply it for ALLOW. -/
def phaseOps (perm : AclPermission) (op : AclOperation) : List AclOperation :=
  if perm = .allow then impliedOps op else [op]

theorem exists_phaseOps_deny {e : AclEntry} {q : AclPrincipal} {op : AclOperation} {host : AclHost} :
    (∃ op' ∈ phaseOps .deny op, Grants e .deny q (· = op') host) ↔ Grants e .deny q (· = op) host := by
  simp [phaseOps]

theorem exists_phaseOps_allow {e : AclEntry} {q : AclPrincipal} {op : AclOperation} {host : AclHost} :
    (∃ op' ∈ phaseOps .allow op, Grants e .allow q (· = op') host) ↔
      Grants e .allow q (Implies · op) host := by
  simp only [phaseOps, if_true]
  exact exists_impliedOps_grants

/-- `check_access` decides when one of the phase's operations is found. -/
theorem isSome_checkAccess (acls : AclMatches) (op : AclOperation) (host : AclHost)
    (perm : AclPermission) (q : AclPrincipal) :
    (checkAccess acls op host perm q).isSome = true ↔
      ∃ op' ∈ phaseOps perm op, (acls.find op' q host perm).isSome = true := by
  have hentry : (checkAccess acls op host perm q).isSome =
      (if perm = .allow then aclAnyImpliedOpsAllowed acls q host op
        else acls.find op q host perm).isSome := by
    simp only [checkAccess]
    split
    · rename_i h
      rw [h]
      rfl
    · rename_i h
      rw [h]
      split <;> rfl
  rw [hentry, phaseOps]
  split
  · rename_i hallow
    subst hallow
    simp [aclAnyImpliedOpsAllowed, List.findSome?_isSome_iff]
  · simp

/-- A decision of `check_access` allows exactly in the ALLOW phase. -/
theorem isAuthorized_of_checkAccess {acls : AclMatches} {op : AclOperation} {host : AclHost}
    {perm : AclPermission} {q : AclPrincipal} {r : AuthResult}
    (h : checkAccess acls op host perm q = some r) : r.isAuthorized = decide (perm = .allow) := by
  simp only [checkAccess] at h
  split at h
  · cases h
  · split at h <;> cases h <;> rfl

theorem isSome_checkRoleAccess (a : Authorizer) (acls : AclMatches) (op : AclOperation)
    (host : AclHost) (perm : AclPermission) (p : AclPrincipal) :
    (checkRoleAccess a acls op host perm p).isSome = true ↔
      p.type = .user ∧ ∃ n ∈ a.rolesForMember p, (checkAccess acls op host perm ⟨.role, n⟩).isSome = true := by
  simp only [checkRoleAccess]
  split <;> simp_all [List.findSome?_isSome_iff]

theorem isAuthorized_of_checkRoleAccess {a : Authorizer} {acls : AclMatches} {op : AclOperation}
    {host : AclHost} {perm : AclPermission} {p : AclPrincipal} {r : AuthResult}
    (h : checkRoleAccess a acls op host perm p = some r) : r.isAuthorized = decide (perm = .allow) := by
  simp only [checkRoleAccess] at h
  split at h
  · obtain ⟨_, -, hr⟩ := List.exists_of_findSome?_eq_some h
    exact isAuthorized_of_checkAccess hr
  all_goals cases h

/-- The four phases in order: the first that decides wins, and with none the
    request is denied. -/
theorem isAuthorized_phases {o₁ o₂ o₃ o₄ : Option AuthResult}
    (h₁ : ∀ r, o₁ = some r → r.isAuthorized = false) (h₂ : ∀ r, o₂ = some r → r.isAuthorized = false)
    (h₃ : ∀ r, o₃ = some r → r.isAuthorized = true) (h₄ : ∀ r, o₄ = some r → r.isAuthorized = true) :
    ((o₁ <|> o₂ <|> o₃ <|> o₄).getD .noMatch).isAuthorized = true ↔
      ¬ (o₁.isSome = true ∨ o₂.isSome = true) ∧ (o₃.isSome = true ∨ o₄.isSome = true) := by
  cases o₁ with
  | some r => simp [h₁ r rfl]
  | none =>
      cases o₂ with
      | some r => simp [h₂ r rfl]
      | none =>
          cases o₃ with
          | some r => simp [h₃ r rfl]
          | none =>
              cases o₄ with
              | some r => simp [h₄ r rfl]
              | none => simp [AuthResult.isAuthorized]

/-- **THE DECISION OF `do_authorized`**, phase by phase. -/
theorem isAuthorized_doAuthorized (a : Authorizer) (resource : ResourceType) (name : List Char)
    (op : AclOperation) (p : AclPrincipal) (host : AclHost) :
    (a.doAuthorized resource name op p host).isAuthorized = true ↔
      p ∈ a.superusers ∨
        ((a.store.find resource name).isEmpty = true ∧ a.allowEmptyMatches = true) ∨
        ((a.store.find resource name).isEmpty = false ∧
          ¬ ((checkAccess (a.store.find resource name) op host .deny p).isSome = true ∨
            (checkRoleAccess a (a.store.find resource name) op host .deny p).isSome = true) ∧
          ((checkAccess (a.store.find resource name) op host .allow p).isSome = true ∨
            (checkRoleAccess a (a.store.find resource name) op host .allow p).isSome = true)) := by
  simp only [doAuthorized]
  by_cases hsuper : p ∈ a.superusers
  · simp [hsuper, AuthResult.isAuthorized]
  · rw [if_neg hsuper]
    cases hempty : (a.store.find resource name).isEmpty
    · -- bindings in view: the phases decide
      rw [if_neg Bool.false_ne_true]
      rw [isAuthorized_phases (fun _ h => by simpa using isAuthorized_of_checkAccess h)
        (fun _ h => by simpa using isAuthorized_of_checkRoleAccess h)
        (fun _ h => by simpa using isAuthorized_of_checkAccess h)
        (fun _ h => by simpa using isAuthorized_of_checkRoleAccess h)]
      simp [hsuper]
    · simp [hsuper, AuthResult.isAuthorized]

/-! ## The phases over a well-formed store -/

section Phases

variable {store : AclStore} (hwf : store.WellFormed) (resource : ResourceType) (name : List Char)
  (op : AclOperation) (host : AclHost) (perm : AclPermission)
include hwf

/-- `check_access` on the match of a resource looks at the entry sets of the
    patterns in view. -/
theorem isSome_checkAccess_find (q : AclPrincipal) :
    (checkAccess (store.find resource name) op host perm q).isSome = true ↔
      ∃ kv ∈ store.acls, AppliesInView resource name kv.1 ∧
        ∃ op' ∈ phaseOps perm op, (kv.2.find op' q host perm).isSome = true := by
  rw [isSome_checkAccess]
  simp only [AclMatches.find_isSome_iff, exists_sets_find_iff hwf]
  constructor
  · rintro ⟨op', hop, kv, hkv, happ, hfind⟩
    exact ⟨kv, hkv, happ, op', hop, hfind⟩
  · rintro ⟨kv, hkv, happ, op', hop, hfind⟩
    exact ⟨op', hop, kv, hkv, happ, hfind⟩

variable {ops : AclOperation → Prop}
  (hops : ∀ e q, (∃ op' ∈ phaseOps perm op, Grants e perm q (· = op') host) ↔ Grants e perm q ops host)
include hops

/-- The phase of a user or an ephemeral user. -/
theorem isSome_checkAccess_of_not_role {q : AclPrincipal} (hq : q.type ≠ .role) :
    (checkAccess (store.find resource name) op host perm q).isSome = true ↔
      Bound store (AppliesInView resource name) (fun e => Grants e perm q ops host) := by
  rw [isSome_checkAccess_find hwf]
  simp only [AclEntrySet.find_isSome_of_not_role _ hq, entryMatches_iff, Bound]
  -- the scan's entry is the one the rules name
  constructor
  · rintro ⟨kv, hkv, happ, op', hop, e, he, hg⟩
    exact ⟨kv, hkv, happ, e, he, (hops e q).mp ⟨op', hop, hg⟩⟩
  · rintro ⟨kv, hkv, happ, e, he, hg⟩
    obtain ⟨op', hop, hg'⟩ := (hops e q).mpr hg
    exact ⟨kv, hkv, happ, op', hop, e, he, hg'⟩

/-- The phase of a role: only the entry sets that hold a binding of the role
    are scanned. -/
theorem isSome_checkAccess_role (n : List Char) :
    (checkAccess (store.find resource name) op host perm ⟨.role, n⟩).isSome = true ↔
      ∃ kv ∈ store.acls, AppliesInView resource name kv.1 ∧
        (∃ e ∈ kv.2.entries, e.principal = ⟨.role, n⟩) ∧
          ∃ e ∈ kv.2.entries, Grants e perm ⟨.role, n⟩ ops host := by
  rw [isSome_checkAccess_find hwf]
  constructor
  · rintro ⟨kv, hkv, happ, op', hop, hfind⟩
    obtain ⟨hown, e, he, hm⟩ :=
      (AclEntrySet.find_isSome_of_role (hwf.cache_accurate kv hkv) rfl _ _ _).mp hfind
    exact ⟨kv, hkv, happ, hown, e, he, (hops e _).mp ⟨op', hop, entryMatches_iff.mp hm⟩⟩
  · rintro ⟨kv, hkv, happ, hown, e, he, hg⟩
    obtain ⟨op', hop, hg'⟩ := (hops e _).mpr hg
    have hfind := (AclEntrySet.find_isSome_of_role (hwf.cache_accurate kv hkv) rfl op' host perm).mpr
      ⟨hown, e, he, entryMatches_iff.mpr hg'⟩
    exact ⟨kv, hkv, happ, op', hop, hfind⟩

/-- **A PHASE OF `do_authorized` FOLLOWS THE RULES**: the principal's check
    and its roles' checks together find a binding exactly when one matches
    the principal or one of its roles. -/
theorem phase_iff_bound (a : Authorizer) (ha : a.store = store) {p : AclPrincipal}
    (hp : p.type ≠ .role) :
    ((checkAccess (store.find resource name) op host perm p).isSome = true ∨
        (checkRoleAccess a (store.find resource name) op host perm p).isSome = true) ↔
      Bound store (AppliesInView resource name)
        (fun e => ∃ q ∈ checkedPrincipals a p, Grants e perm q ops host) := by
  subst ha
  rw [bound_checked_iff, isSome_checkAccess_of_not_role hwf resource name op host perm hops hp,
    isSome_checkRoleAccess]
  simp only [isSome_checkAccess_role hwf resource name op host perm hops]

end Phases

/-- No binding in view: `acl_matches::empty`. -/
theorem isEmpty_find_iff {store : AclStore} (hwf : store.WellFormed) (resource : ResourceType)
    (name : List Char) :
    (store.find resource name).isEmpty = true ↔
      ¬ Bound store (AppliesInView resource name) (fun _ => True) := by
  rw [AclMatches.isEmpty_iff]
  have hview := exists_sets_find_iff hwf resource name (fun s => ∃ e, e ∈ s.entries)
  simp only [Bound, and_true] at hview ⊢
  constructor
  · intro hall hb
    obtain ⟨s, hs, e, he⟩ := hview.mpr hb
    rw [hall s hs] at he
    exact List.not_mem_nil he
  · intro hnb s hs
    rw [List.eq_nil_iff_forall_not_mem]
    intro e he
    exact hnb (hview.mp ⟨s, hs, e, he⟩)

end Authorizer

open Authorizer in
/-- **THE AUTHORIZER FOLLOWS THE RULES OVER THE PATTERNS IN VIEW**: for
    every store the ACL commands reach, every role membership and every
    request of a user or an ephemeral user, `do_authorized` allows exactly
    what the rules allow when the bindings that apply are those of the
    patterns in view, where a prefixed binding with the empty name applies
    only to the resource with the empty name. -/
theorem authorized_iff_allowed_in_view {a : Authorizer} (hreach : a.store.Reachable)
    (resource : ResourceType) (name : List Char) (op : AclOperation) {p : AclPrincipal}
    (hp : p.type ≠ .role) (host : AclHost) :
    (a.doAuthorized resource name op p host).isAuthorized = true ↔
      Allowed a (AppliesInView resource name) op p host := by
  have hwf := AclStore.wellFormed_of_reachable hreach
  rw [isAuthorized_doAuthorized,
    phase_iff_bound hwf resource name op host .deny (fun _ _ => exists_phaseOps_deny) a rfl hp,
    phase_iff_bound hwf resource name op host .allow (fun _ _ => exists_phaseOps_allow) a rfl hp]
  have hempty := isEmpty_find_iff hwf resource name
  -- an ALLOW binding in view is a binding in view
  have hallow : Bound a.store (AppliesInView resource name)
      (fun e => ∃ q ∈ checkedPrincipals a p, Grants e .allow q (Implies · op) host) →
      Bound a.store (AppliesInView resource name) (fun _ => True) := by
    rintro ⟨kv, hkv, happ, e, he, -⟩
    exact ⟨kv, hkv, happ, e, he, trivial⟩
  unfold Allowed
  cases hE : (a.store.find resource name).isEmpty
  · have hbound : Bound a.store (AppliesInView resource name) (fun _ => True) := by
      by_contra hnb
      rw [← hempty, hE] at hnb
      exact Bool.false_ne_true hnb
    simp [hbound]
  · have hnb := hempty.mp hE
    have hna := mt hallow hnb
    simp [hnb, hna]

/-- A reader allowed on the topics prefixed `or`, and denied writes to `orders`. -/
def readerStore : AclStore :=
  AclStore.empty.addBindings
    [⟨⟨.topic, ['o', 'r'], .prefixed⟩, ⟨⟨.user, ['a']⟩, aclWildcardHost, .read, .allow⟩⟩,
     ⟨⟨.topic, ['o', 'r', 'd', 'e', 'r', 's'], .literal⟩, ⟨⟨.user, ['a']⟩, aclWildcardHost, .write, .deny⟩⟩]

def readerAuthorizer : Authorizer := ⟨readerStore, [], fun _ => [], false⟩

theorem reader_describes_orders :
    readerAuthorizer.store.Reachable ∧ (⟨.user, ['a']⟩ : AclPrincipal).type ≠ .role ∧
      ((readerAuthorizer.doAuthorized .topic ['o', 'r', 'd', 'e', 'r', 's'] .describe ⟨.user, ['a']⟩
          aclWildcardHost).isAuthorized = true ↔
        Allowed readerAuthorizer (AppliesInView .topic ['o', 'r', 'd', 'e', 'r', 's']) .describe
          ⟨.user, ['a']⟩ aclWildcardHost) :=
  ⟨.addBindings _ .empty, by decide,
    authorized_iff_allowed_in_view (.addBindings _ .empty) _ _ _ (by decide) _⟩

/-- A DENY for every user on every topic, as a prefixed binding with the
    empty name, on a cluster that allows empty matches. -/
def emptyPrefixDenyStore : AclStore :=
  AclStore.empty.addBindings
    [⟨⟨.topic, [], .prefixed⟩, ⟨⟨.user, ['*']⟩, aclWildcardHost, .all, .deny⟩⟩]

def emptyPrefixDenyAuthorizer : Authorizer := ⟨emptyPrefixDenyStore, [], fun _ => [], true⟩

theorem empty_prefix_deny_ignored :
    emptyPrefixDenyAuthorizer.store.Reachable ∧
      (emptyPrefixDenyAuthorizer.doAuthorized .topic ['t'] .read ⟨.user, ['u']⟩
        aclWildcardHost).isAuthorized = true ∧
      ¬ Allowed emptyPrefixDenyAuthorizer (Applies .topic ['t']) .read ⟨.user, ['u']⟩
        aclWildcardHost :=
  ⟨.addBindings _ .empty, by decide, by decide⟩

end Security
