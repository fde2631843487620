import Mathlib

/-! # ACLs, the ACL store and the authorizer

    Model of `security/acl.{h,cc}`, `security/acl_entry_set.h`,
    `security/acl_store.h` and `authorizer::do_authorized`.

    Names (of resources and principals) are character lists, compared as
    `ss::sstring` compares them; a host is an optional address.  An
    `acl_entry_set` is its entries with the per-role count `_role_cache`;
    the `btree_map` of the store is the list of its patterns with their
    entry sets, and a range `[lower_bound(lo), upper_bound(hi))` of it is
    the patterns between `lo` and `hi` in `resource_pattern_compare`.
    The role store is the function giving the roles of a member.  Which
    matching entry `find` returns first is not modelled: only whether one
    exists decides the request. -/

namespace Security

/-- `resource_type`. -/
inductive ResourceType where
  | topic | group | cluster | transactionalId
deriving DecidableEq, Repr

def ResourceType.code : ResourceType → Nat
  | topic => 0 | group => 1 | cluster => 2 | transactionalId => 3

/-- `pattern_type`. -/
inductive PatternType where
  | literal | prefixed
deriving DecidableEq, Repr

def PatternType.code : PatternType → Nat
  | literal => 0 | prefixed => 1

/-- `acl_operation`. -/
inductive AclOperation where
  | all | read | write | create | remove | alter | describe | clusterAction
  | describeConfigs | alterConfigs | idempotentWrite
deriving DecidableEq, Repr

/-- `acl_permission`. -/
inductive AclPermission where
  | deny | allow
deriving DecidableEq, Repr

/-- `principal_type`. -/
inductive PrincipalType where
  | user | ephemeralUser | role
deriving DecidableEq, Repr

/-- `acl_principal`. -/
structure AclPrincipal where
  type : PrincipalType
  name : List Char
deriving DecidableEq, Repr

/-- `acl_principal::wildcard`: a user or ephemeral user named `*`; a role
    never is one. -/
def AclPrincipal.wildcard (p : AclPrincipal) : Bool :=
  match p.type with
  | .user | .ephemeralUser => p.name == ['*']
  | .role => false

/-- `acl_host`: an address, none for the wildcard host. -/
structure AclHost where
  address : Option Nat
deriving DecidableEq, Repr

/-- `acl_wildcard_host`. -/
def aclWildcardHost : AclHost := ⟨none⟩

/-- `acl_entry`. -/
structure AclEntry where
  principal : AclPrincipal
  host : AclHost
  operation : AclOperation
  permission : AclPermission
deriving DecidableEq, Repr

/-- `resource_pattern`. -/
structure ResourcePattern where
  resource : ResourceType
  name : List Char
  pattern : PatternType
deriving DecidableEq, Repr

/-- `resource_pattern::wildcard`. -/
def resourceWildcard : List Char := ['*']

/-- `acl_binding`. -/
structure AclBinding where
  pattern : ResourcePattern
  entry : AclEntry
deriving DecidableEq, Repr

/-! ## `acl_entry_set` -/

/-- `acl_entry_set`: the entries and, for each role name with bindings,
    their number. -/
structure AclEntrySet where
  entries : List AclEntry
  roleCache : List Char → Option Int

namespace AclEntrySet

def empty : AclEntrySet := ⟨[], fun _ => none⟩

/-- `acl_entry_set::insert`: a new role binding counts for its role. -/
def insert (s : AclEntrySet) (entry : AclEntry) : AclEntrySet :=
  if entry ∈ s.entries then s
  else
    let s := { s with entries := s.entries ++ [entry] }
    if entry.principal.type = .role then
      let count := (s.roleCache entry.principal.name).getD 0
      { s with roleCache := Function.update s.roleCache entry.principal.name (some (count + 1)) }
    else s

/-- `acl_entry_set::remove_if_role`: a removed role binding stops counting,
    and a count that reaches 0 is erased.  (Its `vassert` that the count
    stays non-negative holds since stored counts are positive.) -/
def removeIfRole (s : AclEntrySet) (p : AclPrincipal) : AclEntrySet :=
  if p.type ≠ .role then s
  else
    match s.roleCache p.name with
    | none => s
    | some count =>
        if count - 1 = 0 then { s with roleCache := Function.update s.roleCache p.name none }
        else { s with roleCache := Function.update s.roleCache p.name (some (count - 1)) }

/-- `erase_if` of the entries a predicate picks, followed by
    `remove_if_role` for each of them, as `remove_bindings` does. -/
def eraseMatching (s : AclEntrySet) (pred : AclEntry → Bool) : AclEntrySet :=
  let removed := s.entries.filter pred
  let s := { s with entries := s.entries.filter fun e => !pred e }
  removed.foldl (fun s e => s.removeIfRole e.principal) s

/-- The condition of the loop of `acl_entry_set::find`. -/
def entryMatches (entry : AclEntry) (operation : AclOperation) (principal : AclPrincipal)
    (host : AclHost) (perm : AclPermission) : Bool :=
  entry.permission = perm && (entry.principal = principal || entry.principal.wildcard) &&
    (entry.operation = operation || entry.operation = .all) &&
    (entry.host = host || entry.host = aclWildcardHost)

/-- `acl_entry_set::find`: a role with no binding here is answered from the
    cache without a scan. -/
def find (s : AclEntrySet) (operation : AclOperation) (principal : AclPrincipal) (host : AclHost)
    (perm : AclPermission) : Option AclEntry :=
  if principal.type = .role ∧ (s.roleCache principal.name).isNone then none
  else s.entries.find? fun e => entryMatches e operation principal host perm

def isEmpty (s : AclEntrySet) : Bool := s.entries.isEmpty

end AclEntrySet

/-! ## Binding filters -/

/-- The pattern of a `resource_pattern_filter`: a pattern type, or `match`. -/
inductive PatternFilterType where
  | type (t : PatternType)
  | «match»
deriving DecidableEq, Repr

/-- `resource_pattern_filter`. -/
structure ResourcePatternFilter where
  resource : Option ResourceType
  name : Option (List Char)
  pattern : Option PatternFilterType
deriving DecidableEq, Repr

/-- `resource_pattern_filter::matches`. -/
def ResourcePatternFilter.matches (f : ResourcePatternFilter) (p : ResourcePattern) : Bool :=
  if f.resource.isSome ∧ f.resource ≠ some p.resource then false
  else
    match f.pattern with
    | some (.type t) => if t ≠ p.pattern then false else
        match f.name with
        | none => true
        | some name => name = p.name
    | none =>
        match f.name with
        | none => true
        | some name => name = p.name
    | some .match =>
        match f.name with
        | none => true
        | some name =>
            match p.pattern with
            | .literal => name = p.name || p.name = resourceWildcard
            | .prefixed => p.name.isPrefixOf name

/-- `acl_entry_filter`. -/
structure AclEntryFilter where
  principal : Option AclPrincipal
  host : Option AclHost
  operation : Option AclOperation
  permission : Option AclPermission
deriving DecidableEq, Repr

/-- `acl_entry_filter::matches`. -/
def AclEntryFilter.matches (f : AclEntryFilter) (e : AclEntry) : Bool :=
  (f.principal.all (· = e.principal)) && (f.host.all (· = e.host)) &&
    (f.operation.all (· = e.operation)) && (f.permission.all (· = e.permission))

/-- `acl_binding_filter`. -/
structure AclBindingFilter where
  pattern : ResourcePatternFilter
  entry : AclEntryFilter
deriving DecidableEq, Repr

/-! ## `acl_store` -/

/-- `acl_store`: the patterns with their entry sets. -/
structure AclStore where
  acls : List (ResourcePattern × AclEntrySet)

/-- `resource_pattern_compare`: by resource type, then pattern type, then
    name in reverse. -/
def patternCompare (a b : ResourcePattern) : Bool :=
  if a.resource ≠ b.resource then a.resource.code < b.resource.code
  else if a.pattern ≠ b.pattern then a.pattern.code < b.pattern.code
  else decide (b.name < a.name)

namespace AclStore

def empty : AclStore := ⟨[]⟩

/-- `_acls.find(pattern)`. -/
def lookup (store : AclStore) (p : ResourcePattern) : Option AclEntrySet :=
  (store.acls.find? fun kv => kv.1 = p).map (·.2)

/-- `_acls[pattern]` changed by `f`: an absent pattern is inserted with an
    empty entry set first. -/
def modifyAt (store : AclStore) (p : ResourcePattern) (f : AclEntrySet → AclEntrySet) :
    AclStore :=
  if store.acls.any (fun kv => kv.1 = p) then
    ⟨store.acls.map fun kv => if kv.1 = p then (kv.1, f kv.2) else kv⟩
  else ⟨store.acls ++ [(p, f AclEntrySet.empty)]⟩

/-- `add_bindings`. -/
def addBindings (store : AclStore) (bindings : List AclBinding) : AclStore :=
  bindings.foldl (fun store b => store.modifyAt b.pattern (·.insert b.entry)) store

/-- `reset_bindings`: the store cleared, then every binding inserted. -/
def resetBindings (_store : AclStore) (bindings : List AclBinding) : AclStore :=
  empty.addBindings bindings

/-- `remove_bindings`, its effect on the store.  Each pattern of the store
    is visited with the filters whose pattern filter matches it (the second
    collection pass adds only patterns that are absent, and skipped, or
    already collected), and its entries that one of those filters matches
    are erased, unless this is a dry run. -/
def removeBindings (store : AclStore) (filters : List AclBindingFilter) (dryRun : Bool) :
    AclStore :=
  if dryRun then store
  else
    ⟨store.acls.map fun kv =>
      (kv.1, kv.2.eraseMatching fun e =>
        filters.any fun f => f.pattern.matches kv.1 && f.entry.matches e)⟩

/-- `get_prefix_view`: the prefixed patterns of the resource type between
    `lower_bound(name)` and `upper_bound(name.substr(0, 1))`, kept when the
    resource name starts with theirs. -/
def prefixView (store : AclStore) (resource : ResourceType) (name : List Char) :
    List (ResourcePattern × AclEntrySet) :=
  let lo : ResourcePattern := ⟨resource, name, .prefixed⟩
  let hi : ResourcePattern := ⟨resource, name.take 1, .prefixed⟩
  (store.acls.filter fun kv => !patternCompare kv.1 lo && !patternCompare hi kv.1).filter
    fun kv => kv.1.name.isPrefixOf name

end AclStore

/-- `acl_matches`: the entry sets of the wildcard, the literal and the
    prefixed patterns of a resource. -/
structure AclMatches where
  wildcards : Option AclEntrySet
  literals : Option AclEntrySet
  prefixes : List AclEntrySet

namespace AclMatches

/-- `acl_matches::empty`. -/
def isEmpty (m : AclMatches) : Bool :=
  m.wildcards.all (·.isEmpty) && m.literals.all (·.isEmpty) && m.prefixes.all (·.isEmpty)

/-- `acl_matches::find`: prefixes first, then the wildcard, then the literal. -/
def find (m : AclMatches) (operation : AclOperation) (principal : AclPrincipal) (host : AclHost)
    (perm : AclPermission) : Option AclEntry :=
  (m.prefixes.findSome? fun s => s.find operation principal host perm) <|>
    (m.wildcards.bind fun s => s.find operation principal host perm) <|>
    (m.literals.bind fun s => s.find operation principal host perm)

end AclMatches

/-- `acl_store::find`. -/
def AclStore.find (store : AclStore) (resource : ResourceType) (name : List Char) : AclMatches :=
  { wildcards := store.lookup ⟨resource, resourceWildcard, .literal⟩
    literals := store.lookup ⟨resource, name, .literal⟩
    prefixes := (store.prefixView resource name).map (·.2) }

/-! ## The authorizer -/

/-- The operations an allow binding for each of which grants the request:
    `acl_any_implied_ops_allowed`. -/
def impliedOps : AclOperation → List AclOperation
  | .describe => [.describe, .read, .write, .remove, .alter]
  | .describeConfigs => [.describeConfigs, .alterConfigs]
  | op => [op]

/-- `acl_any_implied_ops_allowed`. -/
def aclAnyImpliedOpsAllowed (acls : AclMatches) (principal : AclPrincipal) (host : AclHost)
    (operation : AclOperation) : Option AclEntry :=
  (impliedOps operation).findSome? fun op => acls.find op principal host .allow

/-- What the authorizer reads besides the store. -/
structure Authorizer where
  store : AclStore
  superusers : List AclPrincipal
  /-- The roles of a member, from the role store. -/
  rolesForMember : AclPrincipal → List (List Char)
  allowEmptyMatches : Bool

/-- The outcome of `do_authorized`, with what decided it. -/
inductive AuthResult where
  | superuser
  | emptyMatch (authorized : Bool)
  | aclMatch (authorized : Bool)
  | roleAclMatch (role : List Char) (authorized : Bool)
  | noMatch
deriving DecidableEq, Repr

def AuthResult.isAuthorized : AuthResult → Bool
  | .superuser => true
  | .emptyMatch a => a
  | .aclMatch a => a
  | .roleAclMatch _ a => a
  | .noMatch => false

namespace Authorizer

/-- `check_access` of `do_authorized`, for the principal or one of its roles. -/
def checkAccess (acls : AclMatches) (operation : AclOperation) (host : AclHost)
    (perm : AclPermission) (toCheck : AclPrincipal) : Option AuthResult :=
  let isAllow := perm = .allow
  let entry := if isAllow then aclAnyImpliedOpsAllowed acls toCheck host operation
    else acls.find operation toCheck host perm
  match entry with
  | none => none
  | some _ =>
      match toCheck.type with
      | .user | .ephemeralUser => some (.aclMatch isAllow)
      | .role => some (.roleAclMatch toCheck.name isAllow)

/-- `check_role_access`: the first role of a user principal that decides;
    an ephemeral user or a role has none. -/
def checkRoleAccess (a : Authorizer) (acls : AclMatches) (operation : AclOperation)
    (host : AclHost) (perm : AclPermission) (principal : AclPrincipal) : Option AuthResult :=
  match principal.type with
  | .user =>
      (a.rolesForMember principal).findSome? fun role =>
        checkAccess acls operation host perm ⟨.role, role⟩
  | .ephemeralUser | .role => none

/-- `authorizer::do_authorized`. -/
def doAuthorized (a : Authorizer) (resource : ResourceType) (resourceName : List Char)
    (operation : AclOperation) (principal : AclPrincipal) (host : AclHost) : AuthResult :=
  let acls := a.store.find resource resourceName
  if principal ∈ a.superusers then .superuser
  else if acls.isEmpty then .emptyMatch a.allowEmptyMatches
  else
    (checkAccess acls operation host .deny principal <|>
      checkRoleAccess a acls operation host .deny principal <|>
      checkAccess acls operation host .allow principal <|>
      checkRoleAccess a acls operation host .allow principal).getD .noMatch

end Authorizer

end Security
