import Redpanda.Lib.SortedSearch
import Redpanda.Security.Authorization

/-! # The prefix range of the ACL store's btree

    `acl_store::_acls` is a `btree_map` ordered by `resource_pattern_compare`:
    resource type, pattern type, then name in reverse.  `get_prefix_view`
    takes the range from `lower_bound` of the prefixed pattern named by the
    resource name to `upper_bound` of the one named by its first character,
    and keeps the patterns whose name the resource name starts with.

    Here the btree is its entries in iteration order, sorted by the
    comparator (`AclBtree`), and the two searches are the lengths of the
    runs at its front, as in `SortedSearch`.  The comparator is a strict
    order (`patternCompare_trans`, `patternCompare_irrefl`), so on sorted
    entries both runs are the entries that qualify and the range is the
    filter that `AclStore.prefixView` states (`getPrefixView_eq_prefixView`).
    For a non-empty name it holds, once each, the stored prefixed patterns
    of the resource type whose name is a non-empty prefix of the name. -/

namespace Security

theorem PatternType.code_inj {a b : PatternType} (h : a.code = b.code) : a = b := by
  cases a <;> cases b <;> simp_all [PatternType.code]

/-! ## The comparator -/

/-- `resource_pattern_compare` is the lexicographic order on resource type,
    pattern type and the name reversed. -/
theorem patternCompare_iff (a b : ResourcePattern) :
    patternCompare a b = true ↔ a.resource.code < b.resource.code ∨
      a.resource = b.resource ∧
        (a.pattern.code < b.pattern.code ∨ a.pattern = b.pattern ∧ b.name < a.name) := by
  unfold patternCompare
  by_cases hr : a.resource = b.resource
  · by_cases hp : a.pattern = b.pattern
    · simp [hr, hp]
    · simp [hr, hp]
  · have hcode : a.resource.code ≠ b.resource.code := fun h => hr (ResourceType.code_inj h)
    simp [hr]

theorem patternCompare_irrefl (a : ResourcePattern) : patternCompare a a = false := by
  rw [Bool.eq_false_iff, ne_eq, patternCompare_iff]
  simp [List.lt_irrefl]

theorem patternCompare_trans {a b c : ResourcePattern} (hab : patternCompare a b = true)
    (hbc : patternCompare b c = true) : patternCompare a c = true := by
  rw [patternCompare_iff] at hab hbc ⊢
  rcases hab with hab | ⟨hr₁, hab⟩ <;> rcases hbc with hbc | ⟨hr₂, hbc⟩
  · exact .inl (by omega)
  · exact .inl (by rw [← hr₂]; exact hab)
  · exact .inl (by rw [hr₁]; exact hbc)
  · refine .inr ⟨hr₁.trans hr₂, ?_⟩
    rcases hab with hab | ⟨hp₁, hab⟩ <;> rcases hbc with hbc | ⟨hp₂, hbc⟩
    · exact .inl (by omega)
    · exact .inl (by rw [← hp₂]; exact hab)
    · exact .inl (by rw [hp₁]; exact hbc)
    · exact .inr ⟨hp₁.trans hp₂, List.lt_trans hbc hab⟩

/-- The pattern named by a name's first character is never below the one
    named by the name: the reversed order puts the longer name first. -/
theorem patternCompare_take_one (resource : ResourceType) (name : List Char) :
    patternCompare ⟨resource, name.take 1, .prefixed⟩ ⟨resource, name, .prefixed⟩ = false := by
  rw [Bool.eq_false_iff, ne_eq, patternCompare_iff]
  simp [PatternType.code, ListLex.not_lt_of_prefix (List.take_prefix 1 name)]

/-! ## The btree -/

/-- `acl_store::_acls`: its entries in iteration order, sorted by
    `resource_pattern_compare`. -/
structure AclBtree where
  acls : List (ResourcePattern × AclEntrySet)
  sorted : acls.Pairwise fun a b => patternCompare a.1 b.1 = true

namespace AclBtree

/-- `lower_bound(p)`: the position of the first entry not below `p`. -/
def lowerBound (t : AclBtree) (p : ResourcePattern) : Nat :=
  (t.acls.takeWhile fun kv => patternCompare kv.1 p).length

/-- `upper_bound(p)`: the position of the first entry above `p`. -/
def upperBound (t : AclBtree) (p : ResourcePattern) : Nat :=
  (t.acls.takeWhile fun kv => !patternCompare p kv.1).length

/-- `get_prefix_view`: the entries from `lower_bound` of the prefixed
    pattern named by `name` to `upper_bound` of the one named by
    `name.substr(0, 1)`, those whose name `name` starts with. -/
def getPrefixView (t : AclBtree) (resource : ResourceType) (name : List Char) :
    List (ResourcePattern × AclEntrySet) :=
  let lo : ResourcePattern := ⟨resource, name, .prefixed⟩
  let hi : ResourcePattern := ⟨resource, name.take 1, .prefixed⟩
  ((t.acls.take (t.upperBound hi)).drop (t.lowerBound lo)).filter
    fun kv => kv.1.name.isPrefixOf name

/-- The patterns of a btree are distinct: the comparator is strict. -/
theorem keys_nodup (t : AclBtree) : (t.acls.map Prod.fst).Nodup := by
  have hs : (t.acls.map Prod.fst).Pairwise fun a b => patternCompare a b = true :=
    List.pairwise_map.2 t.sorted
  refine hs.imp ?_
  rintro a b hab rfl
  rw [patternCompare_irrefl] at hab
  cases hab

/-- **The range scan is the filter**: on the sorted entries the range
    between the two searches holds exactly the entries between the two
    patterns, so `get_prefix_view` returns what `AclStore.prefixView`
    states. -/
theorem getPrefixView_eq_prefixView (t : AclBtree) (resource : ResourceType) (name : List Char) :
    t.getPrefixView resource name = (AclStore.mk t.acls).prefixView resource name := by
  let lo : ResourcePattern := ⟨resource, name, .prefixed⟩
  let hi : ResourcePattern := ⟨resource, name.take 1, .prefixed⟩
  -- below `lo` is a run at the front, and so is not above `hi`
  have hp : t.acls.Pairwise fun a b =>
      patternCompare b.1 lo = true → patternCompare a.1 lo = true :=
    t.sorted.imp fun hab hb => patternCompare_trans hab hb
  have hq : t.acls.Pairwise fun a b =>
      (!patternCompare hi b.1) = true → (!patternCompare hi a.1) = true := by
    refine t.sorted.imp fun hab hb => ?_
    rw [Bool.not_eq_true', ← Bool.not_eq_true] at hb ⊢
    exact fun ha => hb (patternCompare_trans ha hab)
  -- whatever is below `lo` is not above `hi`, since `hi` is not above `lo`
  have hpq : ∀ kv ∈ t.acls, patternCompare kv.1 lo = true → (!patternCompare hi kv.1) = true := by
    intro kv _ hlo
    rw [Bool.not_eq_true', ← Bool.not_eq_true]
    intro hhi
    have := patternCompare_trans hhi hlo
    rw [patternCompare_take_one] at this
    cases this
  simp only [getPrefixView, lowerBound, upperBound, AclStore.prefixView]
  rw [SortedSearch.drop_take_takeWhile _ hp hq hpq]

/-- **The prefix range is exact**: for a non-empty name, `get_prefix_view`
    yields each stored prefixed pattern of the resource type whose name is a
    non-empty prefix of the name, and nothing else, each once. -/
theorem get_prefix_view_exact (t : AclBtree) (resource : ResourceType) {name : List Char}
    (hn : name ≠ []) :
    ((t.getPrefixView resource name).map Prod.fst).Nodup ∧
      ∀ kv, kv ∈ t.getPrefixView resource name ↔ kv ∈ t.acls ∧ kv.1.resource = resource ∧
        kv.1.pattern = .prefixed ∧ kv.1.name ≠ [] ∧ kv.1.name <+: name := by
  rw [getPrefixView_eq_prefixView]
  refine ⟨?_, fun kv => ?_⟩
  · -- a filter of the entries, whose patterns are distinct
    simp only [AclStore.prefixView, List.filter_filter]
    exact t.keys_nodup.sublist (List.filter_sublist.map Prod.fst)
  · simp only [AclStore.prefixView, List.filter_filter, List.mem_filter, Bool.and_eq_true,
      List.isPrefixOf_iff_prefix]
    constructor
    · rintro ⟨hkv, hpre, hrange⟩
      obtain ⟨hres, hpat, hemp⟩ := (inPrefixRange_iff hpre).mp (by simpa using hrange)
      exact ⟨hkv, hres, hpat, fun h => hn (hemp h), hpre⟩
    · rintro ⟨hkv, hres, hpat, hne, hpre⟩
      have hrange := (@inPrefixRange_iff resource _ _ hpre).mpr
        ⟨hres, hpat, fun h => absurd h hne⟩
      exact ⟨hkv, hpre, by simpa using hrange⟩

/-- The prefixed topic patterns `b`, `ab`, `a` and the empty one, in the
    comparator's order. -/
def prefixSample : AclBtree :=
  ⟨[(⟨.topic, ['b'], .prefixed⟩, .empty), (⟨.topic, ['a', 'b'], .prefixed⟩, .empty),
    (⟨.topic, ['a'], .prefixed⟩, .empty), (⟨.topic, [], .prefixed⟩, .empty)], by decide⟩

/-- For `abc` the range runs from `abc` down to `a`, so it skips `b` and the
    empty name, and the scan keeps `ab` and `a`. -/
theorem get_prefix_view_exact_abc :
    ['a', 'b', 'c'] ≠ [] ∧
      ((prefixSample.getPrefixView .topic ['a', 'b', 'c']).map Prod.fst).Nodup ∧
      ∀ kv, kv ∈ prefixSample.getPrefixView .topic ['a', 'b', 'c'] ↔ kv ∈ prefixSample.acls ∧
        kv.1.resource = .topic ∧ kv.1.pattern = .prefixed ∧ kv.1.name ≠ [] ∧
        kv.1.name <+: ['a', 'b', 'c'] :=
  ⟨by decide, get_prefix_view_exact prefixSample .topic (by decide)⟩

example : (prefixSample.getPrefixView .topic ['a', 'b', 'c']).map Prod.fst =
    [⟨.topic, ['a', 'b'], .prefixed⟩, ⟨.topic, ['a'], .prefixed⟩] := by decide

end AclBtree

end Security
