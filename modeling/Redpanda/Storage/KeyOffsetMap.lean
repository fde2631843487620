import Mathlib
import Redpanda.Model.Fundamental

/-! # `simple_key_offset_map` — the offset map of windowed compaction

    Model of `storage/key_offset_map.{h,cc}`.  The map sends a compaction key
    to the greatest offset indexed for it.  `put` keeps the greater of the old
    and the new offset for a key it holds, and refuses a new key once it holds
    `max_keys` keys; a refused `put` leaves the map as it was.

    The `absl::btree_map` is modelled by its entries, one per key: the order
    of the entries is never observed by `get`, `put` or `size`, so new keys
    are consed on.  The structure carries the distinctness of its keys, which
    is what makes `size` the number of keys.  `Tracked` adds `_max_offset`,
    which each accepted `put` raises to the offset put.

    The results that the deduplication proofs use are the three facts of
    `put` at the end: every offset the map holds was put
    (`get_put_sound`), a held offset only grows (`get_put_mono`), and an
    accepted `put` leaves at least its offset under its key
    (`get_put_covers`). -/

namespace Compaction

/-- `simple_key_offset_map`: its entries and `_max_keys`. -/
structure SimpleKeyOffsetMap where
  entries : List (List UInt8 × Int)
  maxKeys : Nat
  keys_nodup : (entries.map Prod.fst).Nodup

namespace SimpleKeyOffsetMap

/-- `default_key_limit`, the limit when the constructor gets none. -/
def defaultKeyLimit : Nat := 1000

/-- The constructor `simple_key_offset_map(max_keys)`. -/
def empty (maxKeys : Option Nat) : SimpleKeyOffsetMap :=
  ⟨[], maxKeys.getD defaultKeyLimit, List.nodup_nil⟩

/-- `size()`: the number of keys. -/
def size (m : SimpleKeyOffsetMap) : Nat := m.entries.length

/-- `get(key)`: the offset stored for `key`. -/
def get (m : SimpleKeyOffsetMap) (key : List UInt8) : Option Int :=
  (m.entries.find? (fun e => decide (e.1 = key))).map Prod.snd

/-- The entries with the offset under `key` replaced: `_map[key] = o`. -/
def setOffset (entries : List (List UInt8 × Int)) (key : List UInt8) (o : Int) :
    List (List UInt8 × Int) :=
  entries.map (fun e => if e.1 = key then (key, o) else e)

theorem setOffset_keys (entries : List (List UInt8 × Int)) (key : List UInt8) (o : Int) :
    (setOffset entries key o).map Prod.fst = entries.map Prod.fst := by
  unfold setOffset
  rw [List.map_map]
  apply List.map_congr_left
  intro e _
  by_cases h : e.1 = key
  · simp [h]
  · simp [h]

theorem get_eq_none_iff {m : SimpleKeyOffsetMap} {key : List UInt8} :
    m.get key = none ↔ key ∉ m.entries.map Prod.fst := by
  simp only [get, Option.map_eq_none_iff, List.find?_eq_none, decide_eq_true_eq, List.mem_map,
    not_exists, not_and]

theorem nodup_cons_of_get_eq_none {m : SimpleKeyOffsetMap} {key : List UInt8} (o : Int)
    (h : m.get key = none) : (((key, o) :: m.entries).map Prod.fst).Nodup := by
  rw [List.map_cons, List.nodup_cons]
  exact ⟨get_eq_none_iff.mp h, m.keys_nodup⟩

/-- `put(key, o)`: whether the key was accepted, and the map after. -/
def put (m : SimpleKeyOffsetMap) (key : List UInt8) (o : Int) : Bool × SimpleKeyOffsetMap :=
  match h : m.get key with
  | none =>
      if m.size ≥ m.maxKeys then (false, m)
      else (true, ⟨(key, o) :: m.entries, m.maxKeys, nodup_cons_of_get_eq_none o h⟩)
  | some offset =>
      (true, ⟨setOffset m.entries key (max o offset), m.maxKeys,
        (setOffset_keys m.entries key _).symm ▸ m.keys_nodup⟩)

/-! ## `get` -/

theorem mem_of_get_eq_some {m : SimpleKeyOffsetMap} {key : List UInt8} {v : Int}
    (h : m.get key = some v) : (key, v) ∈ m.entries := by
  obtain ⟨e, hfind, rfl⟩ := Option.map_eq_some_iff.mp h
  have hkey : e.1 = key := by simpa using List.find?_some hfind
  rw [← hkey]
  exact List.mem_of_find?_eq_some hfind

theorem get_eq_some_of_mem {m : SimpleKeyOffsetMap} {key : List UInt8} {v : Int}
    (h : (key, v) ∈ m.entries) : m.get key = some v := by
  have hsome : (m.entries.find? (fun e => decide (e.1 = key))).isSome :=
    List.find?_isSome.mpr ⟨(key, v), h, by simp⟩
  obtain ⟨e, hfind⟩ := Option.isSome_iff_exists.mp hsome
  have hkey : e.1 = key := by simpa using List.find?_some hfind
  have hmem : e ∈ m.entries := List.mem_of_find?_eq_some hfind
  -- two entries under one key are the same entry
  have heq : e = (key, v) := by
    have hfst := List.inj_on_of_nodup_map m.keys_nodup hmem h hkey
    exact hfst
  simp [get, hfind, heq]

theorem get_cons_self (entries : List (List UInt8 × Int)) (maxKeys : Nat)
    (key : List UInt8) (o : Int) (hnd : (((key, o) :: entries).map Prod.fst).Nodup) :
    (⟨(key, o) :: entries, maxKeys, hnd⟩ : SimpleKeyOffsetMap).get key = some o := by
  simp [get]

theorem get_cons_of_ne (entries : List (List UInt8 × Int)) (maxKeys : Nat)
    {key key' : List UInt8} (o : Int) (hnd : (((key, o) :: entries).map Prod.fst).Nodup)
    (hne : key' ≠ key) :
    (⟨(key, o) :: entries, maxKeys, hnd⟩ : SimpleKeyOffsetMap).get key'
      = (entries.find? (fun e => decide (e.1 = key'))).map Prod.snd := by
  simp [get, Ne.symm hne]

theorem get_setOffset_self {m : SimpleKeyOffsetMap} {key : List UInt8} {v : Int} (o : Int)
    (h : m.get key = some v) (hnd : ((setOffset m.entries key o).map Prod.fst).Nodup) :
    (⟨setOffset m.entries key o, m.maxKeys, hnd⟩ : SimpleKeyOffsetMap).get key = some o := by
  apply get_eq_some_of_mem
  have hmem := mem_of_get_eq_some h
  exact List.mem_map.mpr ⟨(key, v), hmem, by simp⟩

theorem get_setOffset_of_ne {m : SimpleKeyOffsetMap} {key key' : List UInt8} (o : Int)
    (hnd : ((setOffset m.entries key o).map Prod.fst).Nodup) (hne : key' ≠ key) :
    (⟨setOffset m.entries key o, m.maxKeys, hnd⟩ : SimpleKeyOffsetMap).get key'
      = m.get key' := by
  simp only [get, setOffset, List.find?_map]
  -- the replaced entry is under `key`, which the search for `key'` skips either way
  have hpred : ((fun e : List UInt8 × Int => decide (e.1 = key')) ∘
      fun e => if e.1 = key then (key, o) else e) = fun e => decide (e.1 = key') := by
    funext e
    by_cases h : e.1 = key
    · simp [h, Ne.symm hne]
    · simp [h]
  rw [hpred]
  cases hfind : m.entries.find? (fun e => decide (e.1 = key')) with
  | none => rfl
  | some e =>
      have hk : e.1 = key' := by simpa using List.find?_some hfind
      simp [hk, hne]

/-! ## `put` -/

/-- A refused `put`: the key is new and the map is full; nothing changes. -/
theorem put_of_full {m : SimpleKeyOffsetMap} {key : List UInt8} (o : Int)
    (h : m.get key = none) (hfull : m.maxKeys ≤ m.size) : m.put key o = (false, m) := by
  unfold put
  split
  · simp [hfull]
  · simp_all

theorem put_of_get_eq_none {m : SimpleKeyOffsetMap} {key : List UInt8} (o : Int)
    (h : m.get key = none) (hroom : m.size < m.maxKeys) :
    m.put key o = (true, ⟨(key, o) :: m.entries, m.maxKeys, nodup_cons_of_get_eq_none o h⟩) := by
  unfold put
  split
  · simp only [ge_iff_le, Nat.not_le.mpr hroom, if_false]
  · simp_all

theorem put_of_get_eq_some {m : SimpleKeyOffsetMap} {key : List UInt8} {v : Int} (o : Int)
    (h : m.get key = some v) :
    m.put key o = (true, ⟨setOffset m.entries key (max o v), m.maxKeys,
      (setOffset_keys m.entries key _).symm ▸ m.keys_nodup⟩) := by
  unfold put
  split
  · simp_all
  · simp_all

/-- A new key on a map with room goes in under its offset. -/
theorem put_new {m : SimpleKeyOffsetMap} {key : List UInt8} (o : Int) (h : m.get key = none)
    (hroom : m.size < m.maxKeys) :
    ∃ m', m.put key o = (true, m') ∧ m'.get key = some o ∧
      ∀ key', key' ≠ key → m'.get key' = m.get key' := by
  refine ⟨_, put_of_get_eq_none o h hroom, get_cons_self _ _ _ _ _, ?_⟩
  intro key' hne
  rw [get_cons_of_ne _ _ _ _ hne]
  rfl

/-- A held key keeps the greater of its offset and the new one. -/
theorem put_held {m : SimpleKeyOffsetMap} {key : List UInt8} {v : Int} (o : Int)
    (h : m.get key = some v) :
    ∃ m', m.put key o = (true, m') ∧ m'.get key = some (max o v) ∧
      ∀ key', key' ≠ key → m'.get key' = m.get key' :=
  ⟨_, put_of_get_eq_some o h, get_setOffset_self _ h _, fun _ hne => get_setOffset_of_ne _ _ hne⟩

/-- What `put` can do: refuse a new key on a full map, add a new key, or
    raise the offset of a held key to the greater of the two. -/
theorem put_cases (m : SimpleKeyOffsetMap) (key : List UInt8) (o : Int) :
    (m.get key = none ∧ m.maxKeys ≤ m.size ∧ m.put key o = (false, m)) ∨
    (m.get key = none ∧ (m.put key o).1 = true ∧
      (m.put key o).2.get key = some o ∧
      ∀ key', key' ≠ key → (m.put key o).2.get key' = m.get key') ∨
    (∃ v, m.get key = some v ∧ (m.put key o).1 = true ∧
      (m.put key o).2.get key = some (max o v) ∧
      ∀ key', key' ≠ key → (m.put key o).2.get key' = m.get key') := by
  cases hget : m.get key with
  | none =>
      by_cases hfull : m.maxKeys ≤ m.size
      · exact .inl ⟨rfl, hfull, put_of_full o hget hfull⟩
      · obtain ⟨m', hput, hself, hother⟩ := put_new o hget (Nat.lt_of_not_le hfull)
        rw [hput]
        exact .inr (.inl ⟨rfl, rfl, hself, hother⟩)
  | some v =>
      obtain ⟨m', hput, hself, hother⟩ := put_held o hget
      rw [hput]
      exact .inr (.inr ⟨v, rfl, rfl, hself, hother⟩)

theorem maxKeys_put (m : SimpleKeyOffsetMap) (key : List UInt8) (o : Int) :
    (m.put key o).2.maxKeys = m.maxKeys := by
  unfold put
  split
  · split <;> rfl
  · rfl

/-- **CAPACITY**: `put` never takes the map past `max_keys` keys. -/
theorem size_put_le {m : SimpleKeyOffsetMap} (key : List UInt8) (o : Int)
    (h : m.size ≤ m.maxKeys) : (m.put key o).2.size ≤ (m.put key o).2.maxKeys := by
  rw [maxKeys_put]
  cases hget : m.get key with
  | none =>
      by_cases hfull : m.maxKeys ≤ m.size
      · rw [put_of_full o hget hfull]
        exact h
      · rw [put_of_get_eq_none o hget (Nat.lt_of_not_le hfull)]
        show m.entries.length + 1 ≤ m.maxKeys
        exact Nat.lt_of_not_le hfull
  | some v =>
      rw [put_of_get_eq_some o hget]
      show (setOffset m.entries key _).length ≤ m.maxKeys
      rw [setOffset, List.length_map]
      exact h

/-- **NOTHING INVENTED**: an offset the map holds after `put` was held
    before, or is the offset put under that key. -/
theorem get_put_sound {m : SimpleKeyOffsetMap} {key key' : List UInt8} {o v : Int}
    (h : (m.put key o).2.get key' = some v) : m.get key' = some v ∨ (key' = key ∧ v = o) := by
  rcases put_cases m key o with ⟨-, -, hput⟩ | ⟨-, -, hself, hother⟩ | ⟨w, hw, -, hself, hother⟩
  · rw [hput] at h
    exact .inl h
  · by_cases hk : key' = key
    · subst hk
      rw [hself] at h
      exact .inr ⟨rfl, (Option.some.inj h).symm⟩
    · rw [hother key' hk] at h
      exact .inl h
  · by_cases hk : key' = key
    · subst hk
      rw [hself] at h
      have hv : v = max o w := (Option.some.inj h).symm
      rcases max_choice o w with hmax | hmax
      · exact .inr ⟨rfl, hv.trans hmax⟩
      · exact .inl (hw.trans (congrArg some (hmax.symm.trans hv.symm)))
    · rw [hother key' hk] at h
      exact .inl h

/-- **ONLY UPWARDS**: an offset held before `put` is held after, or replaced
    by a greater one. -/
theorem get_put_mono {m : SimpleKeyOffsetMap} {key key' : List UInt8} {o v : Int}
    (h : m.get key' = some v) : ∃ v', (m.put key o).2.get key' = some v' ∧ v ≤ v' := by
  rcases put_cases m key o with ⟨-, -, hput⟩ | ⟨hnone, -, -, hother⟩ | ⟨w, hw, -, hself, hother⟩
  · rw [hput]
    exact ⟨v, h, le_refl v⟩
  · have hk : key' ≠ key := by
      rintro rfl
      rw [hnone] at h
      cases h
    exact ⟨v, (hother key' hk).trans h, le_refl v⟩
  · by_cases hk : key' = key
    · subst hk
      have hvw : v = w := Option.some.inj (h.symm.trans hw)
      exact ⟨max o w, hself, hvw ▸ le_max_right o w⟩
    · exact ⟨v, (hother key' hk).trans h, le_refl v⟩

/-- **ACCEPTED MEANS COVERED**: after an accepted `put` the key holds at
    least the offset put. -/
theorem get_put_covers {m : SimpleKeyOffsetMap} {key : List UInt8} {o : Int}
    (h : (m.put key o).1 = true) : ∃ v, (m.put key o).2.get key = some v ∧ o ≤ v := by
  rcases put_cases m key o with ⟨-, -, hput⟩ | ⟨-, -, hself, -⟩ | ⟨w, -, -, hself, -⟩
  · rw [hput] at h
    cases h
  · exact ⟨o, hself, le_refl o⟩
  · exact ⟨max o w, hself, le_max_left o w⟩

theorem size_put_of_get_eq_none {m : SimpleKeyOffsetMap} {key : List UInt8} (o : Int)
    (h : m.get key = none) (hroom : m.size < m.maxKeys) : (m.put key o).2.size = m.size + 1 := by
  rw [put_of_get_eq_none o h hroom]
  rfl

theorem size_put_of_get_eq_some {m : SimpleKeyOffsetMap} {key : List UInt8} {v : Int} (o : Int)
    (h : m.get key = some v) : (m.put key o).2.size = m.size := by
  rw [put_of_get_eq_some o h]
  exact List.length_map _

/-! ## `_max_offset` -/

/-- `simple_key_offset_map` with `_max_offset`. -/
structure Tracked where
  map : SimpleKeyOffsetMap
  maxOffset : Int

/-- The constructor: no keys, and `_max_offset` is `model::offset{}`. -/
def Tracked.empty (maxKeys : Option Nat) : Tracked := ⟨SimpleKeyOffsetMap.empty maxKeys, Model.offsetMin⟩

/-- `put(key, o)`: an accepted key raises `_max_offset` to `o`. -/
def Tracked.put (s : Tracked) (key : List UInt8) (o : Int) : Bool × Tracked :=
  match s.map.put key o with
  | (true, m) => (true, ⟨m, max s.maxOffset o⟩)
  | (false, m) => (false, ⟨m, s.maxOffset⟩)

theorem Tracked.put_of_put {s : Tracked} {key : List UInt8} {o : Int} {b : Bool}
    {m : SimpleKeyOffsetMap} (h : s.map.put key o = (b, m)) :
    s.put key o = (b, ⟨m, if b then max s.maxOffset o else s.maxOffset⟩) := by
  rw [Tracked.put, h]
  cases b <;> rfl

end SimpleKeyOffsetMap

end Compaction
