import Mathlib
import Redpanda.Lib.OrderedMap

/-! # `configuration_manager` — the configurations of a raft group by offset

    Model of `raft/configuration_manager.{h,cc}`.  The manager keeps every
    configuration of the group's log in a btree map from offset to the
    configuration and its index, the number the counter `_next_index` gave
    it.  Each public method that changes the map stores it, without the
    indices, in the key-value store; `prefix_truncate` and
    `adjust_configuration_idx` store the first index beside it, and `start`
    on a fresh manager reads both back and numbers the configurations from
    that first index.

    The invariant the manager is written to keep (`Contiguous`): the map is
    not empty, its entries in offset order carry the indices `i0, i0 + 1, …`
    and the counter holds the next one.  It holds of every state reached by
    requests that add configurations past the latest one.  It does not hold
    without that contract: `add_configuration` takes the index from the
    counter before it checks the offset, so an add that throws leaves the
    counter one ahead, and an add below the latest offset gets an index
    above those of the entries after it.

    Offsets and indices are `Int`: the counter would need `2 ^ 63` additions
    to overflow its `int64_t`.  A group configuration is any type with
    equality; its serialisation, its revision (`maybe_set_initial_revision`)
    and the forced override of the latest configuration are not modelled. -/

namespace Raft

/-- `configuration_manager::indexed_configuration`. -/
structure IndexedConfiguration (C : Type) where
  cfg : C
  idx : Int
deriving DecidableEq, Repr

/-- `model::offset{}`: a default-constructed offset is the least `int64_t`. -/
def offsetMin : Int := -2 ^ 63

/-- The state of `configuration_manager` that its methods read and write. -/
structure ConfigurationManager (C : Type) where
  configurations : OrderedMap Int (IndexedConfiguration C)
  highestKnownOffset : Int
  nextIndex : Int
deriving DecidableEq

/-- The exceptions of the manager, with the offsets their messages print. -/
inductive ManagerError where
  /-- "can not truncate with offsets, lower or equal than the first one {}
      included in the manager ". -/
  | truncateAtOrBelowFirst (first : Int)
  /-- "Unable to add configuration at offset {} as it already exists". -/
  | alreadyExists (offset : Int)
deriving DecidableEq, Repr

/-- The keys of the group in the `consensus` key space of the kvstore:
    `config_map`, `config_latest_known_offset` and `config_next_cfg_idx`.
    The map is kept as the list it encodes. -/
structure Kvstore (C : Type) where
  configMap : Option (List (Int × C))
  configLatestKnownOffset : Option Int
  configNextCfgIdx : Option Int
deriving DecidableEq

/-- A group that has stored nothing. -/
def Kvstore.empty {C : Type} : Kvstore C := ⟨none, none, none⟩

namespace ConfigurationManager

variable {C : Type}

/-- The constructor: the initial configuration at `model::offset{}` with
    index `_next_index++`, which is 0. -/
def init (initialCfg : C) : ConfigurationManager C where
  configurations := ⟨[(offsetMin, ⟨initialCfg, 0⟩)], List.pairwise_singleton _ _⟩
  highestKnownOffset := offsetMin
  nextIndex := 1

/-- `add_configuration`: the index is taken from the counter before the
    offset is looked up, so the throw leaves the counter advanced. -/
def addConfiguration (m : ConfigurationManager C) (offset : Int) (cfg : C) :
    ConfigurationManager C × Option ManagerError :=
  let idx := m.nextIndex
  let m := { m with nextIndex := idx + 1 }
  match m.configurations.tryEmplace offset ⟨cfg, idx⟩ with
  | (_, false) => (m, some (.alreadyExists offset))
  | (configurations, true) => ({ m with configurations }, none)

/-- `get`: the configuration at `offset`, or else the one before
    `lower_bound(offset)`. -/
def get (m : ConfigurationManager C) (offset : Int) : Option C :=
  let prev := (m.configurations.before offset).getLast?.map (·.2.cfg)
  match (m.configurations.lowerBound offset).head? with
  | some (k, ic) => if k = offset then some ic.cfg else prev
  | none => prev

/-- `offset_delta`: the index of the configuration before
    `lower_bound(o)`, and one less than the first index when there is
    none. -/
def offsetDelta (m : ConfigurationManager C) (o : Int) : Int :=
  match (m.configurations.before o).getLast?, (m.configurations.lowerBound o).head? with
  | some (_, ic), _ => ic.idx
  | none, some (_, ic) => max 0 (ic.idx - 1)
  -- `begin()` of an empty map, which the manager never has
  | none, none => 0

/-- `serialize_configurations`: the entries in offset order, without their
    indices. -/
def serializeConfigurations (configurations : OrderedMap Int (IndexedConfiguration C)) :
    List (Int × C) :=
  configurations.entries.map fun e => (e.1, e.2.cfg)

/-- The loop of `deserialize_configurations`: the `i`-th configuration read
    gets index `initial + i`, and an offset read twice fails the
    `vassert`. -/
def deserializeFrom (initial : Int) :
    Nat → List (Int × C) → OrderedMap Int (IndexedConfiguration C) →
      Option (OrderedMap Int (IndexedConfiguration C))
  | _, [], configs => some configs
  | i, (key, value) :: rest, configs =>
      match configs.tryEmplace key ⟨value, initial + i⟩ with
      | (configs, true) => deserializeFrom initial (i + 1) rest configs
      | (_, false) => none

/-- `deserialize_configurations`. -/
def deserializeConfigurations (initial : Int) (buf : List (Int × C)) :
    Option (OrderedMap Int (IndexedConfiguration C)) :=
  deserializeFrom initial 0 buf ⟨[], List.Pairwise.nil⟩

end ConfigurationManager

/-- A manager with the keys its group holds in the kvstore. -/
structure ManagerState (C : Type) where
  manager : ConfigurationManager C
  kvs : Kvstore C
deriving DecidableEq

namespace ManagerState

open ConfigurationManager

variable {C : Type}

/-- `store_configurations`. -/
def storeConfigurations (m : ConfigurationManager C) (kvs : Kvstore C) : Kvstore C :=
  { kvs with configMap := some (serializeConfigurations m.configurations) }

/-- `store_highest_known_offset`. -/
def storeHighestKnownOffset (m : ConfigurationManager C) (kvs : Kvstore C) : Kvstore C :=
  { kvs with configLatestKnownOffset := some m.highestKnownOffset }

/-- The manager of a new group, before `start`. -/
def init (initialCfg : C) : ManagerState C := ⟨ConfigurationManager.init initialCfg, Kvstore.empty⟩

/-- `truncate`: removes the configurations from `offset` on; the counter
    restarts at the first index removed. -/
def truncate (s : ManagerState C) (offset : Int) : ManagerState C × Option ManagerError :=
  let m := s.manager
  let nextIndex := match (m.configurations.lowerBound offset).head? with
    | some (_, ic) => ic.idx
    | none => m.nextIndex
  let m' := { m with
    configurations := m.configurations.eraseFrom offset
    nextIndex
    highestKnownOffset := min offset m.highestKnownOffset }
  let truncated := (⟨m', storeConfigurations m' (storeHighestKnownOffset m' s.kvs)⟩, none)
  match m.configurations.entries.head? with
  | some (first, _) => if offset ≤ first then (s, some (.truncateAtOrBelowFirst first)) else truncated
  -- `begin()` of an empty map, which the manager never has
  | none => truncated

/-- `prefix_truncate`: removes the configurations up to `offset` and moves
    the last of them to `offset`, with its index, which is stored as the
    first index. -/
def prefixTruncate (s : ManagerState C) (offset : Int) : ManagerState C :=
  let m := s.manager
  match m.configurations.entries.head?, (m.configurations.upTo offset).getLast? with
  | some (first, _), some (_, config) =>
      if offset ≤ first then s
      else
        let configurations := ((m.configurations.eraseUpTo offset).tryEmplace offset config).1
        let m' := { m with
          configurations
          highestKnownOffset := max offset m.highestKnownOffset }
        let nextIndex := (configurations.entries.head?.map (·.2.idx)).getD 0
        ⟨m', storeConfigurations m'
          { storeHighestKnownOffset m' s.kvs with configNextCfgIdx := some nextIndex }⟩
  -- nothing at or below `offset`, or the empty map the `vassert` rules out
  | _, _ => s

/-- `add(offset, cfg)`: nothing when the offset holds this very
    configuration (the last batch of a snapshot), else `add_configuration`
    and the stores. -/
def add [DecidableEq C] (s : ManagerState C) (offset : Int) (cfg : C) :
    ManagerState C × Option ManagerError :=
  if (s.manager.configurations.find offset).map (·.cfg) = some cfg then (s, none)
  else
    match s.manager.addConfiguration offset cfg with
    | (m, some e) => ({ s with manager := m }, some e)
    | (m, none) =>
        let m := { m with highestKnownOffset := max offset m.highestKnownOffset }
        (⟨m, storeHighestKnownOffset m (storeConfigurations m s.kvs)⟩, none)

/-- The loop of `add(chunked_vector<offset_configuration>)`: the first
    throw ends it with what was added so far. -/
def addEach (m : ConfigurationManager C) :
    List (Int × C) → ConfigurationManager C × Option ManagerError
  | [] => (m, none)
  | (offset, cfg) :: rest =>
      match m.addConfiguration offset cfg with
      | (m, some e) => (m, some e)
      | (m, none) => addEach { m with highestKnownOffset := max m.highestKnownOffset offset } rest

/-- `add(chunked_vector<offset_configuration>)`: the stores follow the loop,
    so a throw stores nothing. -/
def addAll (s : ManagerState C) (configurations : List (Int × C)) :
    ManagerState C × Option ManagerError :=
  match addEach s.manager configurations with
  | (m, some e) => ({ s with manager := m }, some e)
  | (m, none) => (⟨m, storeHighestKnownOffset m (storeConfigurations m s.kvs)⟩, none)

/-- `adjust_configuration_idx`: numbers the configurations from
    `newInitialIdx` and stores it as the first index. -/
def adjustConfigurationIdx (s : ManagerState C) (newInitialIdx : Int) : ManagerState C :=
  let configurations := s.manager.configurations.mapIdx fun i ic =>
    { ic with idx := newInitialIdx + i }
  ⟨{ s.manager with
      configurations
      nextIndex := newInitialIdx + configurations.entries.length },
    { s.kvs with configNextCfgIdx := some newInitialIdx }⟩

/-- `start(reset, initial_revision)`; `none` when a `vassert` of the
    deserialisation fails. -/
def start (s : ManagerState C) (reset : Bool) : Option (ManagerState C) :=
  if reset then some ⟨s.manager, { s.kvs with configMap := none, configLatestKnownOffset := none }⟩
  else do
    let m ← match s.kvs.configMap with
      | none => some s.manager
      | some buf => do
          let nextIndex := s.kvs.configNextCfgIdx.getD 0
          let configurations ← deserializeConfigurations nextIndex buf
          let m := { s.manager with configurations, nextIndex }
          pure <| match configurations.entries.getLast? with
            | some (o, ic) => { m with highestKnownOffset := o, nextIndex := ic.idx + 1 }
            | none => m
    let m := match s.kvs.configLatestKnownOffset with
      | some o => { m with highestKnownOffset := max m.highestKnownOffset o }
      | none => m
    pure ⟨m, s.kvs⟩

end ManagerState

/-! ## Indices -/

namespace ConfigurationManager

variable {C : Type}

/-- The entries carry the indices `i0, i0 + 1, …` in order. -/
def IndexedFrom (i0 : Int) (l : List (Int × IndexedConfiguration C)) : Prop :=
  ∀ i (hi : i < l.length), l[i].2.idx = i0 + i

theorem indexedFrom_append {i0 : Int} {a b : List (Int × IndexedConfiguration C)} :
    IndexedFrom i0 (a ++ b) ↔ IndexedFrom i0 a ∧ IndexedFrom (i0 + a.length) b := by
  constructor
  · intro h
    refine ⟨fun i hi => ?_, fun j hj => ?_⟩
    · have := h i (by rw [List.length_append]; omega)
      rwa [List.getElem_append_left hi] at this
    · have := h (a.length + j) (by rw [List.length_append]; omega)
      rw [List.getElem_append_right (by omega)] at this
      simp only [Nat.add_sub_cancel_left] at this
      rw [this]
      omega
  · rintro ⟨ha, hb⟩ i hi
    rw [List.getElem_append]
    split
    · exact ha i ‹_›
    · rename_i hle
      rw [List.length_append] at hi
      rw [hb (i - a.length) (by omega)]
      omega

theorem indexedFrom_singleton {i0 : Int} {e : Int × IndexedConfiguration C} :
    IndexedFrom i0 [e] ↔ e.2.idx = i0 := by
  constructor
  · intro h
    simpa using h 0 (by simp)
  · intro h i hi
    have hi0 : i = 0 := by simpa using hi
    subst hi0
    simpa using h

/-- The last entry's index is one below the index that follows the list. -/
theorem IndexedFrom.getLast? {i0 : Int} {l : List (Int × IndexedConfiguration C)}
    (h : IndexedFrom i0 l) {e : Int × IndexedConfiguration C} (hlast : l.getLast? = some e) :
    e.2.idx + 1 = i0 + l.length := by
  obtain ⟨ys, rfl⟩ := List.getLast?_eq_some_iff.mp hlast
  obtain ⟨-, he⟩ := indexedFrom_append.mp h
  rw [indexedFrom_singleton.mp he, List.length_append, List.length_singleton]
  omega

/-- The invariant the manager keeps: a non-empty map whose entries, in
    offset order, carry the indices `i0, i0 + 1, …`, and the counter at the
    index after them. -/
structure Contiguous (i0 : Int) (m : ConfigurationManager C) : Prop where
  nonempty : m.configurations.entries ≠ []
  indices : IndexedFrom i0 m.configurations.entries
  nextIndex : m.nextIndex = i0 + m.configurations.entries.length

theorem contiguous_init (initialCfg : C) : Contiguous 0 (init initialCfg) where
  nonempty := List.cons_ne_nil _ _
  indices := indexedFrom_singleton.mpr rfl
  nextIndex := rfl

/-- Adding past every offset present appends the configuration with the
    counter's index. -/
theorem addConfiguration_of_lt {m : ConfigurationManager C} {offset : Int} (cfg : C)
    (h : ∀ e ∈ m.configurations.entries, e.1 < offset) :
    ∃ configurations : OrderedMap Int (IndexedConfiguration C),
      configurations.entries = m.configurations.entries ++ [(offset, ⟨cfg, m.nextIndex⟩)] ∧
      m.addConfiguration offset cfg = ({ m with configurations, nextIndex := m.nextIndex + 1 }, none) := by
  obtain ⟨hentries, hflag⟩ := OrderedMap.tryEmplace_of_lt ⟨cfg, m.nextIndex⟩ h
  rcases hp : m.configurations.tryEmplace offset ⟨cfg, m.nextIndex⟩ with ⟨configurations, flag⟩
  rw [hp] at hentries hflag
  subst hflag
  refine ⟨configurations, hentries, ?_⟩
  unfold addConfiguration
  dsimp only
  rw [hp]

/-- Adding at an offset present throws, and the counter has moved on. -/
theorem addConfiguration_of_mem {m : ConfigurationManager C} {offset : Int} (cfg : C)
    (h : ∃ e ∈ m.configurations.entries, e.1 = offset) :
    m.addConfiguration offset cfg =
      ({ m with nextIndex := m.nextIndex + 1 }, some (.alreadyExists offset)) := by
  simp only [addConfiguration, OrderedMap.tryEmplace_of_mem _ h]

/-- Appending a configuration with the counter's index keeps the indices
    contiguous. -/
theorem Contiguous.append {i0 : Int} {m : ConfigurationManager C} (hc : Contiguous i0 m)
    {configurations : OrderedMap Int (IndexedConfiguration C)} {offset : Int} {cfg : C}
    (hentries : configurations.entries = m.configurations.entries ++ [(offset, ⟨cfg, m.nextIndex⟩)]) :
    Contiguous i0 { m with configurations, nextIndex := m.nextIndex + 1 } where
  nonempty := by simp [hentries]
  indices := by
    show IndexedFrom i0 configurations.entries
    rw [hentries]
    exact indexedFrom_append.mpr ⟨hc.indices, indexedFrom_singleton.mpr hc.nextIndex⟩
  nextIndex := by
    show m.nextIndex + 1 = i0 + configurations.entries.length
    rw [hentries, List.length_append, List.length_singleton, hc.nextIndex]
    omega

/-- The highest known offset plays no part in the indices. -/
theorem Contiguous.withHighestKnownOffset {i0 : Int} {m : ConfigurationManager C}
    (hc : Contiguous i0 m) (o : Int) : Contiguous i0 { m with highestKnownOffset := o } :=
  ⟨hc.nonempty, hc.indices, hc.nextIndex⟩

theorem IndexedFrom.head? {i0 : Int} {l : List (Int × IndexedConfiguration C)}
    (h : IndexedFrom i0 l) {e : Int × IndexedConfiguration C} (hhead : l.head? = some e) :
    e.2.idx = i0 := by
  cases l with
  | nil => simp at hhead
  | cons x xs =>
      rw [List.head?_cons, Option.some.injEq] at hhead
      subst hhead
      have := h 0 (by simp)
      simp only [List.getElem_cons_zero] at this
      omega

/-! ## Reading the map back -/

/-- Reading back offsets in increasing order, each past the offsets already
    in the map, inserts every configuration: the indices go on from those
    present, and the map serialises to what it held and what was read. -/
theorem deserializeFrom_of_sorted (initial : Int) :
    ∀ (buf : List (Int × C)) (configs : OrderedMap Int (IndexedConfiguration C)),
      buf.Pairwise (fun a b => a.1 < b.1) → (∀ e ∈ configs.entries, ∀ b ∈ buf, e.1 < b.1) →
      IndexedFrom initial configs.entries →
      ∃ result, deserializeFrom initial configs.entries.length buf configs = some result ∧
        IndexedFrom initial result.entries ∧
        serializeConfigurations result = serializeConfigurations configs ++ buf
  | [], configs, _, _, hidx => ⟨configs, rfl, hidx, by simp⟩
  | (key, value) :: rest, configs, hbuf, hlt, hidx => by
      rw [List.pairwise_cons] at hbuf
      -- the next offset goes past the map: it is appended with the next index
      obtain ⟨hentries, hflag⟩ := OrderedMap.tryEmplace_of_lt
        ⟨value, initial + configs.entries.length⟩ fun e he => hlt e he _ List.mem_cons_self
      set configs' := (configs.tryEmplace key ⟨value, initial + configs.entries.length⟩).1
      have hidx' : IndexedFrom initial configs'.entries := by
        rw [hentries]
        exact indexedFrom_append.mpr ⟨hidx, indexedFrom_singleton.mpr rfl⟩
      have hlt' : ∀ e ∈ configs'.entries, ∀ b ∈ rest, e.1 < b.1 := by
        intro e he b hb
        rw [hentries, List.mem_append, List.mem_singleton] at he
        rcases he with he | rfl
        · exact hlt e he b (List.mem_cons_of_mem _ hb)
        · exact hbuf.1 b hb
      obtain ⟨result, hres, hidxr, hser⟩ := deserializeFrom_of_sorted initial rest configs' hbuf.2 hlt' hidx'
      have hlen : configs'.entries.length = configs.entries.length + 1 := by
        rw [hentries, List.length_append, List.length_singleton]
      refine ⟨result, ?_, hidxr, ?_⟩
      · rw [deserializeFrom, show configs.tryEmplace key ⟨value, initial + configs.entries.length⟩ =
          (configs', true) from Prod.ext rfl hflag, ← hlen]
        exact hres
      · rw [hser]
        simp [serializeConfigurations, hentries]

/-! ## `get` and `offset_delta` -/

/-- `get` returns the configuration with the greatest offset at or below
    `offset`, and nothing when every offset is above it. -/
theorem get_spec (m : ConfigurationManager C) (offset : Int) :
    (∀ c, m.get offset = some c → ∃ e, m.configurations.IsGreatest (· ≤ offset) e ∧ e.2.cfg = c) ∧
      (m.get offset = none → ∀ e ∈ m.configurations.entries, offset < e.1) := by
  suffices h : (m.get offset).elim (∀ e ∈ m.configurations.entries, offset < e.1)
      fun c => ∃ e, m.configurations.IsGreatest (· ≤ offset) e ∧ e.2.cfg = c by
    refine ⟨fun c hc => ?_, fun hn => ?_⟩
    · rw [hc] at h
      exact h
    · rw [hn] at h
      exact h
  set M := m.configurations
  -- with no entry at `offset` itself, the answer is the entry before `lower_bound`
  have hprev : (∀ e ∈ M.entries, e.1 ≠ offset) →
      ((M.before offset).getLast?.map (·.2.cfg)).elim (∀ e ∈ M.entries, offset < e.1)
        fun c => ∃ e, M.IsGreatest (· ≤ offset) e ∧ e.2.cfg = c := by
    intro hne
    cases hlast : (M.before offset).getLast? with
    | none =>
        intro e he
        exact lt_of_le_of_ne (OrderedMap.before_eq_nil (List.getLast?_eq_none_iff.mp hlast) e he)
          (hne e he).symm
    | some e =>
        obtain ⟨he, hlt, hmax⟩ := OrderedMap.getLast?_before hlast
        show ∃ e', M.IsGreatest (· ≤ offset) e' ∧ e'.2.cfg = e.2.cfg
        exact ⟨e, ⟨he, hlt.le, fun e' he' hle => hmax e' he' (lt_of_le_of_ne hle (hne e' he'))⟩, rfl⟩
  unfold get
  dsimp only
  rcases hh : (M.lowerBound offset).head? with _ | ⟨k, ic⟩
  · refine hprev fun e he hk => ?_
    obtain ⟨h, hh', -⟩ := M.head?_lowerBound_of_mem he hk
    rw [hh] at hh'
    cases hh'
  · dsimp only
    by_cases hk : k = offset
    · rw [if_pos hk]
      show ∃ e, M.IsGreatest (· ≤ offset) e ∧ e.2.cfg = ic.cfg
      exact ⟨(k, ic), ⟨(List.dropWhile_suffix _).subset (List.mem_of_mem_head? hh), hk.le,
        fun e' _ hle => hk ▸ hle⟩, rfl⟩
    · rw [if_neg hk]
      refine hprev fun e he hek => hk ?_
      obtain ⟨h, hh', hh1⟩ := M.head?_lowerBound_of_mem he hek
      rw [hh, Option.some.injEq] at hh'
      rw [← hh'] at hh1
      exact hh1

/-- `offset_delta o` is the index of the configuration with the greatest
    offset below `o`, and `max 0 (i0 - 1)` when every offset is at or above
    `o`. -/
theorem offsetDelta_spec {i0 : Int} {m : ConfigurationManager C} (hc : Contiguous i0 m) (o : Int) :
    (∃ e, m.configurations.IsGreatest (· < o) e ∧ m.offsetDelta o = e.2.idx) ∨
      ((∀ e ∈ m.configurations.entries, o ≤ e.1) ∧ m.offsetDelta o = max 0 (i0 - 1)) := by
  cases hlast : (m.configurations.before o).getLast? with
  | some e =>
      refine Or.inl ⟨e, OrderedMap.getLast?_before hlast, ?_⟩
      simp only [offsetDelta, hlast]
  | none =>
      have hnil : m.configurations.before o = [] := List.getLast?_eq_none_iff.mp hlast
      -- nothing before `lower_bound`: it is `begin()`, the first entry
      have hlower : m.configurations.lowerBound o = m.configurations.entries := by
        simpa [hnil] using m.configurations.before_append_lowerBound o
      obtain ⟨first, rest, hentries⟩ := List.exists_cons_of_ne_nil hc.nonempty
      have hfirst : first.2.idx = i0 := by
        have := hc.indices 0 (by simp [hentries])
        simpa [hentries] using this
      refine Or.inr ⟨OrderedMap.before_eq_nil hnil, ?_⟩
      simp only [offsetDelta, hlast, hlower, hentries, List.head?_cons, hfirst]

end ConfigurationManager

/-! ## The manager with its keys, request by request -/

namespace ManagerState

open ConfigurationManager

variable {C : Type}

/-- What `start` can read back: no map, or a non-empty one in increasing
    offset order. -/
def KvsReadable (kvs : Kvstore C) : Prop :=
  ∀ buf, kvs.configMap = some buf → buf ≠ [] ∧ buf.Pairwise (fun a b => a.1 < b.1)

/-- The invariant of a manager with its keys. -/
structure Inv (s : ManagerState C) : Prop where
  contiguous : ∃ i0, Contiguous i0 s.manager
  readable : KvsReadable s.kvs

theorem readable_storeConfigurations {m : ConfigurationManager C} (kvs : Kvstore C)
    (h : m.configurations.entries ≠ []) : KvsReadable (storeConfigurations m kvs) := by
  intro buf hbuf
  simp only [storeConfigurations, Option.some.injEq] at hbuf
  subst hbuf
  exact ⟨by simpa [serializeConfigurations] using h, List.pairwise_map.mpr m.configurations.sorted⟩

theorem inv_init (initialCfg : C) : Inv (init initialCfg) :=
  ⟨⟨0, contiguous_init initialCfg⟩, fun _ h => by cases h⟩

theorem Inv.truncate {s : ManagerState C} (h : Inv s) (offset : Int) : Inv (s.truncate offset).1 := by
  obtain ⟨⟨i0, hc⟩, hkvs⟩ := h
  obtain ⟨⟨first, ic0⟩, rest, hentries⟩ := List.exists_cons_of_ne_nil hc.nonempty
  by_cases hle : offset ≤ first
  · -- at or below the first offset: the throw, before any change
    have hthrow : (s.truncate offset).1 = s := by
      simp only [ManagerState.truncate, hentries, List.head?_cons, if_pos hle]
    rw [hthrow]
    exact ⟨⟨i0, hc⟩, hkvs⟩
  · simp only [ManagerState.truncate, hentries, List.head?_cons, if_neg hle]
    set M := s.manager.configurations
    have hsplit : IndexedFrom i0 (M.before offset) ∧
        IndexedFrom (i0 + (M.before offset).length) (M.lowerBound offset) := by
      rw [← indexedFrom_append, M.before_append_lowerBound offset]
      exact hc.indices
    -- the first entry is below `offset`, so it stays
    have hkept : M.before offset ≠ [] := by
      simp [M, OrderedMap.before, hentries, not_le.mp hle]
    have hnext : (match (M.lowerBound offset).head? with
        | some (_, ic) => ic.idx
        | none => s.manager.nextIndex) = i0 + (M.before offset).length := by
      cases hh : (M.lowerBound offset).head? with
      | some e => exact hsplit.2.head? hh
      | none =>
          have hall : M.before offset = M.entries := by
            simpa [List.head?_eq_none_iff.mp hh] using M.before_append_lowerBound offset
          rw [hc.nextIndex, hall]
    refine ⟨⟨i0, ⟨hkept, hsplit.1, hnext⟩⟩, readable_storeConfigurations _ hkept⟩

theorem Inv.prefixTruncate {s : ManagerState C} (h : Inv s) (offset : Int) :
    Inv (s.prefixTruncate offset) := by
  obtain ⟨⟨i0, hc⟩, hkvs⟩ := h
  obtain ⟨⟨first, ic0⟩, rest, hentries⟩ := List.exists_cons_of_ne_nil hc.nonempty
  cases hlast : (s.manager.configurations.upTo offset).getLast? with
  | none =>
      -- nothing at or below `offset`
      have hsame : s.prefixTruncate offset = s := by
        simp only [ManagerState.prefixTruncate, hentries, List.head?_cons, hlast]
      rw [hsame]
      exact ⟨⟨i0, hc⟩, hkvs⟩
  | some last =>
      obtain ⟨k, config⟩ := last
      by_cases hle : offset ≤ first
      · have hsame : s.prefixTruncate offset = s := by
          simp only [ManagerState.prefixTruncate, hentries, List.head?_cons, hlast, if_pos hle]
        rw [hsame]
        exact ⟨⟨i0, hc⟩, hkvs⟩
      · simp only [ManagerState.prefixTruncate, hentries, List.head?_cons, hlast, if_neg hle]
        set M := s.manager.configurations
        obtain ⟨ys, hys⟩ := List.getLast?_eq_some_iff.mp hlast
        -- the entries are `ys`, the last one at or below `offset`, and those above it
        have hsplit : IndexedFrom i0 ys ∧ config.idx = i0 + ys.length ∧
            IndexedFrom (i0 + ys.length + 1) (M.upperBound offset) := by
          have h₁ := hc.indices
          rw [← M.upTo_append_upperBound offset, hys, indexedFrom_append, indexedFrom_append,
            List.length_append, List.length_singleton, indexedFrom_singleton] at h₁
          refine ⟨h₁.1.1, h₁.1.2, ?_⟩
          rw [show i0 + ys.length + 1 = i0 + ((ys.length + 1 : Nat) : Int) by omega]
          exact h₁.2
        have hlen : M.entries.length = ys.length + 1 + (M.upperBound offset).length := by
          rw [← M.upTo_append_upperBound offset, hys, List.length_append, List.length_append,
            List.length_singleton]
        -- every entry left is above `offset`, so the moved one goes first
        obtain ⟨hentries', -⟩ := OrderedMap.tryEmplace_of_gt (m := M.eraseUpTo offset) config
          fun e he => M.lt_of_mem_upperBound offset he
        have hnonempty : ((M.eraseUpTo offset).tryEmplace offset config).1.entries ≠ [] := by
          rw [hentries']
          exact List.cons_ne_nil _ _
        refine ⟨⟨i0 + ys.length, ⟨hnonempty, ?_, ?_⟩⟩, readable_storeConfigurations _ hnonempty⟩
        · show IndexedFrom _ ((M.eraseUpTo offset).tryEmplace offset config).1.entries
          rw [hentries', ← List.singleton_append, indexedFrom_append, indexedFrom_singleton]
          exact ⟨hsplit.2.1, by simpa [OrderedMap.eraseUpTo] using hsplit.2.2⟩
        · show s.manager.nextIndex =
            i0 + ys.length + ((M.eraseUpTo offset).tryEmplace offset config).1.entries.length
          rw [hentries', hc.nextIndex, hlen, List.length_cons]
          show i0 + ((ys.length + 1 + (M.upperBound offset).length : Nat) : Int) =
            i0 + ys.length + (((M.upperBound offset).length + 1 : Nat) : Int)
          omega

theorem Inv.adjustConfigurationIdx {s : ManagerState C} (h : Inv s) (newInitialIdx : Int) :
    Inv (s.adjustConfigurationIdx newInitialIdx) := by
  obtain ⟨⟨i0, hc⟩, hkvs⟩ := h
  set configurations := s.manager.configurations.mapIdx fun i ic => { ic with idx := newInitialIdx + i }
  have hlen : configurations.entries.length = s.manager.configurations.entries.length :=
    List.length_mapIdx
  refine ⟨⟨newInitialIdx, ⟨?_, ?_, rfl⟩⟩, hkvs⟩
  · show configurations.entries ≠ []
    intro hnil
    apply hc.nonempty
    rw [← List.length_eq_zero_iff, ← hlen, hnil, List.length_nil]
  · intro i hi
    show configurations.entries[i].2.idx = newInitialIdx + i
    simp [configurations, OrderedMap.mapIdx]

/-- The contract of the callers of `add`: an offset past every one present,
    or one that holds this very configuration. -/
def AddsAt [DecidableEq C] (m : ConfigurationManager C) (offset : Int) (cfg : C) : Prop :=
  (∀ e ∈ m.configurations.entries, e.1 < offset) ∨ (m.configurations.find offset).map (·.cfg) = some cfg

theorem Inv.add [DecidableEq C] {s : ManagerState C} (h : Inv s) {offset : Int} {cfg : C}
    (hadd : AddsAt s.manager offset cfg) : Inv (s.add offset cfg).1 := by
  obtain ⟨⟨i0, hc⟩, hkvs⟩ := h
  by_cases hsame : (s.manager.configurations.find offset).map (·.cfg) = some cfg
  · -- the configuration is already there
    simp only [ManagerState.add, if_pos hsame]
    exact ⟨⟨i0, hc⟩, hkvs⟩
  · obtain ⟨configurations, hentries, hconf⟩ := addConfiguration_of_lt cfg (hadd.resolve_right hsame)
    have hc' := hc.append hentries
    simp only [ManagerState.add, if_neg hsame, hconf]
    exact ⟨⟨i0, hc'.nonempty, hc'.indices, hc'.nextIndex⟩, readable_storeConfigurations s.kvs hc'.nonempty⟩

/-- An add at an offset that holds another configuration throws: the map
    and the keys stay as they were, and the counter has moved on. -/
theorem add_of_mem [DecidableEq C] {s : ManagerState C} {offset : Int} {cfg : C}
    (hother : (s.manager.configurations.find offset).map (·.cfg) ≠ some cfg)
    (hmem : ∃ e ∈ s.manager.configurations.entries, e.1 = offset) :
    s.add offset cfg =
      ({ s with manager := { s.manager with nextIndex := s.manager.nextIndex + 1 } },
        some (.alreadyExists offset)) := by
  simp only [ManagerState.add, if_neg hother, addConfiguration_of_mem cfg hmem]

/-- The loop of the batch `add` appends configurations at increasing
    offsets past the map without a throw. -/
theorem addEach_of_sorted {i0 : Int} :
    ∀ (cs : List (Int × C)) (m : ConfigurationManager C), Contiguous i0 m →
      cs.Pairwise (fun a b => a.1 < b.1) → (∀ e ∈ m.configurations.entries, ∀ c ∈ cs, e.1 < c.1) →
      (addEach m cs).2 = none ∧ Contiguous i0 (addEach m cs).1
  | [], _, hc, _, _ => ⟨rfl, hc⟩
  | (offset, cfg) :: rest, m, hc, hcs, hlt => by
      rw [List.pairwise_cons] at hcs
      obtain ⟨configurations, hentries, hconf⟩ :=
        addConfiguration_of_lt cfg fun e he => hlt e he _ List.mem_cons_self
      have hc' := hc.append hentries
      have hlt' : ∀ e ∈ configurations.entries, ∀ c ∈ rest, e.1 < c.1 := by
        intro e he c hc
        rw [hentries, List.mem_append, List.mem_singleton] at he
        rcases he with he | rfl
        · exact hlt e he c (List.mem_cons_of_mem _ hc)
        · exact hcs.1 c hc
      simp only [addEach, hconf]
      exact addEach_of_sorted rest _ ⟨hc'.nonempty, hc'.indices, hc'.nextIndex⟩ hcs.2 hlt'

/-- The contract of the callers of the batch `add`: increasing offsets past
    every one present. -/
def AddsAllAt (m : ConfigurationManager C) (cs : List (Int × C)) : Prop :=
  cs.Pairwise (fun a b => a.1 < b.1) ∧ ∀ e ∈ m.configurations.entries, ∀ c ∈ cs, e.1 < c.1

theorem Inv.addAll {s : ManagerState C} (h : Inv s) {cs : List (Int × C)}
    (hadd : AddsAllAt s.manager cs) : Inv (s.addAll cs).1 := by
  obtain ⟨⟨i0, hc⟩, -⟩ := h
  obtain ⟨hnone, hc'⟩ := addEach_of_sorted cs s.manager hc hadd.1 hadd.2
  rcases hres : addEach s.manager cs with ⟨m', err⟩
  rw [hres] at hnone hc'
  subst hnone
  simp only [ManagerState.addAll, hres]
  exact ⟨⟨i0, hc'⟩, readable_storeConfigurations s.kvs hc'.nonempty⟩

/-- A manager restarted from readable keys: `start` passes its `vassert`s,
    and the map it reads back is numbered from the stored first index. -/
theorem start_init {kvs : Kvstore C} (h : KvsReadable kvs) (initialCfg : C) (reset : Bool) :
    ∃ s', start ⟨ConfigurationManager.init initialCfg, kvs⟩ reset = some s' ∧ Inv s' := by
  cases reset with
  | true => exact ⟨_, rfl, ⟨0, contiguous_init initialCfg⟩, fun _ h => by cases h⟩
  | false =>
      cases hmap : kvs.configMap with
      | none =>
          -- nothing stored: the manager stays as constructed
          simp only [start, hmap, Bool.false_eq_true, if_false, Option.pure_def, Option.bind_eq_bind,
            Option.bind_some]
          refine ⟨_, rfl, ⟨0, ?_⟩, h⟩
          cases kvs.configLatestKnownOffset with
          | none => exact contiguous_init initialCfg
          | some o => exact (contiguous_init initialCfg).withHighestKnownOffset _
      | some buf =>
          obtain ⟨hne, hsorted⟩ := h buf hmap
          obtain ⟨result, hdes, hidx, hser⟩ := deserializeFrom_of_sorted (kvs.configNextCfgIdx.getD 0)
            buf ⟨[], List.Pairwise.nil⟩ hsorted (fun _ he => by cases he) (fun _ hi => by cases hi)
          have hdes' : deserializeConfigurations (kvs.configNextCfgIdx.getD 0) buf = some result := hdes
          have hlen : result.entries.length = buf.length := by
            simpa [serializeConfigurations] using congrArg List.length hser
          have hnonempty : result.entries ≠ [] := by
            rw [← List.length_pos_iff, hlen]
            exact List.length_pos_iff.mpr hne
          obtain ⟨⟨o, ic⟩, hlast⟩ : ∃ last, result.entries.getLast? = some last :=
            Option.ne_none_iff_exists'.mp (mt List.getLast?_eq_none_iff.mp hnonempty)
          have hnext : ic.idx + 1 = kvs.configNextCfgIdx.getD 0 + result.entries.length :=
            hidx.getLast? hlast
          simp only [start, hmap, hdes', hlast, Bool.false_eq_true, if_false, Option.pure_def,
            Option.bind_eq_bind, Option.bind_some]
          have hc : Contiguous (kvs.configNextCfgIdx.getD 0)
              ⟨result, o, ic.idx + 1⟩ := ⟨hnonempty, hidx, hnext⟩
          refine ⟨_, rfl, ⟨kvs.configNextCfgIdx.getD 0, ?_⟩, h⟩
          cases kvs.configLatestKnownOffset with
          | none => exact hc
          | some o' => exact hc.withHighestKnownOffset _

end ManagerState

/-! ## Runs of requests -/

/-- The requests the rest of raft makes of the manager. -/
inductive Request (C : Type) where
  | add (offset : Int) (cfg : C)
  | addAll (configurations : List (Int × C))
  | truncate (offset : Int)
  | prefixTruncate (offset : Int)
  | adjustConfigurationIdx (newInitialIdx : Int)
  /-- A fresh manager with its constructor's configuration, then `start`. -/
  | restart (initialCfg : C) (reset : Bool)
deriving DecidableEq, Repr

namespace Request

open ManagerState

variable {C : Type} [DecidableEq C]

/-- The state a request leaves, with the exception it throws; `none` when a
    `vassert` stops the node. -/
def apply : Request C → ManagerState C → Option (ManagerState C × Option ManagerError)
  | .add offset cfg, s => some (s.add offset cfg)
  | .addAll cs, s => some (s.addAll cs)
  | .truncate offset, s => some (s.truncate offset)
  | .prefixTruncate offset, s => some (s.prefixTruncate offset, none)
  | .adjustConfigurationIdx i, s => some (s.adjustConfigurationIdx i, none)
  | .restart initialCfg reset, s =>
      (start ⟨ConfigurationManager.init initialCfg, s.kvs⟩ reset).map (·, none)

instance (m : ConfigurationManager C) (offset : Int) (cfg : C) : Decidable (AddsAt m offset cfg) :=
  inferInstanceAs (Decidable (_ ∨ _))

instance (m : ConfigurationManager C) (cs : List (Int × C)) : Decidable (AddsAllAt m cs) :=
  inferInstanceAs (Decidable (_ ∧ _))

/-- The callers' contract: configurations are added past the latest one. -/
def Admissible (s : ManagerState C) : Request C → Prop
  | .add offset cfg => AddsAt s.manager offset cfg
  | .addAll cs => AddsAllAt s.manager cs
  | _ => True

instance (s : ManagerState C) : (r : Request C) → Decidable (r.Admissible s)
  | .add offset cfg => inferInstanceAs (Decidable (AddsAt s.manager offset cfg))
  | .addAll cs => inferInstanceAs (Decidable (AddsAllAt s.manager cs))
  | .truncate _ => isTrue trivial
  | .prefixTruncate _ => isTrue trivial
  | .adjustConfigurationIdx _ => isTrue trivial
  | .restart _ _ => isTrue trivial

/-- A request the contract allows keeps the invariant, and no `vassert`
    fires. -/
theorem Inv.apply {s : ManagerState C} (h : Inv s) {r : Request C} (hr : r.Admissible s) :
    ∃ s' e, r.apply s = some (s', e) ∧ Inv s' := by
  cases r with
  | add offset cfg => exact ⟨_, _, rfl, h.add hr⟩
  | addAll cs => exact ⟨_, _, rfl, h.addAll hr⟩
  | truncate offset => exact ⟨_, _, rfl, h.truncate offset⟩
  | prefixTruncate offset => exact ⟨_, _, rfl, h.prefixTruncate offset⟩
  | adjustConfigurationIdx i => exact ⟨_, _, rfl, h.adjustConfigurationIdx i⟩
  | restart initialCfg reset =>
      obtain ⟨s', hs', hinv⟩ := start_init h.readable initialCfg reset
      refine ⟨s', none, ?_, hinv⟩
      show (start _ reset).map (·, none) = _
      rw [hs']
      rfl

end Request

namespace ManagerState

variable {C : Type} [DecidableEq C]

/-- The requests applied in turn; an exception is the caller's to handle,
    a failed `vassert` ends the run. -/
def run (s : ManagerState C) : List (Request C) → Option (ManagerState C)
  | [] => some s
  | r :: rs => (r.apply s).bind fun (s', _) => run s' rs

/-- Every request keeps to the contract in the state it meets. -/
def RunAdmissible : ManagerState C → List (Request C) → Prop
  | _, [] => True
  | s, r :: rs => r.Admissible s ∧ ∀ s' e, r.apply s = some (s', e) → RunAdmissible s' rs

instance decidableRunAdmissible : (s : ManagerState C) → (rs : List (Request C)) →
    Decidable (RunAdmissible s rs)
  | _, [] => isTrue trivial
  | s, r :: rs =>
      match h : r.apply s with
      | none => decidable_of_iff (r.Admissible s) (by simp [RunAdmissible, h])
      | some (s', e) =>
          have := decidableRunAdmissible s' rs
          decidable_of_iff (r.Admissible s ∧ RunAdmissible s' rs) (by simp [RunAdmissible, h])

/-- A run that keeps to the contract keeps the invariant. -/
theorem Inv.run : ∀ (rs : List (Request C)) {s : ManagerState C}, Inv s → RunAdmissible s rs →
    ∃ s', run s rs = some s' ∧ Inv s'
  | [], s, h, _ => ⟨s, rfl, h⟩
  | r :: rs, _, h, hadm => by
      obtain ⟨s', e, happ, hinv⟩ := Request.Inv.apply h hadm.1
      obtain ⟨s'', hrun, hinv'⟩ := Inv.run rs hinv (hadm.2 s' e happ)
      exact ⟨s'', by simp [ManagerState.run, happ, hrun], hinv'⟩

open ConfigurationManager in
/-- **THE CONFIGURATION INDICES ARE CONTIGUOUS.**  From a new group, every
    run of adds past the latest configuration, truncations, prefix
    truncations, index adjustments and restarts from the stored keys passes
    every `vassert` and leaves a non-empty map whose entries in offset order
    carry the indices `i0, i0 + 1, …` with the counter at the next one;
    `get o` returns the configuration with the greatest offset at or below
    `o`, and `offset_delta o` the index of the one with the greatest offset
    below `o`, or `max 0 (i0 - 1)` when there is none. -/
theorem configuration_indices_contiguous (initialCfg : C) (reqs : List (Request C))
    (hadm : RunAdmissible (init initialCfg) reqs) :
    ∃ s, run (init initialCfg) reqs = some s ∧ ∃ i0, Contiguous i0 s.manager ∧
      (∀ o c, s.manager.get o = some c →
        ∃ e, s.manager.configurations.IsGreatest (· ≤ o) e ∧ e.2.cfg = c) ∧
      (∀ o, s.manager.get o = none → ∀ e ∈ s.manager.configurations.entries, o < e.1) ∧
      (∀ o, (∃ e, s.manager.configurations.IsGreatest (· < o) e ∧ s.manager.offsetDelta o = e.2.idx) ∨
        ((∀ e ∈ s.manager.configurations.entries, o ≤ e.1) ∧ s.manager.offsetDelta o = max 0 (i0 - 1))) := by
  obtain ⟨s, hrun, ⟨i0, hc⟩, -⟩ := Inv.run reqs (inv_init initialCfg) hadm
  exact ⟨s, hrun, i0, hc, fun o => (get_spec s.manager o).1, fun o => (get_spec s.manager o).2,
    offsetDelta_spec hc⟩

/-- Adds past the latest offset, a batch, truncations at both ends, a new
    first index and a restart. -/
theorem configuration_indices_contiguous_sample :
    RunAdmissible (init 0 : ManagerState Nat)
        [.add 10 1, .addAll [(20, 2), (30, 3)], .truncate 25, .prefixTruncate 15,
          .adjustConfigurationIdx 5, .restart 0 false, .add 40 4] ∧
      ∃ s, run (init 0 : ManagerState Nat)
          [.add 10 1, .addAll [(20, 2), (30, 3)], .truncate 25, .prefixTruncate 15,
            .adjustConfigurationIdx 5, .restart 0 false, .add 40 4] = some s ∧
        ∃ i0, ConfigurationManager.Contiguous i0 s.manager ∧
          (∀ o c, s.manager.get o = some c →
            ∃ e, s.manager.configurations.IsGreatest (· ≤ o) e ∧ e.2.cfg = c) ∧
          (∀ o, s.manager.get o = none → ∀ e ∈ s.manager.configurations.entries, o < e.1) ∧
          (∀ o, (∃ e, s.manager.configurations.IsGreatest (· < o) e ∧
              s.manager.offsetDelta o = e.2.idx) ∨
            ((∀ e ∈ s.manager.configurations.entries, o ≤ e.1) ∧
              s.manager.offsetDelta o = max 0 (i0 - 1))) :=
  ⟨by decide, configuration_indices_contiguous 0
    [.add 10 1, .addAll [(20, 2), (30, 3)], .truncate 25, .prefixTruncate 15,
      .adjustConfigurationIdx 5, .restart 0 false, .add 40 4] (by decide)⟩

/-- Without the contract the indices are not contiguous.  A second add at
    offset 5 with another configuration throws after the counter moved, so
    the add at 6 gets index 3 after index 1; an add at 5 below the latest
    offset 10 gets index 2, above the index 1 of the entry after it. -/
theorem configuration_indices_gap :
    (((init 0 : ManagerState Nat).add 5 1).1.add 5 2).2 = some (.alreadyExists 5) ∧
    (run (init 0 : ManagerState Nat) [.add 5 1, .add 5 2, .add 6 3]).map
        (fun s => (s.manager.configurations.entries.map (·.2.idx), s.manager.nextIndex)) =
      some ([0, 1, 3], 4) ∧
    (run (init 0 : ManagerState Nat) [.add 10 1, .add 5 2]).map
        (fun s => s.manager.configurations.entries.map fun e => (e.1, e.2.idx)) =
      some [(offsetMin, 0), (5, 2), (10, 1)] := by
  decide

end ManagerState

end Raft
