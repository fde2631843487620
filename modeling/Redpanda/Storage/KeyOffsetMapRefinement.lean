import Redpanda.Storage.KeyOffsetMap
import Redpanda.Storage.HashKeyOffsetMap

/-! # `hash_key_offset_map` refines `simple_key_offset_map`

    Compaction may build its offset map with either implementation of
    `key_offset_map`.  Run side by side on the same calls, the two give the
    same answers: every `put` the same flag, every `get` the same offset,
    and `size()` and `max_offset()` agree after each call.  This needs a
    hash table with at least one slot, and a simple map that allows as many
    keys as the table's capacity.  It also needs sha256 to tell the keys
    used apart, and to give none of them the zero digest that marks an empty
    slot.

    * `Represents` — the relation: the table is well formed, answers `get`
      for every key used as the simple map does, and has the same capacity,
      size and greatest offset;
    * `Represents.call`, `Represents.run` — one call keeps the relation and
      gives the same observation, and so does a run;
    * `get_run_eq_max` — `get` on the simple map answers the greatest offset
      of an accepted `put` of the key, together with what the map held;
    * `hash_key_offset_map_refines_simple` — both, from `initialize`. -/

namespace Compaction

/-- A call on a `key_offset_map`. -/
inductive MapCall
  | put (key : List UInt8) (offset : Int)
  | get (key : List UInt8)
deriving DecidableEq

/-- The key a call names. -/
def MapCall.key : MapCall → List UInt8
  | .put key _ => key
  | .get key => key

/-- What a call returns. -/
inductive MapReply
  | put (inserted : Bool)
  | get (offset : Option Int)
deriving DecidableEq

/-- What a caller sees after a call: the reply, `size()` and `max_offset()`. -/
structure Observation where
  reply : MapReply
  size : Nat
  maxOffset : Int
deriving DecidableEq

namespace SimpleKeyOffsetMap.Tracked

/-- One call on the simple map. -/
def call (s : Tracked) : MapCall → Observation × Tracked
  | .put key o =>
      let r := s.put key o
      (⟨.put r.1, r.2.map.size, r.2.maxOffset⟩, r.2)
  | .get key => (⟨.get (s.map.get key), s.map.size, s.maxOffset⟩, s)

/-- What each call of a run sees. -/
def run (s : Tracked) : List MapCall → List Observation
  | [] => []
  | c :: cs => (s.call c).1 :: run (s.call c).2 cs

end SimpleKeyOffsetMap.Tracked

namespace HashKeyOffsetMap

/-- One call on the hash table. -/
def call (hashKey : List UInt8 → Digest) (m : HashKeyOffsetMap) :
    MapCall → Observation × HashKeyOffsetMap
  | .put key o =>
      let r := m.put hashKey key o
      (⟨.put r.1, r.2.size, r.2.maxOffset⟩, r.2)
  | .get key => (⟨.get (m.get hashKey key), m.size, m.maxOffset⟩, m)

/-- What each call of a run sees. -/
def run (hashKey : List UInt8 → Digest) (m : HashKeyOffsetMap) : List MapCall → List Observation
  | [] => []
  | c :: cs => (m.call hashKey c).1 :: run hashKey (m.call hashKey c).2 cs

end HashKeyOffsetMap

open SimpleKeyOffsetMap (Tracked)

/-- The table `m` stands for the simple map `s` on the keys `keys`. -/
structure Represents (hashKey : List UInt8 → Digest) (keys : List (List UInt8))
    (m : HashKeyOffsetMap) (s : Tracked) : Prop where
  wf : m.Wf
  capacity_eq : m.capacity = s.map.maxKeys
  size_eq : m.size = s.map.size
  maxOffset_eq : m.maxOffset = s.maxOffset
  get_eq : ∀ key ∈ keys, m.get hashKey key = s.map.get key

section Refinement

variable {hashKey : List UInt8 → Digest} {keys : List (List UInt8)}
  {m : HashKeyOffsetMap} {s : Tracked}

/-- A table with the simple map's capacity, size and greatest offset, which
    after a `put` of `key` answers for `key` as the simple map does and for
    every other key as before, still stands for it. -/
theorem Represents.of_put (h : Represents hashKey keys m s)
    (hinj : ∀ k ∈ keys, ∀ k' ∈ keys, hashKey k = hashKey k' → k = k') {key : List UInt8}
    (hkey : key ∈ keys) {m' : HashKeyOffsetMap} {s' : Tracked} (hw' : m'.Wf)
    (hcap : m'.capacity = s'.map.maxKeys) (hsize : m'.size = s'.map.size)
    (hmax : m'.maxOffset = s'.maxOffset) (hself : m'.get hashKey key = s'.map.get key)
    (hother : ∀ k, hashKey k ≠ hashKey key → m'.get hashKey k = m.get hashKey k)
    (hother' : ∀ k, k ≠ key → s'.map.get k = s.map.get k) : Represents hashKey keys m' s' := by
  refine ⟨hw', hcap, hsize, hmax, fun k hk => ?_⟩
  by_cases hkk : k = key
  · subst hkk
    exact hself
  · -- sha256 tells the keys used apart
    have hne : hashKey k ≠ hashKey key := fun heq => hkk (hinj k hk key hkey heq)
    rw [hother k hne, hother' k hkk, h.get_eq k hk]

/-- **ONE `put`**: the table and the simple map return the same flag, reach
    the same size and greatest offset, and the table still stands for the
    simple map. -/
theorem Represents.put (h : Represents hashKey keys m s)
    (hinj : ∀ k ∈ keys, ∀ k' ∈ keys, hashKey k = hashKey k' → k = k')
    (hzero : ∀ k ∈ keys, hashKey k ≠ zeroDigest) {key : List UInt8} (hkey : key ∈ keys)
    (o : Int) :
    (m.put hashKey key o).1 = (s.put key o).1 ∧
      (m.put hashKey key o).2.size = (s.put key o).2.map.size ∧
      (m.put hashKey key o).2.maxOffset = (s.put key o).2.maxOffset ∧
      Represents hashKey keys (m.put hashKey key o).2 (s.put key o).2 := by
  have hget := h.get_eq key hkey
  have hw' := h.wf.put (hzero key hkey) o
  have hcap' : (m.put hashKey key o).2.capacity = m.capacity := HashKeyOffsetMap.capacity_put h.wf
  rcases HashKeyOffsetMap.put_cases h.wf (hzero key hkey) o with
    ⟨hnone, hfull, hput⟩ | ⟨hnone, hroom, hok, hself, hother, hsize, hmax⟩ |
      ⟨v, hv, hok, hself, hother, hsize, hmax⟩
  · -- the key is missing from both and both are full: both refuse it
    have hs : s.map.put key o = (false, s.map) := by
      refine SimpleKeyOffsetMap.put_of_full o (hget ▸ hnone) ?_
      rw [← h.capacity_eq, ← h.size_eq]
      exact hfull
    rw [hput, Tracked.put_of_put hs]
    exact ⟨rfl, h.size_eq, h.maxOffset_eq, h⟩
  · -- the key is missing from both and both have room: both take it
    have hnone' : s.map.get key = none := hget ▸ hnone
    have hroom' : s.map.size < s.map.maxKeys := by
      rw [← h.capacity_eq, ← h.size_eq]
      exact hroom
    have hsize' := SimpleKeyOffsetMap.size_put_of_get_eq_none o hnone' hroom'
    obtain ⟨m', hs, hself', hother'⟩ := SimpleKeyOffsetMap.put_new o hnone' hroom'
    rw [hs] at hsize'
    have hkeys := SimpleKeyOffsetMap.maxKeys_put s.map key o
    rw [hs] at hkeys
    rw [Tracked.put_of_put hs]
    have hsz : (m.put hashKey key o).2.size = m'.size := by rw [hsize, hsize', h.size_eq]
    have hmx : (m.put hashKey key o).2.maxOffset = max s.maxOffset o := by
      rw [hmax, h.maxOffset_eq]
    refine ⟨hok, hsz, hmx, h.of_put hinj hkey hw' ?_ hsz hmx ?_ hother hother'⟩
    · rw [hcap', h.capacity_eq, ← hkeys]
    · rw [hself, hself']
  · -- the key is held by both under the same offset: both keep the greater
    have hv' : s.map.get key = some v := hget ▸ hv
    have hsize' := SimpleKeyOffsetMap.size_put_of_get_eq_some o hv'
    obtain ⟨m', hs, hself', hother'⟩ := SimpleKeyOffsetMap.put_held o hv'
    rw [hs] at hsize'
    have hkeys := SimpleKeyOffsetMap.maxKeys_put s.map key o
    rw [hs] at hkeys
    rw [Tracked.put_of_put hs]
    have hsz : (m.put hashKey key o).2.size = m'.size := by rw [hsize, hsize', h.size_eq]
    have hmx : (m.put hashKey key o).2.maxOffset = max s.maxOffset o := by
      rw [hmax, h.maxOffset_eq]
    refine ⟨hok, hsz, hmx, h.of_put hinj hkey hw' ?_ hsz hmx ?_ hother hother'⟩
    · rw [hcap', h.capacity_eq, ← hkeys]
    · rw [hself, hself']

/-- **ONE CALL** on a key used: the same observation, and the relation kept. -/
theorem Represents.call (h : Represents hashKey keys m s)
    (hinj : ∀ k ∈ keys, ∀ k' ∈ keys, hashKey k = hashKey k' → k = k')
    (hzero : ∀ k ∈ keys, hashKey k ≠ zeroDigest) {c : MapCall} (hc : c.key ∈ keys) :
    (m.call hashKey c).1 = (s.call c).1 ∧ Represents hashKey keys (m.call hashKey c).2 (s.call c).2 := by
  cases c with
  | put key o =>
      have hkey : key ∈ keys := hc
      obtain ⟨hok, hsize, hmax, h'⟩ := h.put hinj hzero hkey o
      refine ⟨?_, h'⟩
      simp only [HashKeyOffsetMap.call, Tracked.call, hok, hsize, hmax]
  | get key =>
      refine ⟨?_, h⟩
      simp only [HashKeyOffsetMap.call, Tracked.call, h.get_eq key hc, h.size_eq, h.maxOffset_eq]

/-- **EVERY RUN**: a run of calls on keys used sees the same observations on
    the table as on the simple map it stands for. -/
theorem Represents.run (h : Represents hashKey keys m s)
    (hinj : ∀ k ∈ keys, ∀ k' ∈ keys, hashKey k = hashKey k' → k = k')
    (hzero : ∀ k ∈ keys, hashKey k ≠ zeroDigest) {calls : List MapCall}
    (hcalls : ∀ c ∈ calls, c.key ∈ keys) : m.run hashKey calls = s.run calls := by
  -- induction on the calls, the relation carried from one state to the next
  induction calls generalizing m s with
  | nil => rfl
  | cons c cs ih =>
      obtain ⟨hobs, h'⟩ := h.call hinj hzero (hcalls c List.mem_cons_self)
      rw [HashKeyOffsetMap.run, Tracked.run, hobs,
        ih h' fun c' hc' => hcalls c' (List.mem_cons_of_mem c hc')]

/-- A fresh table stands for a fresh simple map with its capacity. -/
theorem represents_init {slots : Nat} (h : 0 < slots) :
    Represents hashKey keys (HashKeyOffsetMap.init slots)
      (Tracked.empty (some (HashKeyOffsetMap.init slots).capacity)) := by
  have hw := HashKeyOffsetMap.wf_init h
  refine ⟨hw, rfl, rfl, rfl, fun key _ => ?_⟩
  -- no slot of a fresh table holds a digest
  refine HashKeyOffsetMap.get_of_not_holds fun j hj => ?_
  have hblank : (HashKeyOffsetMap.init slots).slot j = Entry.blank := by
    rw [HashKeyOffsetMap.slot, HashKeyOffsetMap.init, List.getD_eq_getElem?_getD,
      List.getElem?_replicate]
    split <;> rfl
  rw [hblank, Entry.digest?_of_empty Entry.empty_blank] at hj
  cases hj

end Refinement

/-! ## What `get` answers -/

/-- The offsets of the calls that put `key` and were accepted, in order,
    read from the calls of a run and what they returned. -/
def acceptedOffsets (key : List UInt8) : List MapCall → List Observation → List Int
  | .put k o :: cs, ⟨.put true, _, _⟩ :: obs =>
      if k = key then o :: acceptedOffsets key cs obs else acceptedOffsets key cs obs
  | _ :: cs, _ :: obs => acceptedOffsets key cs obs
  | _, _ => []

theorem max?_cons_eq_max (o : Int) (l : List Int) : (o :: l).max? = max (some o) l.max? := by
  rw [List.max?_cons]
  cases l.max? <;> rfl

/-- After one call, what the simple map holds for `key`, joined with the
    greatest offset accepted for it later, is what it held before, joined
    with the greatest offset accepted from this call on. -/
theorem get_call_max (s : Tracked) (c : MapCall) (key : List UInt8) (cs : List MapCall)
    (obs : List Observation) :
    max ((s.call c).2.map.get key) (acceptedOffsets key cs obs).max? =
      max (s.map.get key) (acceptedOffsets key (c :: cs) ((s.call c).1 :: obs)).max? := by
  cases c with
  | get k => rfl
  | put k o =>
      rcases hp : s.map.put k o with ⟨b, m'⟩
      simp only [Tracked.call, Tracked.put_of_put hp]
      rcases SimpleKeyOffsetMap.put_cases s.map k o with
        ⟨-, -, hput⟩ | ⟨hnone, hok, hself, hother⟩ | ⟨v, hv, hok, hself, hother⟩
      · -- refused: the map is unchanged and nothing is accepted
        rw [hput] at hp
        cases hp
        rfl
      · -- a new key
        rw [hp] at hok hself hother
        cases hok
        by_cases hk : k = key
        · subst hk
          rw [acceptedOffsets.eq_1, if_pos rfl, hself, hnone, max?_cons_eq_max,
            Option.max_none_left]
        · rw [acceptedOffsets.eq_1, if_neg hk, hother key (Ne.symm hk)]
      · -- a held key keeps the greater offset
        rw [hp] at hok hself hother
        cases hok
        by_cases hk : k = key
        · subst hk
          rw [acceptedOffsets.eq_1, if_pos rfl, hself, hv, max?_cons_eq_max]
          cases (acceptedOffsets k cs obs).max? with
          | none => exact congrArg some (by omega)
          | some x => exact congrArg some (by omega)
        · rw [acceptedOffsets.eq_1, if_neg hk, hother key (Ne.symm hk)]

/-- **`get` ANSWERS THE GREATEST ACCEPTED OFFSET**: in a run of the simple
    map, a `get` of `key` answers what the map held for it at the start,
    joined with the greatest offset of the accepted `put`s of `key` before
    it. -/
theorem get_run_eq_max (s : Tracked) (calls : List MapCall) (i : Nat) (key : List UInt8)
    (hi : calls[i]? = some (.get key)) :
    ((s.run calls)[i]?).map Observation.reply =
      some (.get (max (s.map.get key)
        (acceptedOffsets key (calls.take i) ((s.run calls).take i)).max?)) := by
  -- induction on the calls, from any state
  induction calls generalizing s i with
  | nil => simp at hi
  | cons c cs ih =>
      cases i with
      | zero =>
          -- the call is the `get` itself
          have hc : c = .get key := by simpa using hi
          subst hc
          simp [Tracked.run, Tracked.call, acceptedOffsets]
      | succ i =>
          have hi' : cs[i]? = some (.get key) := by simpa using hi
          rw [Tracked.run, List.getElem?_cons_succ, ih (s.call c).2 i hi', List.take_succ_cons,
            List.take_succ_cons, get_call_max]

/-- **`hash_key_offset_map` REFINES `simple_key_offset_map`.**  Take a hash
    table after `initialize` with capacity `c ≥ 1`, and a simple map with
    `max_keys = c`.  Let sha256 tell apart the keys of a run of calls and
    give none of them the zero digest.  Then each call sees the same reply,
    `size()` and `max_offset()` on both, and every `get` on the table answers
    the greatest offset of an accepted `put` of its key before it, or
    `nullopt`. -/
theorem hash_key_offset_map_refines_simple (hashKey : List UInt8 → Digest) (slots c : Nat)
    (calls : List MapCall) (hc : 1 ≤ c) (hcap : (HashKeyOffsetMap.init slots).capacity = c)
    (hinj : ∀ k ∈ calls.map MapCall.key, ∀ k' ∈ calls.map MapCall.key,
      hashKey k = hashKey k' → k = k')
    (hzero : ∀ k ∈ calls.map MapCall.key, hashKey k ≠ zeroDigest) :
    (HashKeyOffsetMap.init slots).run hashKey calls = (Tracked.empty (some c)).run calls ∧
      ∀ i key, calls[i]? = some (.get key) →
        (((HashKeyOffsetMap.init slots).run hashKey calls)[i]?).map Observation.reply =
          some (.get (acceptedOffsets key (calls.take i)
            (((HashKeyOffsetMap.init slots).run hashKey calls).take i)).max?) := by
  -- a table with capacity at least one has slots
  have hslots : 0 < slots := by
    rcases Nat.eq_zero_or_pos slots with rfl | hpos
    · rw [← hcap] at hc
      cases hc
    · exact hpos
  have hrun : (HashKeyOffsetMap.init slots).run hashKey calls = (Tracked.empty (some c)).run calls := by
    subst hcap
    exact (represents_init hslots).run hinj hzero fun c hc => List.mem_map_of_mem hc
  refine ⟨hrun, fun i key hi => ?_⟩
  -- a fresh simple map holds nothing for the key
  have hempty : (Tracked.empty (some c)).map.get key = none := rfl
  rw [hrun, get_run_eq_max _ calls i key hi, hempty, Option.max_none_left]

/-- A stand-in for sha256 on one-byte keys: every byte of the digest is the
    key's first byte. -/
def sampleHash (key : List UInt8) : Digest := Vector.replicate digestSize (key.headD 0)

/-- Three keys into a table of three slots with room for two: the third key
    is refused, and a second `put` of a held key keeps the greater offset. -/
def sampleCalls : List MapCall :=
  [.put [1] 5, .put [2] 7, .get [1], .put [1] 3, .put [3] 9, .get [1], .get [3]]

theorem hash_key_offset_map_refines_simple_sample :
    1 ≤ 2 ∧ (HashKeyOffsetMap.init 3).capacity = 2 ∧
      (HashKeyOffsetMap.init 3).run sampleHash sampleCalls =
        (Tracked.empty (some 2)).run sampleCalls :=
  ⟨by decide, by decide,
    (hash_key_offset_map_refines_simple sampleHash 3 2 sampleCalls (by decide) (by decide)
      (by decide) (by decide)).1⟩

example : (HashKeyOffsetMap.init 3).run sampleHash sampleCalls =
    [⟨.put true, 1, 5⟩, ⟨.put true, 2, 7⟩, ⟨.get (some 5), 2, 7⟩, ⟨.put true, 2, 7⟩,
      ⟨.put false, 2, 7⟩, ⟨.get (some 5), 2, 7⟩, ⟨.get none, 2, 7⟩] := by
  decide

end Compaction
