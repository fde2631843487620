import Redpanda.Lib.OpenAddressing
import Redpanda.Lib.ByteCodec
import Redpanda.Model.Fundamental

/-! # `hash_key_offset_map` — the offset map of compaction as a hash table

    Model of `hash_key_offset_map` in `storage/key_offset_map.{h,cc}`.  The
    map is an open-addressing table of `entry` slots, and a slot is empty
    when its digest is all zero.  A key is hashed with sha256.  `get` and
    `put` probe the slots named by the 32-bit chunks of the digest, and then
    fall back to a linear probe of every slot from the last of them.  Each
    probe position is taken modulo the number of slots.

    The hasher is a parameter `hashKey`.  The counters `search_count_` and
    `probe_count_` feed only `hit_rate()` and are left out.  `initialize` is
    modelled from the number of slots the table grows to, and its
    `double` product with `max_load_factor` by the exact one.

    * `get_eq`, `put_eq` — both calls are the open-addressing search of
      `Lib.OpenAddressing` followed by what the slot it ends at says;
    * `Wf` — the table is placed, `size_` counts its full slots, `capacity_`
      is at most the number of slots, and `max_offset_` bounds every offset;
    * `get_of_holds`, `get_of_not_holds`, `put_cases` — on a well-formed
      table, what `get` and `put` do to a digest, held or not;
    * `Wf.put`, `wf_initialize`, `Wf.reset` — every table built by these
      calls is well formed. -/

namespace Compaction

open OpenAddressing

/-- `hash_sha256::digest_size`. -/
def digestSize : Nat := 32

/-- `hash_sha256::digest_type`. -/
abbrev Digest := Vector UInt8 digestSize

/-- `digest_type{}`: the all-zero digest, which marks an empty slot. -/
def zeroDigest : Digest := Vector.replicate digestSize 0

/-- `hash_key_offset_map::entry`. -/
structure Entry where
  digest : Digest
  offset : Int
deriving DecidableEq

namespace Entry

/-- `entry{}`: the zero digest and `model::offset{}`. -/
def blank : Entry := ⟨zeroDigest, Model.offsetMin⟩

/-- `entry::empty()`. -/
def empty (e : Entry) : Bool := e.digest == zeroDigest

/-- The digest a slot holds, `none` for an empty one. -/
def digest? (e : Entry) : Option Digest := if e.empty then none else some e.digest

theorem digest?_of_empty {e : Entry} (h : e.empty = true) : e.digest? = none := by
  simp [digest?, h]

theorem digest?_of_not_empty {e : Entry} (h : e.empty = false) : e.digest? = some e.digest := by
  simp [digest?, h]

theorem empty_eq_false_of_digest? {e : Entry} {d : Digest} (h : e.digest? = some d) :
    e.empty = false ∧ e.digest = d := by
  unfold digest? at h
  split at h
  · cases h
  · exact ⟨by simpa using ‹¬e.empty = true›, Option.some.inj h⟩

/-- An entry written with a digest that is not zero is full. -/
theorem digest?_mk {d : Digest} (o : Int) (hd : d ≠ zeroDigest) : (⟨d, o⟩ : Entry).digest? = some d := by
  simp [digest?, empty, hd]

theorem empty_of_digest?_eq_none {e : Entry} (h : e.digest? = none) : e.empty = true := by
  unfold digest? at h
  split at h
  · assumption
  · cases h

theorem empty_blank : blank.empty = true := by
  simp [blank, empty]

/-- The offset a slot answers `get` with: none for an empty slot. -/
def offset? (e : Entry) : Option Int := if e.empty then none else some e.offset

end Entry

/-- `hash_key_offset_map`: `entries_`, `size_`, `max_offset_` and `capacity_`. -/
structure HashKeyOffsetMap where
  entries : List Entry
  size : Nat
  maxOffset : Int
  capacity : Nat

/-- `probe::next` until it gives up: each `uint32_t` copied from the next four
    bytes of the digest, in the byte order of the little-endian machines the
    code runs on, while four bytes are left. -/
def probeIndices : List UInt8 → List Nat
  | b₀ :: b₁ :: b₂ :: b₃ :: rest => ByteCodec.ofLE [b₀, b₁, b₂, b₃] :: probeIndices rest
  | _ => []

/-- The probe loop of `get` and `put`.  Each probe index of the digest goes
    to `handle`, and then each position of a linear probe of every slot from
    the last probe index (0 when the digest gave none).  The first position
    `handle` stops at gives the answer. -/
def probeLoop {α : Type} (slots : Nat) (hash : Digest) (handle : Nat → Option α) : Option α :=
  let probes := probeIndices hash.toList
  match probes.findSome? handle with
  | some r => some r
  | none =>
      let linearBase := probes.getLast?.getD 0
      (List.range slots).findSome? fun probe => handle (linearBase + probe)

namespace HashKeyOffsetMap

/-- `entries_.size()`. -/
def slots (m : HashKeyOffsetMap) : Nat := m.entries.length

/-- The slot at index `j`; past the end, an empty one. -/
def slot (m : HashKeyOffsetMap) (j : Nat) : Entry := m.entries.getD j Entry.blank

/-- `get`'s `handle_entry`, at a probe position not yet normalised: stop with
    `nullopt` at an empty slot and with the slot's offset at one holding the
    digest; keep probing past any other. -/
def getEntry (m : HashKeyOffsetMap) (hash : Digest) (index : Nat) : Option (Option Int) :=
  let entry := m.slot (index % m.slots)
  if entry.empty then some none
  else if entry.digest = hash then some (some entry.offset)
  else none

/-- `get(key)`. -/
def get (hashKey : List UInt8 → Digest) (m : HashKeyOffsetMap) (key : List UInt8) :
    Option Int :=
  let hash := hashKey key
  match probeLoop m.slots hash (m.getEntry hash) with
  | some value => value
  | none => none

/-- `put`'s `handle_entry` at the normalised slot `j`: `some (true, _)` is
    `inserted`, `some (false, m)` is `not_inserted_full` and `none` is
    `not_inserted`.  An empty slot takes the key unless the map was full when
    `put` began; the slot holding the digest keeps the greater offset. -/
def putSlot (m : HashKeyOffsetMap) (hash : Digest) (offset : Int) (full : Bool) (j : Nat) :
    Option (Bool × HashKeyOffsetMap) :=
  let entry := m.slot j
  if entry.empty then
    if full then some (false, m)
    else
      some (true, { m with entries := m.entries.set j ⟨hash, offset⟩, size := m.size + 1,
                           maxOffset := max m.maxOffset offset })
  else if entry.digest = hash then
    if offset > entry.offset then
      some (true, { m with entries := m.entries.set j { entry with offset := offset },
                           maxOffset := max m.maxOffset offset })
    else some (true, m)
  else none

/-- `put`'s `handle_entry`: normalise the probe position, then handle the slot. -/
def putEntry (m : HashKeyOffsetMap) (hash : Digest) (offset : Int) (full : Bool) (index : Nat) :
    Option (Bool × HashKeyOffsetMap) :=
  m.putSlot hash offset full (index % m.slots)

/-- `put(key, offset)`: whether the key was inserted, and the map after. -/
def put (hashKey : List UInt8 → Digest) (m : HashKeyOffsetMap) (key : List UInt8)
    (offset : Int) : Bool × HashKeyOffsetMap :=
  let hash := hashKey key
  -- `full` is read once, before the probing
  let full := decide (m.capacity ≤ m.size)
  match probeLoop m.slots hash (m.putEntry hash offset full) with
  | some r => r
  | none => (false, m)

/-- `initialize(size_bytes)`, given the number of slots the table grows to: every slot
    `entry{}`, and room for `max_load_factor` (0.95) of the slots, at least
    one, or for none in a table of no slots. -/
def init (slots : Nat) : HashKeyOffsetMap where
  entries := List.replicate slots Entry.blank
  size := 0
  maxOffset := Model.offsetMin
  capacity := if 0 < slots then max 1 (slots * 95 / 100) else 0

/-- `reset()`: every slot back to `entry{}`, with the capacity kept. -/
def reset (m : HashKeyOffsetMap) : HashKeyOffsetMap :=
  { m with entries := List.replicate m.slots Entry.blank, size := 0, maxOffset := Model.offsetMin }

/-! ## `get` and `put` as a search -/

/-- The probe positions the loop visits, in order. -/
def probeSequence (slots : Nat) (hash : Digest) : List Nat :=
  let probes := probeIndices hash.toList
  probes ++ (List.range slots).map (probes.getLast?.getD 0 + ·)

theorem probeLoop_eq {α : Type} (slots : Nat) (hash : Digest) (handle : Nat → Option α) :
    probeLoop slots hash handle = (probeSequence slots hash).findSome? handle := by
  rw [probeLoop, probeSequence, List.findSome?_append, List.findSome?_map]
  cases (probeIndices hash.toList).findSome? handle <;> rfl

/-- The slots the search for a digest visits: its probe positions, normalised. -/
def probes (m : HashKeyOffsetMap) (hash : Digest) : List Nat :=
  (probeSequence m.slots hash).map (· % m.slots)

/-- The slot the search for a digest ends at. -/
def probeEnd (m : HashKeyOffsetMap) (hash : Digest) : Option Nat :=
  search Entry.digest? m.slot (m.probes hash) hash

variable {m : HashKeyOffsetMap} {hash : Digest}

/-- `get`'s handler stops exactly where the search stops. -/
theorem getEntry_eq (index : Nat) :
    m.getEntry hash index =
      if stops Entry.digest? hash (m.slot (index % m.slots)) then
        some (m.slot (index % m.slots)).offset?
      else none := by
  unfold getEntry
  cases he : (m.slot (index % m.slots)).empty
  · rw [stops_of_holds (Entry.digest?_of_not_empty he)]
    by_cases hd : (m.slot (index % m.slots)).digest = hash
    · simp [hd, Entry.offset?, he]
    · simp [hd, he]
  · simp [stops_of_free (Entry.digest?_of_empty he), Entry.offset?, he]

/-- `get` answers with the slot its search ends at. -/
theorem get_eq (hashKey : List UInt8 → Digest) (key : List UInt8) :
    m.get hashKey key = (m.probeEnd (hashKey key)).bind fun j => (m.slot j).offset? := by
  have hloop : (probeSequence m.slots (hashKey key)).findSome? (m.getEntry (hashKey key)) = _ :=
    findSome?_eq_map_find? fun i _ => getEntry_eq i
  rw [get, probeLoop_eq, hloop, probeEnd, search, probes, List.find?_map, Function.comp_def]
  cases List.find? _ (probeSequence m.slots (hashKey key)) <;> rfl

/-- `put`'s handler stops exactly where the search stops. -/
theorem putEntry_eq (offset : Int) (full : Bool) (index : Nat) :
    m.putEntry hash offset full index =
      if stops Entry.digest? hash (m.slot (index % m.slots)) then
        some ((m.putSlot hash offset full (index % m.slots)).getD (false, m))
      else none := by
  unfold putEntry putSlot
  cases he : (m.slot (index % m.slots)).empty
  · rw [stops_of_holds (Entry.digest?_of_not_empty he)]
    by_cases hd : (m.slot (index % m.slots)).digest = hash
    · by_cases ho : offset > (m.slot (index % m.slots)).offset <;> simp [hd, ho, he]
    · simp [hd, he]
  · rw [stops_of_free (Entry.digest?_of_empty he)]
    cases full <;> simp [he]

/-- `put` acts at the slot its search ends at, and refuses the key when the
    search ends nowhere. -/
theorem put_eq (hashKey : List UInt8 → Digest) (key : List UInt8) (offset : Int) :
    m.put hashKey key offset =
      ((m.probeEnd (hashKey key)).map fun j =>
        (m.putSlot (hashKey key) offset (decide (m.capacity ≤ m.size)) j).getD (false, m)).getD
        (false, m) := by
  have hloop : (probeSequence m.slots (hashKey key)).findSome?
      (m.putEntry (hashKey key) offset (decide (m.capacity ≤ m.size))) = _ :=
    findSome?_eq_map_find? fun i _ => putEntry_eq offset (decide (m.capacity ≤ m.size)) i
  rw [put, probeLoop_eq, hloop, probeEnd, search, probes, List.find?_map, Function.comp_def]
  cases List.find? _ (probeSequence m.slots (hashKey key)) <;> rfl

section Put

variable {hashKey : List UInt8 → Digest} {key : List UInt8} {offset : Int} {j : Nat}

theorem put_of_probeEnd_none (h : m.probeEnd (hashKey key) = none) :
    m.put hashKey key offset = (false, m) := by
  rw [put_eq, h]
  rfl

/-- The search ends at an empty slot of a full map: `not_inserted_full`. -/
theorem put_of_probeEnd_full (h : m.probeEnd (hashKey key) = some j) (he : (m.slot j).empty = true)
    (hfull : m.capacity ≤ m.size) : m.put hashKey key offset = (false, m) := by
  rw [put_eq, h]
  simp [putSlot, he, hfull]

/-- The search ends at an empty slot of a map with room: the key goes in. -/
theorem put_of_probeEnd_empty (h : m.probeEnd (hashKey key) = some j) (he : (m.slot j).empty = true)
    (hroom : m.size < m.capacity) :
    m.put hashKey key offset =
      (true, { m with entries := m.entries.set j ⟨hashKey key, offset⟩, size := m.size + 1,
                      maxOffset := max m.maxOffset offset }) := by
  rw [put_eq, h]
  simp [putSlot, he, Nat.not_le.mpr hroom]

/-- The search ends at the slot holding the digest: it keeps the greater offset. -/
theorem put_of_probeEnd_holds (h : m.probeEnd (hashKey key) = some j)
    (hj : (m.slot j).digest? = some (hashKey key)) :
    m.put hashKey key offset =
      (true, if (m.slot j).offset < offset then
          { m with entries := m.entries.set j ⟨hashKey key, offset⟩,
                   maxOffset := max m.maxOffset offset }
        else m) := by
  obtain ⟨he, hd⟩ := Entry.empty_eq_false_of_digest? hj
  rw [put_eq, h]
  by_cases ho : (m.slot j).offset < offset
  · simp only [Option.map_some, Option.getD_some, putSlot, he, hd, ho, if_true]
    simp [← hd]
  · simp [putSlot, he, hd, ho]

end Put

/-! ## The well-formed table -/

/-- What every call keeps of the table: it has slots and room for at most
    one key a slot, its keys are placed, `size_` counts its full slots, and
    `max_offset_` is at least every offset it holds. -/
structure Wf (m : HashKeyOffsetMap) : Prop where
  slots_pos : 0 < m.slots
  capacity_le : m.capacity ≤ m.slots
  size_eq : m.size = m.entries.countP fun e => !e.empty
  placed : Placed Entry.digest? m.slot m.probes
  offset_le : ∀ j, (m.slot j).empty = false → (m.slot j).offset ≤ m.maxOffset

theorem slot_of_lt (hj : j < m.slots) : m.slot j = m.entries[j] := by
  simp [slot, List.getD_eq_getElem?_getD, List.getElem?_eq_getElem hj]

/-- Setting one entry changes the one slot. -/
theorem slot_set (hj : j < m.slots) (e : Entry) (i : Nat) :
    (m.entries.set j e).getD i Entry.blank = Function.update m.slot j e i := by
  rw [List.getD_eq_getElem?_getD, List.getElem?_set]
  by_cases hij : i = j
  · subst hij
    simp [show i < m.entries.length from hj]
  · rw [Function.update_of_ne hij, if_neg (Ne.symm hij)]
    rfl

theorem probeEnd_lt (hpos : 0 < m.slots) (h : m.probeEnd hash = some j) : j < m.slots := by
  obtain ⟨i, -, rfl⟩ := List.mem_map.mp (List.mem_of_find?_eq_some h)
  exact Nat.mod_lt _ hpos

/-- Every slot lies on the probes of every digest: the linear probe passes
    them all. -/
theorem mem_probes (hj : j < m.slots) : j ∈ m.probes hash := by
  obtain ⟨p, hp, hpj⟩ := exists_add_mod_eq ((probeIndices hash.toList).getLast?.getD 0) hj
  refine List.mem_map.mpr ⟨_, List.mem_append_right _ (List.mem_map.mpr ⟨p, ?_, rfl⟩), hpj⟩
  exact List.mem_range.mpr hp

/-- A well-formed table with fewer keys than slots has an empty slot. -/
theorem exists_empty_of_size_lt (hw : m.Wf) (h : m.size < m.slots) :
    ∃ j < m.slots, (m.slot j).empty = true := by
  rw [hw.size_eq] at h
  obtain ⟨e, he, hne⟩ : ∃ e ∈ m.entries, ¬(!e.empty) = true := by
    by_contra hall
    have hfull : ∀ e ∈ m.entries, (!e.empty) = true := fun e he =>
      by_contra fun hne => hall ⟨e, he, hne⟩
    exact absurd (List.countP_eq_length.mpr hfull) (Nat.ne_of_lt h)
  obtain ⟨j, hj, rfl⟩ := List.getElem_of_mem he
  refine ⟨j, hj, ?_⟩
  rw [slot_of_lt hj]
  simpa using hne

/-- On a well-formed table with room for a key, every search ends. -/
theorem probeEnd_isSome (hw : m.Wf) (hroom : m.size < m.capacity) : (m.probeEnd hash).isSome := by
  obtain ⟨j, hj, he⟩ := exists_empty_of_size_lt hw (Nat.lt_of_lt_of_le hroom hw.capacity_le)
  exact search_isSome_of_free (mem_probes hj) (Entry.digest?_of_empty he)

section Get

variable {hashKey : List UInt8 → Digest} {key : List UInt8}

/-- **A HELD KEY IS FOUND**: `get` answers with the offset of the slot that
    holds the digest. -/
theorem get_of_holds (hw : m.Wf) (hj : (m.slot j).digest? = some (hashKey key)) :
    m.get hashKey key = some (m.slot j).offset := by
  rw [get_eq, probeEnd, hw.placed j _ hj]
  simp [Entry.offset?, (Entry.empty_eq_false_of_digest? hj).1]

/-- **A MISSING KEY IS MISSING**: with no slot holding the digest, `get`
    answers `nullopt`, wherever its search ends. -/
theorem get_of_not_holds (h : ∀ j, (m.slot j).digest? ≠ some (hashKey key)) :
    m.get hashKey key = none := by
  rw [get_eq]
  cases hs : m.probeEnd (hashKey key) with
  | none => rfl
  | some j =>
      have hfree := Entry.empty_of_digest?_eq_none (free_of_search_of_not_holds h hs)
      simp [Entry.offset?, hfree]

theorem get_eq_none_iff (hw : m.Wf) :
    m.get hashKey key = none ↔ ∀ j, (m.slot j).digest? ≠ some (hashKey key) := by
  constructor
  · intro hnone j hj
    rw [get_of_holds hw hj] at hnone
    cases hnone
  · exact get_of_not_holds

/-- A change of one slot that neither held the digest nor writes it leaves
    `get` of that digest as it was. -/
theorem get_update_of_ne {m' : HashKeyOffsetMap} (hw : m.Wf) (hw' : m'.Wf) {x : Entry}
    (hslot : m'.slot = Function.update m.slot j x) (hx : x.digest? ≠ some (hashKey key))
    (hj : (m.slot j).digest? ≠ some (hashKey key)) : m'.get hashKey key = m.get hashKey key := by
  by_cases hheld : ∃ i, (m.slot i).digest? = some (hashKey key)
  · obtain ⟨i, hi⟩ := hheld
    have hij : i ≠ j := fun h => hj (h ▸ hi)
    have hi' : (m'.slot i).digest? = some (hashKey key) := by
      rw [hslot, Function.update_of_ne hij]
      exact hi
    rw [get_of_holds hw hi, get_of_holds hw' hi', hslot, Function.update_of_ne hij]
  · simp only [not_exists] at hheld
    rw [get_of_not_holds hheld, get_of_not_holds]
    intro i
    rw [hslot]
    by_cases hij : i = j
    · subst hij
      rw [Function.update_self]
      exact hx
    · rw [Function.update_of_ne hij]
      exact hheld i

end Get

/-- A search that ends at a full slot ends at the slot holding the digest. -/
theorem digest?_of_probeEnd (h : m.probeEnd hash = some j) (he : (m.slot j).empty = false) :
    (m.slot j).digest? = some hash := by
  have hfull := Entry.digest?_of_not_empty he
  have hstop := (search_eq_some_iff.mp h).1
  rw [stops_of_holds hfull, decide_eq_true_eq] at hstop
  rw [hfull, hstop]

/-! ## What `put` does, and that it keeps the table well formed -/

section Keep

variable {m' : HashKeyOffsetMap} {e : Entry} {offset : Int}

/-- Setting one entry changes the one slot. -/
theorem slot_eq_update (hj : j < m.slots) (h : m'.entries = m.entries.set j e) :
    m'.slot = Function.update m.slot j e :=
  funext fun i => by
    rw [HashKeyOffsetMap.slot, h]
    exact slot_set hj e i

/-- A table that differs from a well-formed one in one slot is well formed,
    when its keys stay placed, `size_` follows the slot from empty to full,
    and `max_offset_` grows to cover the slot's offset. -/
theorem Wf.of_set (hw : m.Wf) (hj : j < m.slots) (hentries : m'.entries = m.entries.set j e)
    (hcap : m'.capacity = m.capacity)
    (hplaced : Placed Entry.digest? (Function.update m.slot j e) m.probes)
    (hsize : m'.size = m.size - (if !(m.slot j).empty then 1 else 0) + (if !e.empty then 1 else 0))
    (hmax : m.maxOffset ≤ m'.maxOffset) (hoff : e.empty = false → e.offset ≤ m'.maxOffset) :
    m'.Wf := by
  have hslots : m'.slots = m.slots := by simp [slots, hentries]
  have hslot := slot_eq_update hj hentries
  have hprobes : m'.probes = m.probes := by
    funext hash
    simp only [probes, hslots]
  refine ⟨hslots ▸ hw.slots_pos, hcap ▸ hslots ▸ hw.capacity_le, ?_, ?_, ?_⟩
  · rw [hsize, hentries, List.countP_set (show j < m.entries.length from hj), hw.size_eq,
      slot_of_lt hj]
    rfl
  · rw [hslot, hprobes]
    exact hplaced
  · intro i hi
    rw [hslot] at hi ⊢
    by_cases hij : i = j
    · subst hij
      rw [Function.update_self] at hi ⊢
      exact hoff hi
    · rw [Function.update_of_ne hij] at hi ⊢
      exact Int.le_trans (hw.offset_le i hi) hmax

/-- Writing a key into the empty slot its search ends at. -/
theorem Wf.insert (hw : m.Wf) (h : m.probeEnd hash = some j) (he : (m.slot j).empty = true)
    (hd : hash ≠ zeroDigest) (hentries : m'.entries = m.entries.set j ⟨hash, offset⟩)
    (hcap : m'.capacity = m.capacity) (hsize : m'.size = m.size + 1)
    (hmax : m'.maxOffset = max m.maxOffset offset) : m'.Wf := by
  have hnew : (⟨hash, offset⟩ : Entry).digest? = some hash := Entry.digest?_mk offset hd
  refine hw.of_set (probeEnd_lt hw.slots_pos h) hentries hcap
    (hw.placed.update_free h (Entry.digest?_of_empty he) hnew) ?_ (hmax ▸ Int.le_max_left _ _)
    fun _ => hmax ▸ Int.le_max_right m.maxOffset offset
  simp [hsize, he, (Entry.empty_eq_false_of_digest? hnew).1]

/-- Raising the offset in the slot holding a key. -/
theorem Wf.raise (hw : m.Wf) (hj : (m.slot j).digest? = some hash)
    (hentries : m'.entries = m.entries.set j ⟨hash, offset⟩) (hcap : m'.capacity = m.capacity)
    (hsize : m'.size = m.size) (hmax : m'.maxOffset = max m.maxOffset offset) : m'.Wf := by
  have he := (Entry.empty_eq_false_of_digest? hj).1
  have hnew : (⟨hash, offset⟩ : Entry).digest? = some hash := by
    rw [← (Entry.empty_eq_false_of_digest? hj).2]
    exact Entry.digest?_of_not_empty he
  -- the slot keeps its digest, so every key stays where it was
  have hkeys : ∀ i, (Function.update m.slot j ⟨hash, offset⟩ i).digest? = (m.slot i).digest? := by
    intro i
    by_cases hij : i = j
    · subst hij
      rw [Function.update_self, hnew, hj]
    · rw [Function.update_of_ne hij]
  have hlt : j < m.slots := probeEnd_lt hw.slots_pos (hw.placed j _ hj)
  have hpos : 0 < m.size := by
    rw [hw.size_eq]
    refine List.countP_pos_iff.mpr ⟨m.entries[j], List.getElem_mem hlt, ?_⟩
    rw [← slot_of_lt hlt, he]
    rfl
  refine hw.of_set hlt hentries hcap (hw.placed.congr hkeys) ?_ (hmax ▸ Int.le_max_left _ _)
    fun _ => hmax ▸ Int.le_max_right m.maxOffset offset
  simp only [hsize, he, (Entry.empty_eq_false_of_digest? hnew).1, Bool.not_false, if_true]
  omega

/-- A table of blank slots, none counted, is well formed. -/
theorem wf_of_blank (hpos : 0 < m.slots) (hcap : m.capacity ≤ m.slots)
    (hentries : m.entries = List.replicate m.slots Entry.blank) (hsize : m.size = 0) : m.Wf := by
  have hslot : ∀ i, m.slot i = Entry.blank := by
    intro i
    rw [HashKeyOffsetMap.slot, hentries, List.getD_eq_getElem?_getD, List.getElem?_replicate]
    split <;> rfl
  refine ⟨hpos, hcap, ?_, ?_, ?_⟩
  · rw [hsize, hentries, List.countP_replicate]
    simp [Entry.empty_blank]
  · intro i d hi
    rw [hslot, Entry.digest?_of_empty Entry.empty_blank] at hi
    cases hi
  · intro i hi
    rw [hslot, Entry.empty_blank] at hi
    cases hi

/-- **A FRESH TABLE IS WELL FORMED**: `initialize` with at least one slot. -/
theorem wf_init {slots : Nat} (h : 0 < slots) : (init slots).Wf := by
  have hslots : (init slots).slots = slots := List.length_replicate
  refine wf_of_blank (by rw [hslots]; exact h) ?_ (by rw [hslots]; rfl) rfl
  rw [hslots]
  show (if 0 < slots then max 1 (slots * 95 / 100) else 0) ≤ slots
  rw [if_pos h]
  omega

theorem Wf.reset (hw : m.Wf) : m.reset.Wf := by
  have hslots : m.reset.slots = m.slots := List.length_replicate
  exact wf_of_blank (hslots ▸ hw.slots_pos) (hslots ▸ hw.capacity_le) (by rw [hslots]; rfl) rfl

end Keep

section Put

variable {hashKey : List UInt8 → Digest} {key : List UInt8} {offset : Int}

/-- **WHAT `put` CAN DO** on a well-formed table: refuse a missing key when
    the map is full, write a missing key into the empty slot its search ends
    at, or raise the offset in the slot holding the key, or keep it. -/
theorem put_cases_slot (hw : m.Wf) (offset : Int) :
    (m.put hashKey key offset = (false, m) ∧
      (∀ i, (m.slot i).digest? ≠ some (hashKey key)) ∧ m.capacity ≤ m.size) ∨
    ((∀ i, (m.slot i).digest? ≠ some (hashKey key)) ∧ m.size < m.capacity ∧
      ∃ j m', m.probeEnd (hashKey key) = some j ∧ (m.slot j).empty = true ∧
        m.put hashKey key offset = (true, m') ∧
        m'.entries = m.entries.set j ⟨hashKey key, offset⟩ ∧ m'.capacity = m.capacity ∧
        m'.size = m.size + 1 ∧ m'.maxOffset = max m.maxOffset offset) ∨
    (∃ j, (m.slot j).digest? = some (hashKey key) ∧
      (((m.slot j).offset < offset ∧ ∃ m', m.put hashKey key offset = (true, m') ∧
          m'.entries = m.entries.set j ⟨hashKey key, offset⟩ ∧ m'.capacity = m.capacity ∧
          m'.size = m.size ∧ m'.maxOffset = max m.maxOffset offset) ∨
        (offset ≤ (m.slot j).offset ∧ m.put hashKey key offset = (true, m)))) := by
  cases h : m.probeEnd (hashKey key) with
  | none =>
      -- a search ends nowhere only when no slot holds the key and none is free
      have hnot : ∀ i, (m.slot i).digest? ≠ some (hashKey key) := fun i hi => by
        rw [probeEnd, hw.placed i _ hi] at h
        cases h
      have hfull : m.capacity ≤ m.size := Nat.le_of_not_lt fun hroom => by
        have hsome : (m.probeEnd (hashKey key)).isSome := probeEnd_isSome hw hroom
        rw [h] at hsome
        cases hsome
      exact .inl ⟨put_of_probeEnd_none h, hnot, hfull⟩
  | some j =>
      cases he : (m.slot j).empty
      · have hj := digest?_of_probeEnd h he
        refine .inr (.inr ⟨j, hj, ?_⟩)
        by_cases ho : (m.slot j).offset < offset
        · have hput : m.put hashKey key offset = _ := put_of_probeEnd_holds h hj
          rw [if_pos ho] at hput
          exact .inl ⟨ho, _, hput, rfl, rfl, rfl, rfl⟩
        · exact .inr ⟨Int.not_lt.mp ho, by rw [put_of_probeEnd_holds h hj, if_neg ho]⟩
      · -- the search for a held key ends at its full slot, not at this empty one
        have hnot : ∀ i, (m.slot i).digest? ≠ some (hashKey key) := fun i hi => by
          have hi' := hw.placed i _ hi
          rw [← probeEnd, h] at hi'
          cases hi'
          rw [(Entry.empty_eq_false_of_digest? hi).1] at he
          cases he
        by_cases hfull : m.capacity ≤ m.size
        · exact .inl ⟨put_of_probeEnd_full h he hfull, hnot, hfull⟩
        · have hroom := Nat.lt_of_not_le hfull
          exact .inr (.inl ⟨hnot, hroom, j, _, rfl, he, put_of_probeEnd_empty h he hroom,
            rfl, rfl, rfl, rfl⟩)

/-- **EVERY `put` KEEPS THE TABLE WELL FORMED**, for a key whose digest is
    not the zero digest. -/
theorem Wf.put (hw : m.Wf) (hd : hashKey key ≠ zeroDigest) (offset : Int) :
    (m.put hashKey key offset).2.Wf := by
  rcases put_cases_slot hw offset with
    ⟨hput, -, -⟩ | ⟨-, -, j, m', h, he, hput, hentries, hcap, hsize, hmax⟩ |
      ⟨j, hj, ⟨-, m', hput, hentries, hcap, hsize, hmax⟩ | ⟨-, hput⟩⟩
  · rw [hput]
    exact hw
  · rw [hput]
    exact hw.insert h he hd hentries hcap hsize hmax
  · rw [hput]
    exact hw.raise hj hentries hcap hsize hmax
  · rw [hput]
    exact hw

theorem capacity_put (hw : m.Wf) : (m.put hashKey key offset).2.capacity = m.capacity := by
  rcases put_cases_slot hw offset with
    ⟨hput, -, -⟩ | ⟨-, -, j, m', -, -, hput, -, hcap, -⟩ | ⟨j, -, ⟨-, m', hput, -, hcap, -⟩ | ⟨-, hput⟩⟩
  · rw [hput]
  · rw [hput]
    exact hcap
  · rw [hput]
    exact hcap
  · rw [hput]

/-- After a write of the key into slot `j` of a well-formed table, `get`
    answers the offset written for the key, and as before for every other
    digest. -/
theorem get_after_write {m' : HashKeyOffsetMap} (hw : m.Wf) (hw' : m'.Wf) {j : Nat}
    (hd : hashKey key ≠ zeroDigest) (hj : j < m.slots)
    (hentries : m'.entries = m.entries.set j ⟨hashKey key, offset⟩)
    (hold : ∀ key', hashKey key' ≠ hashKey key → (m.slot j).digest? ≠ some (hashKey key')) :
    m'.get hashKey key = some offset ∧
      ∀ key', hashKey key' ≠ hashKey key → m'.get hashKey key' = m.get hashKey key' := by
  have hslot := slot_eq_update hj hentries
  have hnew : (⟨hashKey key, offset⟩ : Entry).digest? = some (hashKey key) :=
    Entry.digest?_mk offset hd
  refine ⟨?_, fun key' hne => get_update_of_ne hw hw' hslot ?_ (hold key' hne)⟩
  · rw [get_of_holds hw' (j := j) (by rw [hslot, Function.update_self]; exact hnew), hslot,
      Function.update_self]
  · rw [hnew]
    exact fun h => hne (Option.some.inj h).symm

/-- **`put` AS `get` SEES IT**, on a well-formed table and for a key whose
    digest is not zero: a missing key is refused by a full map and goes in
    under its offset otherwise, and a held key keeps the greater offset.  No
    other digest's answer changes; `size_` counts a new key and `max_offset_`
    takes the greater offset. -/
theorem put_cases (hw : m.Wf) (hd : hashKey key ≠ zeroDigest) (offset : Int) :
    (m.get hashKey key = none ∧ m.capacity ≤ m.size ∧ m.put hashKey key offset = (false, m)) ∨
    (m.get hashKey key = none ∧ m.size < m.capacity ∧ (m.put hashKey key offset).1 = true ∧
      (m.put hashKey key offset).2.get hashKey key = some offset ∧
      (∀ key', hashKey key' ≠ hashKey key →
        (m.put hashKey key offset).2.get hashKey key' = m.get hashKey key') ∧
      (m.put hashKey key offset).2.size = m.size + 1 ∧
      (m.put hashKey key offset).2.maxOffset = max m.maxOffset offset) ∨
    (∃ v, m.get hashKey key = some v ∧ (m.put hashKey key offset).1 = true ∧
      (m.put hashKey key offset).2.get hashKey key = some (max offset v) ∧
      (∀ key', hashKey key' ≠ hashKey key →
        (m.put hashKey key offset).2.get hashKey key' = m.get hashKey key') ∧
      (m.put hashKey key offset).2.size = m.size ∧
      (m.put hashKey key offset).2.maxOffset = max m.maxOffset offset) := by
  rcases put_cases_slot hw offset with
    ⟨hput, hnot, hfull⟩ | ⟨hnot, hroom, j, m', h, he, hput, hentries, hcap, hsize, hmax⟩ |
      ⟨j, hj, ⟨ho, m', hput, hentries, hcap, hsize, hmax⟩ | ⟨ho, hput⟩⟩
  · exact .inl ⟨get_of_not_holds hnot, hfull, hput⟩
  · -- the key goes into the empty slot `j`, which held no digest
    have hw' := hw.insert h he hd hentries hcap hsize hmax
    have hfree : ∀ key', hashKey key' ≠ hashKey key → (m.slot j).digest? ≠ some (hashKey key') :=
      fun key' _ => by
        rw [Entry.digest?_of_empty he]
        exact (Option.some_ne_none _).symm
    obtain ⟨hself, hother⟩ := get_after_write hw hw' hd (probeEnd_lt hw.slots_pos h) hentries hfree
    rw [hput]
    exact .inr (.inl ⟨get_of_not_holds hnot, hroom, rfl, hself, hother, hsize, hmax⟩)
  · -- the key is held in slot `j` below the offset put, which raises it
    have hw' := hw.raise hj hentries hcap hsize hmax
    have hkept : ∀ key', hashKey key' ≠ hashKey key → (m.slot j).digest? ≠ some (hashKey key') :=
      fun key' hne h => hne (Option.some.inj (hj.symm.trans h)).symm
    obtain ⟨hself, hother⟩ := get_after_write hw hw' hd
      (probeEnd_lt hw.slots_pos (hw.placed j _ hj)) hentries hkept
    rw [hput]
    refine .inr (.inr ⟨_, get_of_holds hw hj, rfl, ?_, hother, hsize, hmax⟩)
    rw [hself, Int.max_eq_left (Int.le_of_lt ho)]
  · -- the key is held in slot `j` at or above the offset put: nothing changes
    have hle := hw.offset_le j (Entry.empty_eq_false_of_digest? hj).1
    rw [hput]
    refine .inr (.inr ⟨_, get_of_holds hw hj, rfl, ?_, fun _ _ => rfl, rfl, ?_⟩)
    · rw [get_of_holds hw hj, Int.max_eq_right ho]
    · rw [Int.max_eq_left (Int.le_trans ho hle)]

end Put

end HashKeyOffsetMap

end Compaction
