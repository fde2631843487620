import Mathlib

/-! # `contiguous_range_map`: an ordered map on a vector of slots

    Model of `container/contiguous_range_map.h`.  The map keeps a
    `chunked_vector` of optional slots `_values`, slot `i` vacant or holding
    the pair for key `i`, and the count `_size` of occupied slots.  The
    vector is a list here: its fragments, the subject of
    `Redpanda.Container.FragmentedVector`, change nothing the map does, and
    `back()` of a vector with no elements is undefined behaviour, `none`.
    An iterator is a position in `_values`, moved past vacant slots when it
    is made (`skip_to_next_present`), with `end()` at the length.  Keys are
    `Int`; `valid_key` admits those at or above `0`.  The value type is
    generic; `operator[]` default-constructs it.

    The abstract model is the map `lookup` that the occupied slots stand
    for.  Every state the operations reach from the empty map keeps each
    slot holding its own key and `_size` counting the occupied slots
    (`WellFormed`, `Reachable.wellFormed`), and there each operation does to
    `lookup` what the same operation of an ordered map does
    (`Reachable.refines`).  `shrink_to_fit` is the exception: its loop reads
    `back()` until it meets an occupied slot, and on a map with no occupied
    slot, the empty map among them, it reads `back()` of no slots
    (`shrinkToFit_eq_none_iff`). -/

namespace Container

/-- `contiguous_range_map<KeyT, ValueT>`: the slots `_values` and the count
    `_size`. -/
structure ContiguousRangeMap (α : Type) where
  values : List (Option (Int × α))
  size : Nat

namespace ContiguousRangeMap

variable {α : Type}

/-- The exceptions the map throws. -/
inductive Error where
  /-- `std::invalid_argument`, from `emplace`. -/
  | invalidArgument (key : Int)
  /-- `std::out_of_range`, from `at`. -/
  | outOfRange (key : Int)
deriving DecidableEq, Repr

/-- The text of the exception. -/
def Error.what : Error → String
  | .invalidArgument key => "Invalid key " ++ toString key ++ ", must be positive"
  | .outOfRange key => "Invalid key " ++ toString key ++ ", value is missing"

/-- A map with no slots. -/
def empty : ContiguousRangeMap α := ⟨[], 0⟩

/-- `valid_key`: map keys must be at least `0`. -/
def validKey (key : Int) : Bool := decide (0 ≤ key)

/-- `skip_to_next_present`: the first position from `i` on whose slot
    holds a value, or the end. -/
def skipToNextPresent (values : List (Option (Int × α))) (i : Nat) : Nat :=
  i + ((values.drop i).takeWhile Option.isNone).length

/-- The loop `while (_values.size() < n) _values.emplace_back();`. -/
def growTo (values : List (Option (Int × α))) (n : Nat) : List (Option (Int × α)) :=
  values ++ List.replicate (n - values.length) none

/-- `contains`. -/
def contains (m : ContiguousRangeMap α) (key : Int) : Bool :=
  validKey key && decide (key.toNat < m.values.length) && (m.values[key.toNat]?).join.isSome

/-- `find`: an iterator at the key's slot, or `end()`. -/
def find (m : ContiguousRangeMap α) (key : Int) : Nat :=
  if validKey key && decide (key.toNat < m.values.length) then
    match m.values[key.toNat]? with
    | some (some _) => skipToNextPresent m.values key.toNat
    | _ => m.values.length
  else m.values.length

/-- `at`: the value at the key, or `std::out_of_range`. -/
def «at» (m : ContiguousRangeMap α) (key : Int) : Except Error α :=
  let it := m.find key
  if it = m.values.length then .error (.outOfRange key)
  else
    match (m.values[it]?).join with
    | some p => .ok p.2
    -- `find` returns `end()` or a slot that holds a value
    | none => .error (.outOfRange key)

/-- `emplace`: the iterator at the key's slot, and whether it inserted. -/
def emplace (m : ContiguousRangeMap α) (key : Int) (v : α) :
    Except Error (ContiguousRangeMap α × Nat × Bool) :=
  if !validKey key then .error (.invalidArgument key)
  else
    let k := key.toNat
    -- the slot right past the last: `emplace_back` directly
    if k = m.values.length then
      let values := m.values ++ [some (key, v)]
      .ok (⟨values, m.size + 1⟩, skipToNextPresent values k, true)
    else
      let values := growTo m.values (k + 1)
      match values[k]? with
      | some (some _) => .ok (⟨values, m.size⟩, skipToNextPresent values k, false)
      | _ =>
        let values := values.set k (some (key, v))
        .ok (⟨values, m.size + 1⟩, skipToNextPresent values k, true)

/-- `operator[]`: the value at the key, default-constructed and emplaced
    when the key is absent. -/
def index [Inhabited α] (m : ContiguousRangeMap α) (key : Int) :
    Except Error (ContiguousRangeMap α × α) := do
  let (m', it, _) ← m.emplace key default
  match (m'.values[it]?).join with
  | some p => pure (m', p.2)
  -- `emplace` returns a slot that holds a value
  | none => pure (m', default)

/-- `erase(key)`: invalid and absent keys are ignored. -/
def erase (m : ContiguousRangeMap α) (key : Int) : ContiguousRangeMap α :=
  if validKey key && decide (key.toNat < m.values.length) then
    match m.values[key.toNat]? with
    | some (some _) => ⟨m.values.set key.toNat none, m.size - 1⟩
    | _ => m
  else m

/-- `erase(const_iterator)`: resets the slot of the key the iterator points
    at.  Dereferencing `end()` is undefined behaviour, `none`. -/
def eraseAt (m : ContiguousRangeMap α) (it : Nat) : Option (ContiguousRangeMap α) :=
  match m.values[it]? with
  | none => none
  | some none => some m
  | some (some p) =>
    let j := skipToNextPresent m.values p.1.toNat
    match m.values[j]? with
    | some _ => some ⟨m.values.set j none, m.size - 1⟩
    | none => none

/-- `reserve`: vacant slots up to `requested_size`. -/
def reserve (m : ContiguousRangeMap α) (requestedSize : Nat) : ContiguousRangeMap α :=
  ⟨growTo m.values requestedSize, m.size⟩

/-- The loop of `shrink_to_fit` on the slots from the back: `pop_back()`
    while `back()` is vacant.  `back()` of no slots is undefined behaviour,
    `none`. -/
def popVacant : List (Option (Int × α)) → Option (List (Option (Int × α)))
  | [] => none
  | none :: rest => popVacant rest
  | some p :: rest => some (some p :: rest)

/-- `shrink_to_fit`. -/
def shrinkToFit (m : ContiguousRangeMap α) : Option (ContiguousRangeMap α) :=
  (popVacant m.values.reverse).map fun rest => ⟨rest.reverse, m.size⟩

/-- `copy`. -/
def copy (m : ContiguousRangeMap α) : ContiguousRangeMap α := ⟨m.values, m.size⟩

/-- The pairs a walk from `begin()` to `end()` dereferences: the iterators
    pass the vacant slots, so these are the occupied slots in order. -/
def iterate (m : ContiguousRangeMap α) : List (Int × α) := m.values.reduceOption

/-! ## The abstract model -/

/-- What slot `i` holds: nothing when it is vacant or past the end. -/
def slot (m : ContiguousRangeMap α) (i : Nat) : Option (Int × α) := (m.values[i]?).join

/-- The map the occupied slots stand for: the value in the key's slot, for
    a key at or above `0`. -/
def lookup (m : ContiguousRangeMap α) (key : Int) : Option α :=
  if 0 ≤ key then (m.slot key.toNat).map Prod.snd else none

/-- Each occupied slot holds its own key, and `_size` counts the occupied
    slots. -/
structure WellFormed (m : ContiguousRangeMap α) : Prop where
  slot_key : ∀ i p, m.slot i = some p → p.1 = i
  size_eq : m.size = m.values.countP Option.isSome

/-! ## Slots -/

section Slots

variable {l : List (Option (Int × α))}

/-- Vacant slots at the back hold nothing. -/
theorem join_getElem?_append_replicate (l : List (Option (Int × α))) (n i : Nat) :
    ((l ++ List.replicate n none)[i]?).join = (l[i]?).join := by
  by_cases hi : i < l.length
  · rw [List.getElem?_append_left hi]
  · rw [List.getElem?_append_right (Nat.le_of_not_lt hi), List.getElem?_replicate,
      List.getElem?_eq_none (Nat.le_of_not_lt hi)]
    split <;> rfl

theorem countP_append_replicate (l : List (Option (Int × α))) (n : Nat) :
    (l ++ List.replicate n none).countP Option.isSome = l.countP Option.isSome := by
  simp [List.countP_append, List.countP_replicate]

/-- After growing, every slot up to the size asked for exists. -/
theorem getElem?_growTo_of_lt (l : List (Option (Int × α))) {n i : Nat} (hi : i < n) :
    (growTo l n)[i]? = some ((l[i]?).join) := by
  unfold growTo
  by_cases hl : i < l.length
  · rw [List.getElem?_append_left hl, List.getElem?_eq_getElem hl]
    rfl
  · rw [List.getElem?_append_right (Nat.le_of_not_lt hl), List.getElem?_replicate, if_pos (by omega),
      List.getElem?_eq_none (Nat.le_of_not_lt hl)]
    rfl

theorem length_growTo (l : List (Option (Int × α))) (n : Nat) :
    (growTo l n).length = max l.length n := by
  simp only [growTo, List.length_append, List.length_replicate]
  omega

theorem join_getElem?_set {k : Nat} (hk : k < l.length) (x : Option (Int × α)) (i : Nat) :
    ((l.set k x)[i]?).join = if i = k then x else (l[i]?).join := by
  rw [List.getElem?_set]
  by_cases h : k = i
  · subst h
    simp [hk]
  · rw [if_neg h, if_neg (Ne.symm h)]

theorem join_getElem?_concat (l : List (Option (Int × α))) (x : Option (Int × α)) (i : Nat) :
    ((l ++ [x])[i]?).join = if i = l.length then x else (l[i]?).join := by
  rcases lt_trichotomy i l.length with hi | rfl | hi
  · rw [List.getElem?_append_left hi, if_neg (Nat.ne_of_lt hi)]
  · rw [List.getElem?_concat_length, if_pos rfl]
    rfl
  · rw [if_neg (Nat.ne_of_gt hi), List.getElem?_eq_none (by simp; omega),
      List.getElem?_eq_none (Nat.le_of_lt hi)]

/-- An iterator made at an occupied slot stays there. -/
theorem skipToNextPresent_of_join {i : Nat} {p : Int × α} (h : (l[i]?).join = some p) :
    skipToNextPresent l i = i := by
  have hget : l[i]? = some (some p) := Option.join_eq_some_iff.1 h
  obtain ⟨hi, hgi⟩ := List.getElem?_eq_some_iff.1 hget
  rw [skipToNextPresent, List.drop_eq_getElem_cons hi, hgi,
    List.takeWhile_cons_of_neg (by simp), List.length_nil, Nat.add_zero]

end Slots

/-! ## The map the slots stand for -/

section Lookup

variable {m m' : ContiguousRangeMap α} {key : Int}

theorem lookup_of_neg (h : key < 0) : m.lookup key = none := if_neg (not_le.2 h)

theorem lookup_of_nonneg (h : 0 ≤ key) : m.lookup key = (m.slot key.toNat).map Prod.snd :=
  if_pos h

/-- The map holds `(key, v)` exactly when the key's slot holds that pair,
    on a well-formed map. -/
theorem lookup_eq_some_iff (hw : m.WellFormed) {v : α} :
    m.lookup key = some v ↔ 0 ≤ key ∧ m.values[key.toNat]? = some (some (key, v)) := by
  constructor
  · intro h
    by_cases hk : 0 ≤ key
    · rw [lookup_of_nonneg hk, Option.map_eq_some_iff] at h
      obtain ⟨p, hp, rfl⟩ := h
      -- the slot holds its own key
      have hkey : p.1 = key := by rw [hw.slot_key _ p hp]; omega
      refine ⟨hk, Option.join_eq_some_iff.1 ?_⟩
      show m.slot key.toNat = some (key, p.2)
      rw [hp, ← hkey]
    · rw [lookup_of_neg (not_le.1 hk)] at h
      cases h
  · rintro ⟨hk, hget⟩
    rw [lookup_of_nonneg hk, slot, hget]
    rfl

/-- A state whose slots are another's with the key's slot replaced stands
    for the other's map with the key's entry replaced. -/
theorem lookup_eq_update (hk : 0 ≤ key) {x : Option (Int × α)}
    (hslot : ∀ i, m'.slot i = if i = key.toNat then x else m.slot i) :
    m'.lookup = Function.update m.lookup key (x.map Prod.snd) := by
  funext k
  by_cases hkk : k = key
  · subst hkk
    rw [Function.update_self, lookup_of_nonneg hk, hslot, if_pos rfl]
  · rw [Function.update_of_ne hkk]
    by_cases h0 : 0 ≤ k
    · rw [lookup_of_nonneg h0, lookup_of_nonneg h0, hslot, if_neg (by omega)]
    · rw [lookup_of_neg (not_le.1 h0), lookup_of_neg (not_le.1 h0)]

/-- Replacing the key's slot by nothing or by a pair of that key keeps every
    slot holding its own key. -/
theorem slot_key_of_update (hw : m.WellFormed) (hk : 0 ≤ key) {x : Option (Int × α)}
    (hx : ∀ p ∈ x, p.1 = key) (hslot : ∀ i, m'.slot i = if i = key.toNat then x else m.slot i) :
    ∀ i p, m'.slot i = some p → p.1 = i := by
  intro i p hp
  rw [hslot] at hp
  split_ifs at hp with hi
  · rw [hx p hp, hi]
    omega
  · exact hw.slot_key i p hp

/-- Vacant slots at the back change neither the map nor the count. -/
theorem wellFormed_lookup_of_append_replicate {n : Nat}
    (hv : m'.values = m.values ++ List.replicate n none) (hs : m'.size = m.size) :
    (m'.WellFormed ↔ m.WellFormed) ∧ m'.lookup = m.lookup := by
  have hslot : ∀ i, m'.slot i = m.slot i := fun i => by
    rw [slot, slot, hv, join_getElem?_append_replicate]
  have hcount : m'.values.countP Option.isSome = m.values.countP Option.isSome := by
    rw [hv, countP_append_replicate]
  refine ⟨⟨fun hw => ⟨fun i p hp => hw.slot_key i p (by rw [hslot]; exact hp), ?_⟩,
    fun hw => ⟨fun i p hp => hw.slot_key i p (by rw [← hslot]; exact hp), ?_⟩⟩, ?_⟩
  · rw [← hs, hw.size_eq, hcount]
  · rw [hs, hw.size_eq, hcount]
  · funext k
    unfold lookup
    rw [hslot]

end Lookup

/-! ## What each operation does -/

section Operations

variable {m : ContiguousRangeMap α} {key : Int}

/-- The key's slot is past the end, vacant, or occupied. -/
theorem getElem?_toNat_cases (m : ContiguousRangeMap α) (key : Int) :
    (m.values[key.toNat]? = none ∧ m.values.length ≤ key.toNat) ∨
      (m.values[key.toNat]? = some none ∧ key.toNat < m.values.length) ∨
      ∃ p, m.values[key.toNat]? = some (some p) ∧ key.toNat < m.values.length := by
  rcases hget : m.values[key.toNat]? with _ | _ | p
  · exact .inl ⟨rfl, List.getElem?_eq_none_iff.1 hget⟩
  · exact .inr (.inl ⟨rfl, (List.getElem?_eq_some_iff.1 hget).1⟩)
  · exact .inr (.inr ⟨p, rfl, (List.getElem?_eq_some_iff.1 hget).1⟩)

/-- `contains` answers whether the map has the key. -/
theorem contains_eq (m : ContiguousRangeMap α) (key : Int) :
    m.contains key = (m.lookup key).isSome := by
  by_cases hk : 0 ≤ key
  · rw [lookup_of_nonneg hk, Option.isSome_map, slot]
    rcases getElem?_toNat_cases m key with ⟨hget, hlen⟩ | ⟨hget, hlen⟩ | ⟨p, hget, hlen⟩ <;>
      simp [contains, validKey, hk, hget, hlen]
  · rw [lookup_of_neg (not_le.1 hk)]
    simp [contains, validKey, hk]

/-- `find` is the key's slot when the map has the key, and `end()`
    otherwise. -/
theorem find_eq (m : ContiguousRangeMap α) (key : Int) :
    m.find key = if (m.lookup key).isSome then key.toNat else m.values.length := by
  by_cases hk : 0 ≤ key
  · rw [lookup_of_nonneg hk, Option.isSome_map, slot]
    rcases getElem?_toNat_cases m key with ⟨hget, hlen⟩ | ⟨hget, hlen⟩ | ⟨p, hget, hlen⟩
    · -- past the end
      rw [find, if_neg (by simp [validKey, Nat.not_lt.2 hlen]), hget]
      simp
    · -- a vacant slot
      rw [find, if_pos (by simp [validKey, hk, hlen]), hget]
      simp
    · have hskip := skipToNextPresent_of_join (p := p) (by rw [hget]; rfl)
      rw [find, if_pos (by simp [validKey, hk, hlen]), hget, hskip]
      simp
  · rw [lookup_of_neg (not_le.1 hk)]
    simp [find, validKey, hk]

/-- The iterator `find` returns dereferences to the key's entry. -/
theorem join_getElem?_find (hw : m.WellFormed) (key : Int) :
    (m.values[m.find key]?).join = (m.lookup key).map (key, ·) := by
  rw [find_eq]
  cases hl : m.lookup key with
  | none => simp
  | some v =>
    obtain ⟨-, hget⟩ := (lookup_eq_some_iff hw).1 hl
    simp [hget]

/-- `at` returns the key's value, and throws `std::out_of_range` exactly
    when the map lacks the key. -/
theorem at_eq (m : ContiguousRangeMap α) (key : Int) :
    m.at key = match m.lookup key with
      | some v => .ok v
      | none => .error (.outOfRange key) := by
  unfold «at»
  rw [find_eq]
  cases hl : m.lookup key with
  | none => simp
  | some v =>
    -- the key's slot exists and holds the value
    have hk : 0 ≤ key := by
      by_contra hk
      rw [lookup_of_neg (not_le.1 hk)] at hl
      cases hl
    rw [lookup_of_nonneg hk, Option.map_eq_some_iff] at hl
    obtain ⟨p, hp, rfl⟩ := hl
    have hlt : key.toNat < m.values.length := by
      by_contra hge
      rw [slot, List.getElem?_eq_none (Nat.le_of_not_lt hge)] at hp
      cases hp
    simp only [Option.isSome_some, if_true, if_neg (Nat.ne_of_lt hlt)]
    rw [show (m.values[key.toNat]?).join = some p from hp]

theorem emplace_of_neg (h : key < 0) (v : α) : m.emplace key v = .error (.invalidArgument key) := by
  simp [emplace, validKey, not_le.2 h]

/-- `emplace` of a key at or above `0` inserts only when the key is absent,
    says whether it did, and returns the key's slot. -/
theorem emplace_spec (hw : m.WellFormed) (hk : 0 ≤ key) (v : α) :
    ∃ m', m.emplace key v = .ok (m', key.toNat, (m.lookup key).isNone) ∧ m'.WellFormed ∧
      m'.lookup = if (m.lookup key).isSome then m.lookup else Function.update m.lookup key (some v) := by
  have hvalid : (!validKey key) = false := by simp [validKey, hk]
  by_cases hlen : key.toNat = m.values.length
  · -- the slot right past the last: `emplace_back`
    have habsent : m.lookup key = none := by
      rw [lookup_of_nonneg hk, slot, hlen, List.getElem?_eq_none (Nat.le_refl _)]
      rfl
    have hslot : ∀ i, (⟨m.values ++ [some (key, v)], m.size + 1⟩ : ContiguousRangeMap α).slot i =
        if i = key.toNat then some (key, v) else m.slot i := fun i => by
      rw [slot, join_getElem?_concat, hlen]
      rfl
    have hskip : skipToNextPresent (m.values ++ [some (key, v)]) key.toNat = key.toNat :=
      skipToNextPresent_of_join (p := (key, v)) (by rw [join_getElem?_concat, if_pos hlen])
    refine ⟨⟨m.values ++ [some (key, v)], m.size + 1⟩, ?_,
      ⟨slot_key_of_update hw hk (by simp) hslot, ?_⟩, ?_⟩
    · simp only [emplace, hvalid, Bool.false_eq_true, if_false, if_pos hlen, hskip, habsent,
        Option.isNone_none]
    · rw [hw.size_eq, List.countP_append]
      rfl
    · rw [habsent, lookup_eq_update hk hslot]
      rfl
  · have hget : (growTo m.values (key.toNat + 1))[key.toNat]? = some (m.slot key.toNat) :=
      getElem?_growTo_of_lt _ (Nat.lt_succ_self _)
    have hgrow : ((⟨growTo m.values (key.toNat + 1), m.size⟩ : ContiguousRangeMap α).WellFormed ↔
        m.WellFormed) ∧
        (⟨growTo m.values (key.toNat + 1), m.size⟩ : ContiguousRangeMap α).lookup = m.lookup :=
      wellFormed_lookup_of_append_replicate rfl rfl
    rcases hs : m.slot key.toNat with _ | p
    · -- a vacant slot, perhaps a new one: it takes the pair
      have habsent : m.lookup key = none := by rw [lookup_of_nonneg hk, hs]; rfl
      have hlt : key.toNat < (growTo m.values (key.toNat + 1)).length := by
        rw [length_growTo]
        omega
      have hslot : ∀ i, (⟨(growTo m.values (key.toNat + 1)).set key.toNat (some (key, v)),
          m.size + 1⟩ : ContiguousRangeMap α).slot i =
          if i = key.toNat then some (key, v) else m.slot i := fun i => by
        rw [slot, join_getElem?_set hlt]
        split_ifs
        · rfl
        · rw [growTo, join_getElem?_append_replicate]
          rfl
      have hskip : skipToNextPresent ((growTo m.values (key.toNat + 1)).set key.toNat
          (some (key, v))) key.toNat = key.toNat :=
        skipToNextPresent_of_join (p := (key, v)) (by rw [join_getElem?_set hlt, if_pos rfl])
      refine ⟨_, ?_, ⟨slot_key_of_update hw hk (by simp) hslot, ?_⟩, ?_⟩
      · simp only [emplace, hvalid, Bool.false_eq_true, if_false, if_neg hlen, hget, hs, hskip,
          habsent, Option.isNone_none]
      · -- one more occupied slot
        have hvac : (growTo m.values (key.toNat + 1))[key.toNat] = none := by
          rw [List.getElem_eq_iff, hget, hs]
        rw [List.countP_set hlt, hvac, growTo, countP_append_replicate, ← hw.size_eq]
        simp
      · rw [habsent, lookup_eq_update hk hslot]
        rfl
    · -- an occupied slot: nothing changes but vacant slots at the back
      have hpresent : m.lookup key = some p.2 := by rw [lookup_of_nonneg hk, hs]; rfl
      have hskip : skipToNextPresent (growTo m.values (key.toNat + 1)) key.toNat = key.toNat :=
        skipToNextPresent_of_join (p := p) (by rw [hget]; exact hs)
      refine ⟨_, ?_, hgrow.1.2 hw, ?_⟩
      · simp only [emplace, hvalid, Bool.false_eq_true, if_false, if_neg hlen, hget, hs, hskip,
          hpresent, Option.isNone_some]
      · rw [hpresent, hgrow.2]
        rfl

/-- `erase(key)` of a key the map lacks, an invalid one among them,
    changes nothing. -/
theorem erase_of_lookup_eq_none (h : m.lookup key = none) : m.erase key = m := by
  unfold erase
  split_ifs with hv
  · have hk : 0 ≤ key := by
      simp only [Bool.and_eq_true, validKey, decide_eq_true_eq] at hv
      exact hv.1
    rcases hget : m.values[key.toNat]? with _ | _ | p
    · rfl
    · rfl
    · rw [lookup_of_nonneg hk, slot, hget] at h
      cases h
  · rfl

theorem erase_of_neg (h : key < 0) : m.erase key = m := erase_of_lookup_eq_none (lookup_of_neg h)

/-- `erase(key)` removes exactly the key. -/
theorem erase_spec (hw : m.WellFormed) (key : Int) :
    (m.erase key).WellFormed ∧ (m.erase key).lookup = Function.update m.lookup key none := by
  cases hl : m.lookup key with
  | none =>
    have hsame : Function.update m.lookup key none = m.lookup :=
      (Function.update_eq_self_iff (f := m.lookup) (a := key) (b := none)).2 hl.symm
    rw [erase_of_lookup_eq_none hl, hsame]
    exact ⟨hw, rfl⟩
  | some v =>
    obtain ⟨hk, hget⟩ := (lookup_eq_some_iff hw).1 hl
    have hlt : key.toNat < m.values.length := (List.getElem?_eq_some_iff.1 hget).1
    have herase : m.erase key = ⟨m.values.set key.toNat none, m.size - 1⟩ := by
      rw [erase, if_pos (by simp [validKey, hk, hlt]), hget]
    have hslot : ∀ i, (m.erase key).slot i = if i = key.toNat then none else m.slot i := fun i => by
      rw [herase, slot, join_getElem?_set hlt]
      rfl
    refine ⟨⟨slot_key_of_update hw hk (by simp) hslot, ?_⟩, lookup_eq_update hk hslot⟩
    -- one fewer occupied slot
    have hocc : m.values[key.toNat] = some (key, v) := by rw [List.getElem_eq_iff, hget]
    rw [herase, List.countP_set hlt, hocc, hw.size_eq]
    simp

/-- `erase(const_iterator)` at an occupied slot is `erase` of the key it
    holds. -/
theorem eraseAt_eq_erase (hw : m.WellFormed) {it : Nat} {p : Int × α} (h : m.slot it = some p) :
    m.eraseAt it = some (m.erase p.1) := by
  have hget : m.values[it]? = some (some p) := Option.join_eq_some_iff.1 h
  have hkey : p.1 = it := hw.slot_key it p h
  have hlt : it < m.values.length := (List.getElem?_eq_some_iff.1 hget).1
  have hskip : skipToNextPresent m.values it = it := skipToNextPresent_of_join h
  have hidx : p.1.toNat = it := by rw [hkey, Int.toNat_natCast]
  have herase : m.erase p.1 = ⟨m.values.set it none, m.size - 1⟩ := by
    rw [erase, hidx, if_pos (by simp [validKey, hkey, hlt]), hget]
  rw [herase, eraseAt, hget]
  dsimp only
  rw [hidx, hskip, hget]

/-- `erase(const_iterator)` at a vacant slot changes nothing. -/
theorem eraseAt_of_vacant {it : Nat} (h : m.values[it]? = some none) : m.eraseAt it = some m := by
  simp [eraseAt, h]

/-- `reserve` changes neither the map nor whether it is well formed. -/
theorem reserve_spec (m : ContiguousRangeMap α) (n : Nat) :
    ((m.reserve n).WellFormed ↔ m.WellFormed) ∧ (m.reserve n).lookup = m.lookup :=
  wellFormed_lookup_of_append_replicate rfl rfl

theorem popVacant_eq_none_iff : ∀ {l : List (Option (Int × α))},
    popVacant l = none ↔ ∀ x ∈ l, x = none
  | [] => by simp [popVacant]
  | none :: rest => by simp [popVacant, popVacant_eq_none_iff]
  | some p :: rest => by simp [popVacant]

/-- The loop pops vacant slots only. -/
theorem eq_replicate_append_of_popVacant : ∀ {l r : List (Option (Int × α))},
    popVacant l = some r → ∃ n, l = List.replicate n none ++ r
  | [], _, h => by cases h
  | none :: rest, _, h => by
    obtain ⟨n, hn⟩ := eq_replicate_append_of_popVacant (l := rest) h
    exact ⟨n + 1, by rw [hn]; rfl⟩
  | some p :: rest, _, h => by
    cases h
    exact ⟨0, rfl⟩

/-- `shrink_to_fit` reads `back()` of no slots exactly when no slot is
    occupied. -/
theorem shrinkToFit_eq_none_iff (m : ContiguousRangeMap α) :
    m.shrinkToFit = none ↔ ∀ x ∈ m.values, x = none := by
  rw [shrinkToFit, Option.map_eq_none_iff, popVacant_eq_none_iff]
  simp only [List.mem_reverse]

/-- Where it is defined, `shrink_to_fit` changes neither the map nor
    whether it is well formed. -/
theorem shrinkToFit_spec {m' : ContiguousRangeMap α} (h : m.shrinkToFit = some m') :
    (m'.WellFormed ↔ m.WellFormed) ∧ m'.lookup = m.lookup := by
  obtain ⟨r, hr, rfl⟩ := Option.map_eq_some_iff.1 h
  obtain ⟨n, hn⟩ := eq_replicate_append_of_popVacant hr
  -- the slots popped are vacant ones at the back
  have hv : m.values = r.reverse ++ List.replicate n none := by
    rw [← List.reverse_reverse m.values, hn, List.reverse_append, List.reverse_replicate]
  obtain ⟨hwf, hlk⟩ : (m.WellFormed ↔ (⟨r.reverse, m.size⟩ : ContiguousRangeMap α).WellFormed) ∧
      m.lookup = (⟨r.reverse, m.size⟩ : ContiguousRangeMap α).lookup :=
    wellFormed_lookup_of_append_replicate hv rfl
  exact ⟨hwf.symm, hlk.symm⟩

/-- Iteration holds exactly the map's entries. -/
theorem mem_iterate (hw : m.WellFormed) {k : Int} {v : α} : (k, v) ∈ m.iterate ↔ m.lookup k = some v := by
  rw [iterate, List.reduceOption_mem_iff, lookup_eq_some_iff hw]
  constructor
  · intro hmem
    obtain ⟨i, hi⟩ := List.mem_iff_getElem?.1 hmem
    -- the slot holds its own key
    have hkey : k = i := hw.slot_key i (k, v) (by rw [slot, hi]; rfl)
    subst hkey
    exact ⟨Int.natCast_nonneg i, by rw [Int.toNat_natCast]; exact hi⟩
  · rintro ⟨-, hget⟩
    exact List.mem_of_getElem? hget

/-- Iteration visits the keys in increasing order. -/
theorem iterate_pairwise (hw : m.WellFormed) : m.iterate.Pairwise (fun a b => a.1 < b.1) := by
  rw [iterate, List.reduceOption, List.pairwise_filterMap, List.pairwise_iff_getElem]
  intro i j hi hj hij a ha b hb
  -- each pair sits in the slot of its key
  have hai : a.1 = i := hw.slot_key i a (by rw [slot, List.getElem?_eq_getElem hi]; exact ha)
  have hbj : b.1 = j := hw.slot_key j b (by rw [slot, List.getElem?_eq_getElem hj]; exact hb)
  omega

/-- `size()` is the number of entries iteration visits. -/
theorem length_iterate (hw : m.WellFormed) : m.iterate.length = m.size := by
  rw [iterate, List.reduceOption_length_eq, hw.size_eq, List.countP_eq_length_filter]

end Operations

/-! ## `operator[]` -/

section Index

variable [Inhabited α] {m : ContiguousRangeMap α} {key : Int}

theorem index_of_neg (h : key < 0) : m.index key = .error (.invalidArgument key) := by
  simp only [index, emplace_of_neg h]
  rfl

/-- `operator[]` returns the key's value, default-constructed and inserted
    when the key is absent. -/
theorem index_spec (hw : m.WellFormed) (hk : 0 ≤ key) :
    ∃ m', m.index key = .ok (m', (m.lookup key).getD default) ∧ m'.WellFormed ∧
      m'.lookup = if (m.lookup key).isSome then m.lookup
        else Function.update m.lookup key (some default) := by
  obtain ⟨m', he, hw', hl'⟩ := emplace_spec hw hk (default : α)
  -- the slot `emplace` returns holds the key's value
  have hval : m'.lookup key = some ((m.lookup key).getD default) := by
    rw [hl']
    cases hl : m.lookup key with
    | none => simp [hl]
    | some v => simp [hl]
  obtain ⟨-, hget⟩ := (lookup_eq_some_iff hw').1 hval
  refine ⟨m', ?_, hw', hl'⟩
  simp only [index, he, bind, Except.bind, hget]
  rfl

end Index

/-! ## Runs -/

/-- The states that `emplace`, `operator[]`, `erase` by key and by
    iterator, `reserve`, `shrink_to_fit` and `copy` reach from the empty
    map, each where it is defined. -/
inductive Reachable : ContiguousRangeMap α → Prop
  | empty : Reachable empty
  | emplace {m m' : ContiguousRangeMap α} {it : Nat} {inserted : Bool} (key : Int) (v : α) :
      Reachable m → m.emplace key v = .ok (m', it, inserted) → Reachable m'
  | index [Inhabited α] {m m' : ContiguousRangeMap α} {v : α} (key : Int) :
      Reachable m → m.index key = .ok (m', v) → Reachable m'
  | erase {m : ContiguousRangeMap α} (key : Int) : Reachable m → Reachable (m.erase key)
  | eraseAt {m m' : ContiguousRangeMap α} (it : Nat) :
      Reachable m → m.eraseAt it = some m' → Reachable m'
  | reserve {m : ContiguousRangeMap α} (n : Nat) : Reachable m → Reachable (m.reserve n)
  | shrinkToFit {m m' : ContiguousRangeMap α} :
      Reachable m → m.shrinkToFit = some m' → Reachable m'
  | copy {m : ContiguousRangeMap α} : Reachable m → Reachable m.copy

section Steps

variable {m m' : ContiguousRangeMap α}

theorem wellFormed_empty : (empty : ContiguousRangeMap α).WellFormed :=
  ⟨fun i p hp => by simp [slot, empty] at hp, rfl⟩

theorem WellFormed.emplace (hw : m.WellFormed) {key : Int} {v : α} {it : Nat} {inserted : Bool}
    (h : m.emplace key v = .ok (m', it, inserted)) : m'.WellFormed := by
  by_cases hk : 0 ≤ key
  · obtain ⟨m'', he, hw'', -⟩ := emplace_spec hw hk v
    rw [he] at h
    cases h
    exact hw''
  · rw [emplace_of_neg (not_le.1 hk)] at h
    cases h

theorem WellFormed.index [Inhabited α] (hw : m.WellFormed) {key : Int} {v : α}
    (h : m.index key = .ok (m', v)) : m'.WellFormed := by
  by_cases hk : 0 ≤ key
  · obtain ⟨m'', he, hw'', -⟩ := index_spec hw hk
    rw [he] at h
    cases h
    exact hw''
  · rw [index_of_neg (not_le.1 hk)] at h
    cases h

theorem WellFormed.eraseAt (hw : m.WellFormed) {it : Nat} (h : m.eraseAt it = some m') :
    m'.WellFormed := by
  rcases hget : m.values[it]? with _ | _ | p
  · rw [ContiguousRangeMap.eraseAt, hget] at h
    cases h
  · rw [eraseAt_of_vacant hget] at h
    cases h
    exact hw
  · rw [eraseAt_eq_erase hw (p := p) (by rw [slot, hget]; rfl)] at h
    cases h
    exact (erase_spec hw p.1).1

/-- Every reachable map is well formed. -/
theorem Reachable.wellFormed (h : Reachable m) : m.WellFormed := by
  induction h with
  | empty => exact wellFormed_empty
  | emplace _ _ _ he ih => exact ih.emplace he
  | index _ _ he ih => exact ih.index he
  | erase key _ ih => exact (erase_spec ih key).1
  | eraseAt _ _ he ih => exact ih.eraseAt he
  | reserve n _ ih => exact (reserve_spec _ n).1.2 ih
  | shrinkToFit _ he ih => exact (shrinkToFit_spec he).1.2 ih
  | copy _ ih => exact ih

end Steps

/-- What each operation of a map does to the ordered map `lookup` it
    stands for. -/
structure RefinesOrderedMap (m : ContiguousRangeMap α) : Prop where
  contains_eq : ∀ key, m.contains key = (m.lookup key).isSome
  find_eq : ∀ key, m.find key = if (m.lookup key).isSome then key.toNat else m.values.length
  find_deref : ∀ key, (m.values[m.find key]?).join = (m.lookup key).map (key, ·)
  at_eq : ∀ key, m.at key = match m.lookup key with
    | some v => .ok v
    | none => .error (.outOfRange key)
  emplace_of_neg : ∀ key v, key < 0 → m.emplace key v = .error (.invalidArgument key)
  emplace_eq : ∀ key v, 0 ≤ key → ∃ m', m.emplace key v = .ok (m', key.toNat, (m.lookup key).isNone) ∧
    m'.lookup = if (m.lookup key).isSome then m.lookup else Function.update m.lookup key (some v)
  index_eq : ∀ [Inhabited α] key, 0 ≤ key →
    ∃ m', m.index key = .ok (m', (m.lookup key).getD default) ∧
      m'.lookup = if (m.lookup key).isSome then m.lookup
        else Function.update m.lookup key (some default)
  erase_eq : ∀ key, (m.erase key).lookup = Function.update m.lookup key none
  erase_of_neg : ∀ key, key < 0 → m.erase key = m
  eraseAt_find : ∀ key v, m.lookup key = some v →
    ∃ m', m.eraseAt (m.find key) = some m' ∧ m'.lookup = Function.update m.lookup key none
  size_eq : m.size = m.iterate.length
  iterate_sorted : m.iterate.Pairwise fun a b => a.1 < b.1
  mem_iterate : ∀ k v, (k, v) ∈ m.iterate ↔ m.lookup k = some v
  reserve_eq : ∀ n, (m.reserve n).lookup = m.lookup
  shrinkToFit_eq_none_iff : m.shrinkToFit = none ↔ ∀ x ∈ m.values, x = none
  shrinkToFit_eq : ∀ m', m.shrinkToFit = some m' → m'.lookup = m.lookup
  copy_eq : m.copy = m

/-- A well-formed map refines the ordered map it stands for. -/
theorem WellFormed.refines {m : ContiguousRangeMap α} (hw : m.WellFormed) : RefinesOrderedMap m where
  contains_eq := m.contains_eq
  find_eq := m.find_eq
  find_deref := join_getElem?_find hw
  at_eq := m.at_eq
  emplace_of_neg _ v hk := emplace_of_neg hk v
  emplace_eq key v hk := by
    obtain ⟨m', he, -, hl⟩ := emplace_spec hw hk v
    exact ⟨m', he, hl⟩
  index_eq key hk := by
    obtain ⟨m', he, -, hl⟩ := index_spec hw hk
    exact ⟨m', he, hl⟩
  erase_eq key := (erase_spec hw key).2
  erase_of_neg _ hk := erase_of_neg hk
  eraseAt_find key v hv := by
    -- `find` is at the key's slot, which holds the key
    obtain ⟨hk, hget⟩ := (lookup_eq_some_iff hw).1 hv
    have hfind : m.find key = key.toNat := by rw [find_eq, hv]; rfl
    have hslot : m.slot key.toNat = some (key, v) := by rw [slot, hget]; rfl
    exact ⟨_, by rw [hfind, eraseAt_eq_erase hw hslot], (erase_spec hw key).2⟩
  size_eq := (length_iterate hw).symm
  iterate_sorted := iterate_pairwise hw
  mem_iterate _ _ := mem_iterate hw
  reserve_eq n := (reserve_spec m n).2
  shrinkToFit_eq_none_iff := m.shrinkToFit_eq_none_iff
  shrinkToFit_eq _ h := (shrinkToFit_spec h).2
  copy_eq := rfl

/-- **Every reachable map refines an ordered map on keys at or above `0`.** -/
theorem Reachable.refines {m : ContiguousRangeMap α} (h : Reachable m) : RefinesOrderedMap m :=
  h.wellFormed.refines

/-- `shrink_to_fit` reads `back()` of no slots on reachable maps with no
    entries: the empty map, the map after `reserve(3)`, and the map after
    `emplace(0, 7)` and `erase(0)`. -/
theorem contiguous_range_map_shrink_to_fit_all_vacant :
    Reachable (empty : ContiguousRangeMap Nat) ∧ (empty : ContiguousRangeMap Nat).shrinkToFit = none ∧
      Reachable ((empty : ContiguousRangeMap Nat).reserve 3) ∧
      ((empty : ContiguousRangeMap Nat).reserve 3).shrinkToFit = none ∧
      (empty : ContiguousRangeMap Nat).emplace 0 7 = .ok (⟨[some (0, 7)], 1⟩, 0, true) ∧
      Reachable ((⟨[some (0, 7)], 1⟩ : ContiguousRangeMap Nat).erase 0) ∧
      ((⟨[some (0, 7)], 1⟩ : ContiguousRangeMap Nat).erase 0).shrinkToFit = none := by
  have hemplace : (empty : ContiguousRangeMap Nat).emplace 0 7 = .ok (⟨[some (0, 7)], 1⟩, 0, true) :=
    rfl
  exact ⟨.empty, rfl, .reserve 3 .empty, rfl, hemplace, .erase 0 (.emplace 0 7 .empty hemplace), rfl⟩

end ContiguousRangeMap

end Container
