import Mathlib
import Redpanda.Storage.OffsetTranslatorReference

/-! # The translation table survives its persisted form

    `serialize_map` writes the first entry's delta and, for every entry, its
    base offset and its length `int32_t(o - base) + 1`; `from_serialized_map`
    reads every key back as `base + length - 1` and every later delta as the
    running sum of the lengths.  The map comes back exactly when it is
    `Persistable`: linked (every later gap starts past the key before it, is
    non-empty and adds its length to the delta) with every length within an
    `int32_t`.

    * `Persistable.roundTrip` reads a persistable map back from its
      persisted form, through the loop lemma `fromSerializedLoop_map`;
    * one lemma per call says when the call keeps the map persistable, and
      `Persistable.run` carries it through a run;
    * `serialize_map_round_trip` is the round trip of every map a run from
      the constructor reaches, and `serialize_map_round_trip_fails` the ways
      the unrestricted calls break it. -/

namespace OffsetTranslatorPersistence

open OffsetTranslatorState OffsetTranslatorReference

/-! ## `emplace` at the end of a map -/

/-- Past every key, `emplace` appends. -/
theorem emplace_of_lt {k : Int} {info : BatchInfo} :
    ∀ {m : OffsetMap}, (∀ e ∈ m, e.1 < k) → emplace k info m = m ++ [(k, info)]
  | [], _ => rfl
  | (k', info') :: rest, h => by
      have hk : k' < k := h _ List.mem_cons_self
      rw [emplace, if_neg (by omega), if_neg (by omega),
        emplace_of_lt fun e he => h e (List.mem_cons_of_mem _ he)]
      rfl

/-- At a key already there and below none, `emplace` does nothing. -/
theorem emplace_of_mem {k : Int} {info : BatchInfo} :
    ∀ {m : OffsetMap}, (∀ e ∈ m, e.1 ≤ k) → (∃ e ∈ m, e.1 = k) → emplace k info m = m
  | [], _, hmem => by simp at hmem
  | (k', info') :: rest, hle, hmem => by
      have hk : k' ≤ k := hle _ List.mem_cons_self
      rw [emplace, if_neg (by omega)]
      by_cases hkk : k = k'
      · rw [if_pos hkk]
      · rw [if_neg hkk, emplace_of_mem (fun e he => hle e (List.mem_cons_of_mem _ he))]
        obtain ⟨e, he, hek⟩ := hmem
        rcases List.mem_cons.mp he with rfl | he
        · exact absurd hek.symm hkk
        · exact ⟨e, he, hek⟩

/-! ## Lengths within an `int32_t` -/

/-- The length of an entry's gap is one past a value `int32_t` holds, and
    adding that one does not overflow. -/
def LengthFits (e : Int × BatchInfo) : Prop :=
  -2 ^ 31 ≤ e.1 - e.2.baseOffset ∧ e.1 - e.2.baseOffset < 2 ^ 31 - 1

/-- `int32_t(o - base) + 1` is the length, when it fits. -/
theorem length_persistBatch {e : Int × BatchInfo} (h : LengthFits e) :
    (persistBatch e).length.toInt = e.1 - e.2.baseOffset + 1 := by
  obtain ⟨h₁, h₂⟩ := h
  have hx : (Int32.ofInt (e.1 - e.2.baseOffset)).toInt = e.1 - e.2.baseOffset := by
    rw [Int32.toInt_ofInt, show Int32.size = 2 ^ 32 from rfl]
    exact Int.bmod_eq_of_le (by omega) (by omega)
  rw [persistBatch, Int32.toInt_add, hx, Int32.toInt_one]
  exact Int.bmod_eq_of_le (by omega) (by omega)

/-- The key `from_serialized_map` computes from a persisted entry is the
    entry's key. -/
theorem lastOffset_persistBatch {e : Int × BatchInfo} (h : LengthFits e) :
    (persistBatch e).baseOffset + ((persistBatch e).length.toInt - 1) = e.1 := by
  rw [length_persistBatch h]
  show e.2.baseOffset + (e.1 - e.2.baseOffset + 1 - 1) = e.1
  omega

/-! ## The round trip -/

/-- **THE INVARIANT**: a map `serialize_map` writes faithfully, linked and
    with every length within an `int32_t`. -/
def Persistable : OffsetMap → Prop
  | [] => False
  | (k, info) :: rest => LinkedFrom (k, info) rest ∧ ∀ e ∈ (k, info) :: rest, LengthFits e

/-- **THE LOOP**: past an entry `p` the loop has emplaced last, the
    persisted entries of a linked tail come back as that tail. -/
theorem fromSerializedLoop_map {p : Int × BatchInfo} {rest acc : OffsetMap}
    (hlink : LinkedFrom p rest) (hfits : ∀ e ∈ rest, LengthFits e)
    (hacc : ∀ e ∈ acc, e.1 ≤ p.1) :
    fromSerializedLoop acc p.2.nextDelta p.1 (rest.map persistBatch) = .ok (acc ++ rest) := by
  induction rest generalizing p acc with
  | nil => simp [fromSerializedLoop]
  | cons e rest ih =>
      obtain ⟨⟨hpb, hbk, hnd⟩, hrest⟩ := hlink
      have hfit : LengthFits e := hfits e List.mem_cons_self
      -- the entry starts past `p`, so it is read back with its key and delta
      have hdelta : p.2.nextDelta + (persistBatch e).length.toInt = e.2.nextDelta := by
        rw [length_persistBatch hfit, hnd]
      have hemplace : emplace e.1 ⟨e.2.baseOffset, e.2.nextDelta⟩ acc = acc ++ [e] :=
        emplace_of_lt fun a ha => by
          have := hacc a ha
          omega
      have hacc' : ∀ a ∈ acc ++ [e], a.1 ≤ e.1 := by
        intro a ha
        rcases List.mem_append.mp ha with ha | ha
        · have := hacc a ha
          omega
        · rw [List.mem_singleton.mp ha]
      have hnot : ¬ (persistBatch e).baseOffset ≤ p.1 := by
        show ¬ e.2.baseOffset ≤ p.1
        omega
      rw [List.map_cons, fromSerializedLoop, if_neg hnot]
      dsimp only
      rw [hdelta, lastOffset_persistBatch hfit]
      show fromSerializedLoop (emplace e.1 ⟨e.2.baseOffset, e.2.nextDelta⟩ acc) _ _ _ = _
      rw [hemplace, ih hrest (fun a ha => hfits a (List.mem_cons_of_mem _ ha)) hacc',
        List.append_assoc, List.singleton_append]

/-- **ROUND TRIP**: a persistable map comes back from its persisted form. -/
theorem Persistable.roundTrip {m : OffsetMap} (h : Persistable m) :
    ∃ p, serializeMap m = .ok p ∧ fromSerializedMap p = .ok m := by
  match m, h with
  | (k, info) :: rest, ⟨hlink, hfits⟩ =>
      have hfit : LengthFits (k, info) := hfits _ List.mem_cons_self
      refine ⟨_, rfl, ?_⟩
      rw [fromSerializedMap, List.map_cons]
      dsimp only
      rw [lastOffset_persistBatch hfit]
      exact fromSerializedLoop_map (p := (k, info)) hlink
        (fun e he => hfits e (List.mem_cons_of_mem _ he)) (by simp [emplace])

/-! ## Persistable maps -/

section Persistable

variable {m : OffsetMap}

/-- A non-empty prefix of a persistable map is persistable. -/
theorem Persistable.append_left {xs ys : OffsetMap} (h : Persistable (xs ++ ys))
    (hxs : xs ≠ []) : Persistable xs := by
  match xs, h with
  | [], _ => exact absurd rfl hxs
  | (k, i) :: rest, ⟨hlink, hfits⟩ =>
      exact ⟨hlink.append_left, fun e he => hfits e (List.mem_append_left ys he)⟩

/-- The last key of a persistable map is the largest. -/
theorem Persistable.key_le_last (h : Persistable m) {b : Int × BatchInfo}
    (hb : m.getLast? = some b) : ∀ e ∈ m, e.1 ≤ b.1 := by
  match m, h with
  | (k, i) :: rest, ⟨hlink, _⟩ =>
      rw [getLast?_cons_eq, Option.some.injEq] at hb
      rw [← hb]
      exact hlink.key_le_last

/-- A gap linked to the last entry, with a length within an `int32_t`,
    extends a persistable map. -/
theorem Persistable.concat (h : Persistable m) {b e : Int × BatchInfo}
    (hb : m.getLast? = some b) (hlink : Linked b e) (hfit : LengthFits e) :
    Persistable (m ++ [e]) := by
  match m, h with
  | (k, i) :: rest, ⟨hlink', hfits⟩ =>
      rw [getLast?_cons_eq, Option.some.injEq] at hb
      refine ⟨hlink'.concat (hb ▸ hlink), fun e' he' => ?_⟩
      have he'' : e' ∈ ((k, i) :: rest) ++ [e] := he'
      rcases List.mem_append.mp he'' with he' | he'
      · exact hfits e' he'
      · rw [List.mem_singleton.mp he']
        exact hfit

theorem persistable_init (b0 d0 : Int) : Persistable (init b0 d0) :=
  ⟨trivial, by simp [LengthFits]⟩

/-! ## What each call keeps -/

/-- `add_gap` of a batch shorter than `2 ^ 31 - 1` offsets keeps the map
    persistable. -/
theorem Persistable.addGap (h : Persistable m) {base last : Int} (hbl : base ≤ last)
    (hfit : last - base < 2 ^ 31 - 1) : Persistable (applyOp m (.addGap base last)) := by
  match m, h with
  | (k, i) :: rest, hp =>
      by_cases hap : appends ((k, i) :: rest) base last = true
      · -- a new gap past the last key
        have hcond := hap
        simp only [appends, List.head?_cons, getLast?_cons_eq, decide_eq_true_eq] at hcond
        have hentry : gapEntry ((k, i) :: rest) base last
            = (last, ⟨base, (lastOf (k, i) rest).2.nextDelta + (last - base + 1)⟩) := by
          simp [gapEntry, getLast?_cons_eq]
        simp only [applyOp, addGap_of_appends hap, hentry]
        exact hp.concat (getLast?_cons_eq _ _) ⟨hcond.2, hbl, rfl⟩ ⟨by simp; omega, by simp; omega⟩
      · -- dropped or repeated: the map is unchanged
        have hne : appends ((k, i) :: rest) base last = false := by simpa using hap
        simp only [applyOp]
        cases hr : OffsetTranslatorState.addGap ((k, i) :: rest) base last with
        | error _ => exact hp
        | ok m' =>
            rw [addGap_of_not_appends hne hr]
            exact hp

/-- `truncate` keeps the map persistable. -/
theorem Persistable.truncate (h : Persistable m) (t : Int) :
    Persistable (applyOp m (.truncate t)) := by
  match m, h with
  | (k, i) :: rest, hp =>
      simp only [applyOp]
      cases htr : OffsetTranslatorState.truncate ((k, i) :: rest) t with
      | error _ => exact hp
      | ok v =>
          obtain ⟨-, rest', suf, hm', hsplit, -, -⟩ := truncate_spec hp.1 htr
          dsimp only
          rw [hm']
          rw [hsplit] at hp
          have hp' : Persistable (((k, i) :: rest') ++ suf) := hp
          exact hp'.append_left (List.cons_ne_nil _ _)

/-- `prefix_truncate` keeps the map persistable: the entry it puts first is a
    one-offset batch. -/
theorem Persistable.prefixTruncate (h : Persistable m) (o : Int) :
    Persistable (applyOp m (.prefixTruncate o)) := by
  match m, h with
  | (k, i) :: rest, hp@⟨hlink, hfits⟩ =>
      simp only [applyOp]
      cases hpt : OffsetTranslatorState.prefixTruncate ((k, i) :: rest) o with
      | error _ => exact hp
      | ok v =>
          dsimp only
          rcases prefixTruncate_spec hlink hpt with heq | ⟨-, pre, post, hsplit, -, hlink', hm'⟩
          · rw [heq]
            exact hp
          · rw [hm']
            refine ⟨hlink', fun e he => ?_⟩
            rcases List.mem_cons.mp he with rfl | he
            · simp [LengthFits]
            · rw [hsplit] at hfits
              exact hfits e (List.mem_cons_of_mem _ (List.mem_append_right _ he))

/-- What `add_absolute_delta(offset, delta)` needs to keep the map
    persistable: an offset past 0, so that the gap ends at `offset - 1`;
    a length within an `int32_t` when the map is emptied; and otherwise a
    gap that starts past the last entry kept and is shorter than `2 ^ 31`
    offsets whenever one is emplaced. -/
def AbsoluteDeltaAdmissible (m : OffsetMap) (offset delta : Int) : Prop :=
  0 < offset ∧
    (m.takeWhile (·.1 ≤ Model.prevOffset offset) = [] → -2 ^ 31 < delta ∧ delta < 2 ^ 31) ∧
    ∀ e ∈ (m.takeWhile (·.1 ≤ Model.prevOffset offset)).getLast?,
      e.1 < Model.prevOffset offset → 0 < delta - e.2.nextDelta →
        e.1 < offset - (delta - e.2.nextDelta) ∧ delta - e.2.nextDelta < 2 ^ 31

instance (m : OffsetMap) (offset delta : Int) :
    Decidable (AbsoluteDeltaAdmissible m offset delta) :=
  inferInstanceAs (Decidable (_ ∧ _ ∧ _))

/-- The entries `add_absolute_delta` keeps are a persistable map, or none. -/
theorem Persistable.takeWhile (h : Persistable m) (p : Int × BatchInfo → Bool)
    (hne : m.takeWhile p ≠ []) : Persistable (m.takeWhile p) := by
  rw [← List.takeWhile_append_dropWhile (p := p) (l := m)] at h
  exact h.append_left hne

/-- An admissible `add_absolute_delta` keeps the map persistable. -/
theorem Persistable.addAbsoluteDelta (h : Persistable m) {offset delta : Int}
    (hadm : AbsoluteDeltaAdmissible m offset delta) {r : Bool × OffsetMap}
    (hr : addAbsoluteDelta m offset delta = .ok r) : Persistable r.2 := by
  obtain ⟨hoff, hnone, hsome⟩ := hadm
  have hend : Model.prevOffset offset = offset - 1 := Model.prevOffset_of_pos hoff
  rw [OffsetTranslatorState.addAbsoluteDelta,
    if_neg (fun hlt => by rw [if_pos hlt] at hr; cases hr)] at hr
  dsimp only at hr
  have hkeys : ∀ e ∈ m.takeWhile (·.1 ≤ Model.prevOffset offset), e.1 ≤ Model.prevOffset offset :=
    fun e he => by simpa using List.mem_takeWhile_imp he
  split at hr
  next hlast =>
    -- the map is emptied: the gap alone, ending at `offset - 1`
    obtain ⟨h₁, h₂⟩ := hnone (List.getLast?_eq_none_iff.mp hlast)
    cases hr
    rw [List.getLast?_eq_none_iff.mp hlast]
    refine ⟨trivial, fun e he => ?_⟩
    rw [List.mem_singleton.mp he, LengthFits, hend]
    dsimp only
    omega
  next backKey back hlast =>
    have hkept := h.takeWhile (·.1 ≤ Model.prevOffset offset) fun hnil => by
      rw [hnil] at hlast
      cases hlast
    have hbk : backKey ≤ Model.prevOffset offset := hkeys _ (List.mem_of_getLast? hlast)
    -- a negative gap length throws; `split_ifs` drops that branch
    split_ifs at hr with hneg hpos
    · cases hr
      dsimp only
      by_cases heq : backKey = Model.prevOffset offset
      · -- `emplace` finds the gap's end already there
        rw [emplace_of_mem hkeys ⟨_, List.mem_of_getLast? hlast, heq⟩]
        exact hkept
      · have hlt : backKey < Model.prevOffset offset := lt_of_le_of_ne hbk heq
        obtain ⟨hpast, hshort⟩ := hsome (backKey, back) hlast hlt hpos
        dsimp only at hpast hshort
        rw [emplace_of_lt fun e he => lt_of_le_of_lt (hkept.key_le_last hlast e he) hlt]
        refine hkept.concat hlast ⟨hpast, ?_, ?_⟩ ⟨?_, ?_⟩ <;> dsimp only <;> rw [hend] <;> omega
    · cases hr
      exact hkept

end Persistable

/-! ## Runs of calls -/

/-- The calls on the table: those of the reference property and
    `add_absolute_delta`. -/
inductive MapOp where
  | op (o : Op)
  | addAbsoluteDelta (offset delta : Int)
deriving DecidableEq, Repr

namespace MapOp

/-- One call; a call that throws leaves the table as it was. -/
def apply (m : OffsetMap) : MapOp → OffsetMap
  | .op o => applyOp m o
  | .addAbsoluteDelta offset delta =>
      match OffsetTranslatorState.addAbsoluteDelta m offset delta with
      | .ok r => r.2
      | .error _ => m

/-- The calls that keep the table persistable: `add_gap` of a batch shorter
    than `2 ^ 31 - 1` offsets, and an admissible `add_absolute_delta`. -/
def Admissible (m : OffsetMap) : MapOp → Prop
  | .op (.addGap base last) => base ≤ last ∧ last - base < 2 ^ 31 - 1
  | .op _ => True
  | .addAbsoluteDelta offset delta => AbsoluteDeltaAdmissible m offset delta

instance (m : OffsetMap) : (op : MapOp) → Decidable (op.Admissible m)
  | .op (.addGap base last) => inferInstanceAs (Decidable (base ≤ last ∧ last - base < 2 ^ 31 - 1))
  | .op (.truncate _) => isTrue trivial
  | .op (.prefixTruncate _) => isTrue trivial
  | .addAbsoluteDelta offset delta =>
      inferInstanceAs (Decidable (AbsoluteDeltaAdmissible m offset delta))

end MapOp

/-- **STEP**: an admissible call keeps the table persistable, thrown or not. -/
theorem Persistable.apply {m : OffsetMap} (h : Persistable m) {op : MapOp}
    (hop : op.Admissible m) : Persistable (op.apply m) := by
  cases op with
  | op o =>
      cases o with
      | addGap base last => exact h.addGap hop.1 hop.2
      | truncate t => exact h.truncate t
      | prefixTruncate o => exact h.prefixTruncate o
  | addAbsoluteDelta offset delta =>
      simp only [MapOp.apply]
      cases hr : OffsetTranslatorState.addAbsoluteDelta m offset delta with
      | error _ => exact h
      | ok r => exact h.addAbsoluteDelta hop hr

/-- The table after a run of calls. -/
def runOps (m : OffsetMap) (ops : List MapOp) : OffsetMap :=
  ops.foldl MapOp.apply m

/-- Every call of the run is admissible in the table it meets. -/
def RunAdmissible : OffsetMap → List MapOp → Prop
  | _, [] => True
  | m, op :: ops => op.Admissible m ∧ RunAdmissible (op.apply m) ops

instance decidableRunAdmissible : (m : OffsetMap) → (ops : List MapOp) →
    Decidable (RunAdmissible m ops)
  | _, [] => isTrue trivial
  | m, op :: ops =>
      have := decidableRunAdmissible (op.apply m) ops
      inferInstanceAs (Decidable (op.Admissible m ∧ RunAdmissible (op.apply m) ops))

/-- **RUN**: an admissible run keeps the table persistable. -/
theorem Persistable.run : ∀ (ops : List MapOp) {m : OffsetMap}, Persistable m →
    RunAdmissible m ops → Persistable (runOps m ops)
  | [], _, h, _ => h
  | _ :: ops, _, h, hadm => Persistable.run ops (h.apply hadm.1) hadm.2

/-- **THE PERSISTED MAP READS BACK.**  From the constructor, after any run of
    `add_gap` calls for batches shorter than `2 ^ 31 - 1` offsets,
    `truncate`, `prefix_truncate` and admissible `add_absolute_delta` calls,
    `from_serialized_map` gives back exactly the map `serialize_map` wrote:
    the same keys, base offsets and deltas. -/
theorem serialize_map_round_trip (b0 d0 : Int) (ops : List MapOp)
    (hadm : RunAdmissible (init b0 d0) ops) :
    ∃ p, serializeMap (runOps (init b0 d0) ops) = .ok p ∧
      fromSerializedMap p = .ok (runOps (init b0 d0) ops) :=
  ((persistable_init b0 d0).run ops hadm).roundTrip

/-- The calls of the source's test: an absolute delta, gaps, an absolute
    delta that adds nothing, then cuts at both ends. -/
theorem serialize_map_round_trip_sample :
    RunAdmissible (init (-1) 0)
        [.addAbsoluteDelta 10 5, .op (.addGap 10 14), .op (.addGap 18 19),
          .addAbsoluteDelta 20 12, .op (.addGap 25 28), .op (.truncate 25), .op (.prefixTruncate 12)] ∧
      ∃ p, serializeMap (runOps (init (-1) 0)
          [.addAbsoluteDelta 10 5, .op (.addGap 10 14), .op (.addGap 18 19),
            .addAbsoluteDelta 20 12, .op (.addGap 25 28), .op (.truncate 25),
            .op (.prefixTruncate 12)]) = .ok p ∧
        fromSerializedMap p = .ok (runOps (init (-1) 0)
          [.addAbsoluteDelta 10 5, .op (.addGap 10 14), .op (.addGap 18 19),
            .addAbsoluteDelta 20 12, .op (.addGap 25 28), .op (.truncate 25),
            .op (.prefixTruncate 12)]) :=
  ⟨by decide, serialize_map_round_trip (-1) 0
    [.addAbsoluteDelta 10 5, .op (.addGap 10 14), .op (.addGap 18 19),
      .addAbsoluteDelta 20 12, .op (.addGap 25 28), .op (.truncate 25), .op (.prefixTruncate 12)]
    (by decide)⟩

/-- Without the contract the map does not come back.  An `add_absolute_delta`
    whose gap starts inside the gap before it is recorded, and the reader then
    refuses the map; a gap of `2 ^ 31 + 1` offsets wraps its `int32_t`
    length, so its key comes back below the first; and
    `add_absolute_delta(0, 0)` keys its gap at `prev_offset(0)`, the minimum
    offset, whose length no `int32_t` holds. -/
theorem serialize_map_round_trip_fails :
    runOps (init (-1) 0) [.op (.addGap 3 5), .addAbsoluteDelta 7 7] =
        [(-1, ⟨-1, 0⟩), (5, ⟨3, 3⟩), (6, ⟨3, 7⟩)] ∧
      (serializeMap [(-1, ⟨-1, 0⟩), (5, ⟨3, 3⟩), (6, ⟨3, 7⟩)]).bind fromSerializedMap =
        .error (.serializedOutOfOrder 3 5) ∧
      (serializeMap (runOps (init (-1) 0) [.op (.addGap 0 (2 ^ 31))])).bind fromSerializedMap =
        .ok [(-2 ^ 31, ⟨0, -2 ^ 31 + 1⟩), (-1, ⟨-1, 0⟩)] ∧
      runOps (init (-1) 0) [.addAbsoluteDelta 0 0] = [(Model.offsetMin, ⟨0, 0⟩)] ∧
      (serializeMap [(Model.offsetMin, ⟨0, 0⟩)]).bind fromSerializedMap = .ok [(0, ⟨0, 0⟩)] := by
  decide

end OffsetTranslatorPersistence
