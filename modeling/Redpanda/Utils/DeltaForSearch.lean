import Redpanda.Utils.DeltaForHint
import Redpanda.Utils.DeltaForTruncate

/-! # Searching a `deltafor_column`

    `find`, `upper_bound` and `lower_bound` of a column are its
    specialisation's `pred_search` with `std::equal_to`, `std::greater` and
    `std::greater_equal`.  The `delta_xor` column scans from `begin()`; the
    `delta_delta` column first passes every frame whose `last_value()` is
    below the value (it hard-codes `>=` for all three comparisons), then
    scans from the first frame it stops at through the frames after it.

    A scan from the iterator at index `g` ends at the first index from `g`
    on whose value the comparison holds, or at the end
    (`ColIterAt.searchFrom`).  In a column whose values do not decrease, a
    frame whose last value is below the value holds only values below it,
    on which none of the three comparisons holds (`SearchPred.eval_of_lt`),
    so the frames passed lose nothing (`skipFrames_eq_some`) and both
    searches return the first match in the whole column (`SearchSpec`).
    Every column that successful `append`s and `prefix_truncate_ix`s reach
    keeps `FramesHold`, whatever its values (`Reachable.holds`); the search
    asks no more of it than that its values do not decrease. -/

namespace DeltaFor

/-! ## The model -/

/-- The comparisons `pred_search` is called with: `std::equal_to` by
    `find`, `std::greater` by `upper_bound` and `std::greater_equal` by
    `lower_bound`. -/
inductive SearchPred where
  | equalTo
  | greater
  | greaterEqual
deriving DecidableEq, Repr

/-- `pred(a, value)` on `value_t`. -/
def SearchPred.eval (ty : IntType) : SearchPred → UInt64 → UInt64 → Bool
  | equalTo, a, value => a == value
  | greater, a, value => !ty.le a value
  | greaterEqual, a, value => ty.le value a

/-- The loop `for (; it != end(); ++it) if (pred(*it, value)) return it;`
    at most `fuel` times, and `end()` after it. -/
def ColumnIterator.searchFrom (ty : IntType) (pred : UInt64 → Bool) :
    Nat → ColumnIterator → Option ColumnIterator
  | 0, _ => none
  | fuel + 1, it =>
      if it.equal endIter then some endIter
      else
        it.deref.bind fun v =>
          if pred v then some it else (it.increment ty).bind (searchFrom ty pred fuel)

namespace DeltaforColumn

variable (ty : IntType) (delta : DeltaStep)

/-- `pred_search` of the `delta_xor` column: a scan from `begin()`, which
    runs at most `size() + 1` times. -/
def predSearchXor (c : DeltaforColumn) (value : UInt64) (pred : SearchPred) : Option ColumnIterator :=
  (c.begin ty delta).bind (ColumnIterator.searchFrom ty (fun v => pred.eval ty v value) (c.size + 1))

/-- The loop over the frames of the `delta_delta` `pred_search`: the first
    frame whose `last_value()` is at least `value`, the frames after it,
    and the number of values before it. -/
def skipFrames (value : UInt64) :
    List DeltaforFrame → Nat → Option (DeltaforFrame × List DeltaforFrame × Nat)
  | [], _ => none
  | f :: fs, index =>
      match f.lastValue with
      | some last =>
          if ty.le value last then some (f, fs, index) else skipFrames value fs (index + f.size)
      | none => skipFrames value fs (index + f.size)

/-- `pred_search` of the `delta_delta` column: past the frames whose last
    value is below `value`, `const_iterator(it, _frames.end(), 0, index)`
    and a scan from there; `end()` when every frame is passed. -/
def predSearchDelta (c : DeltaforColumn) (value : UInt64) (pred : SearchPred) : Option ColumnIterator :=
  match skipFrames ty value c.frames 0 with
  | none => some ColumnIterator.endIter
  | some (f, fs, index) =>
      ((f.atIndex ty delta 0).bind fun inner =>
          (fs.mapM (DeltaforFrame.begin ty delta)).map fun snap => ⟨snap, inner, index⟩).bind
        (ColumnIterator.searchFrom ty (fun v => pred.eval ty v value) (c.size + 1))

end DeltaforColumn

/-- `pred_search` of the specialisation. -/
def ColumnAlg.predSearch (ty : IntType) : ColumnAlg → DeltaforColumn → UInt64 → SearchPred →
    Option ColumnIterator
  | deltaXor, c, value, pred => c.predSearchXor ty ColumnAlg.deltaXor.instance value pred
  | deltaDelta, c, value, pred => c.predSearchDelta ty ColumnAlg.deltaDelta.instance value pred

namespace DeltaforColumn

/-- `find`. -/
def find (ty : IntType) (alg : ColumnAlg) (c : DeltaforColumn) (value : UInt64) : Option ColumnIterator :=
  alg.predSearch ty c value .equalTo

/-- `upper_bound`. -/
def upperBound (ty : IntType) (alg : ColumnAlg) (c : DeltaforColumn) (value : UInt64) :
    Option ColumnIterator :=
  alg.predSearch ty c value .greater

/-- `lower_bound`. -/
def lowerBound (ty : IntType) (alg : ColumnAlg) (c : DeltaforColumn) (value : UInt64) :
    Option ColumnIterator :=
  alg.predSearch ty c value .greaterEqual

end DeltaforColumn

/-! ## What a search returns -/

/-- What a search by `pred` for `value` in the values `s` returns: the
    iterator at the first value `pred` holds of, or the end. -/
def SearchSpec (ty : IntType) (s : List UInt64) (value : UInt64) (pred : SearchPred)
    (it : ColumnIterator) : Prop :=
  match s.findIdx? fun v => pred.eval ty v value with
  | some i => it.isEnd = false ∧ it.index = i ∧ it.deref = s[i]?
  | none => it.isEnd = true

/-- The columns `append` and `prefix_truncate_ix` reach from an empty
    column, with the values they hold.  Every step is one that succeeded:
    an `append` that completes a row failing a `vassert` of
    `delta_delta::encode` reaches nothing. -/
inductive Reachable (ty : IntType) (alg : ColumnAlg) (maxFrameSize : Nat) :
    DeltaforColumn → List UInt64 → Prop where
  | empty : Reachable ty alg maxFrameSize ⟨[]⟩ []
  | append {c c' : DeltaforColumn} {s : List UInt64} {v : UInt64} :
      Reachable ty alg maxFrameSize c s →
      c.append ty alg.instance maxFrameSize v = some c' → Reachable ty alg maxFrameSize c' (s ++ [v])
  | prefixTruncateIx {c c' : DeltaforColumn} {s : List UInt64} {k : UInt32} :
      Reachable ty alg maxFrameSize c s → c.prefixTruncateIx ty alg.instance k = some c' →
      Reachable ty alg maxFrameSize c' (if k.toNat < s.length then s.drop k.toNat else s)

/-! ## Values below the one searched for -/

/-- None of the comparisons holds of a value below the one searched for. -/
theorem SearchPred.eval_of_lt {ty : IntType} {a value : UInt64} (pred : SearchPred)
    (h : ty.toInt a < ty.toInt value) : pred.eval ty a value = false := by
  cases pred with
  | equalTo =>
      have hne : a ≠ value := fun heq => by
        rw [heq] at h
        exact lt_irrefl _ h
      simpa [SearchPred.eval] using hne
  | greater => simp [SearchPred.eval, IntType.le, le_of_lt h]
  | greaterEqual => simp [SearchPred.eval, IntType.le, not_le.mpr h]

/-- Values each at least the one before are at most every later one. -/
theorem pairwise_of_isChain {ty : IntType} {s : List UInt64}
    (h : List.IsChain (fun a b => ty.toInt a ≤ ty.toInt b) s) :
    s.Pairwise fun a b => ty.toInt a ≤ ty.toInt b := by
  have hchain : List.IsChain (· ≤ ·) (s.map ty.toInt) := (List.isChain_map ty.toInt).mpr h
  exact List.pairwise_map.mp hchain.pairwise

/-- In values that do not decrease, every value is at most the last. -/
theorem le_of_getLast? {ty : IntType} {l : List UInt64} (h : l.Pairwise fun a b => ty.toInt a ≤ ty.toInt b)
    {last : UInt64} (hlast : l.getLast? = some last) : ∀ v ∈ l, ty.toInt v ≤ ty.toInt last := by
  intro v hv
  rw [← List.dropLast_append_getLast? last hlast] at h hv
  rcases List.mem_append.mp hv with hv | hv
  · exact (List.pairwise_append.mp h).2.2 v hv last List.mem_cons_self
  · rw [List.mem_singleton.mp hv]

/-! ## The scan -/

/-- Where a scan by `p` from index `g` of the values of `fr` stops: at the
    first index from `g` on whose value `p` holds, or at the end. -/
def ScanStops (ty : IntType) (fr : List (List (List UInt64) × List UInt64)) (p : UInt64 → Bool)
    (g : Nat) (it : ColumnIterator) : Prop :=
  match ((columnValues fr).drop g).findIdx? p with
  | some j => ColIterAt ty fr it (g + j)
  | none => it = ColumnIterator.endIter

section Scan

variable {ty : IntType} {fr : List (List (List UInt64) × List UInt64)}

/-- A scan from the iterator at index `g`, with more fuel than values
    left, stops at the first match from `g` on. -/
theorem ColIterAt.searchFrom (hne : ∀ q ∈ fr, frameValues q ≠ []) (p : UInt64 → Bool) (k : Nat) :
    ∀ {it : ColumnIterator} {g fuel : Nat}, ColIterAt ty fr it g → g + k = (columnValues fr).length →
      k < fuel → ∃ it', ColumnIterator.searchFrom ty p fuel it = some it' ∧ ScanStops ty fr p g it' := by
  -- induction on the values left, as the loop goes
  induction k with
  | zero =>
      intro it g fuel h hk hfuel
      obtain ⟨fuel, rfl⟩ := Nat.exists_eq_succ_of_ne_zero (Nat.pos_iff_ne_zero.mp hfuel)
      have hend := h.isEnd_eq
      rw [decide_eq_true (by omega)] at hend
      refine ⟨ColumnIterator.endIter, ?_, ?_⟩
      · rw [ColumnIterator.searchFrom, ColumnIterator.equal_endIter, hend, if_pos rfl]
      · rw [ScanStops, List.drop_eq_nil_of_le (by omega)]
        rfl
  | succ k ih =>
      intro it g fuel h hk hfuel
      obtain ⟨fuel, rfl⟩ := Nat.exists_eq_succ_of_ne_zero (Nat.pos_iff_ne_zero.mp (by omega : 0 < fuel))
      have hg : g < (columnValues fr).length := by omega
      have hend := h.isEnd_eq
      rw [decide_eq_false (Nat.ne_of_lt hg)] at hend
      have hderef := h.deref hg
      rw [List.getElem?_eq_getElem hg] at hderef
      have hdrop := List.drop_eq_getElem_cons hg
      by_cases hp : p (columnValues fr)[g]
      · -- the value at `g` matches
        refine ⟨it, ?_, ?_⟩
        · rw [ColumnIterator.searchFrom, ColumnIterator.equal_endIter, hend, if_neg Bool.false_ne_true,
            hderef, Option.bind_some, if_pos hp]
        · rw [ScanStops, hdrop, List.findIdx?_cons, if_pos hp]
          exact h
      · -- on to the next value
        obtain ⟨it₁, hinc, h₁⟩ := h.increment hg hne
        obtain ⟨it', hsearch, hstop⟩ := @ih it₁ (g + 1) fuel h₁ (by omega) (by omega)
        refine ⟨it', ?_, ?_⟩
        · rw [ColumnIterator.searchFrom, ColumnIterator.equal_endIter, hend, if_neg Bool.false_ne_true,
            hderef, Option.bind_some, if_neg hp, hinc, Option.bind_some, hsearch]
        · rw [ScanStops, hdrop, List.findIdx?_cons, if_neg hp]
          unfold ScanStops at hstop
          cases hf : ((columnValues fr).drop (g + 1)).findIdx? p with
          | none =>
              rw [hf] at hstop
              exact hstop
          | some j =>
              rw [hf] at hstop
              show ColIterAt ty fr it' (g + (j + 1))
              rw [show g + (j + 1) = g + 1 + j by omega]
              exact hstop

/-- A scan that stops after every earlier value fails the comparison
    returns the first match of the whole column. -/
theorem ScanStops.searchSpec {value : UInt64} {pred : SearchPred} {g : Nat} {it : ColumnIterator}
    (hstop : ScanStops ty fr (fun v => pred.eval ty v value) g it) (hg : g ≤ (columnValues fr).length)
    (hbefore : ∀ v ∈ (columnValues fr).take g, pred.eval ty v value = false) :
    SearchSpec ty (columnValues fr) value pred it := by
  have hfind : (columnValues fr).findIdx? (fun v => pred.eval ty v value) =
      (((columnValues fr).drop g).findIdx? fun v => pred.eval ty v value).map (· + g) := by
    conv_lhs => rw [← List.take_append_drop g (columnValues fr)]
    rw [List.findIdx?_append, List.findIdx?_eq_none_iff.mpr hbefore, Option.none_or, List.length_take,
      Nat.min_eq_left hg]
  unfold ScanStops at hstop
  rw [SearchSpec, hfind]
  cases hf : ((columnValues fr).drop g).findIdx? (fun v => pred.eval ty v value) with
  | none =>
      rw [hf] at hstop
      rw [hstop]
      exact ColumnIterator.isEnd_endIter
  | some j =>
      rw [hf] at hstop
      have hj : g + j < (columnValues fr).length := by
        have hlt := (List.findIdx?_eq_some_iff_getElem.mp hf).1
        rw [List.length_drop] at hlt
        omega
      show it.isEnd = false ∧ it.index = j + g ∧ it.deref = (columnValues fr)[j + g]?
      refine ⟨?_, ?_, ?_⟩
      · rw [hstop.isEnd_eq]
        exact decide_eq_false (by omega)
      · rw [hstop.index_eq hj]
        omega
      · rw [hstop.deref hj, Nat.add_comm]

end Scan

/-! ## The frames the `delta_delta` search passes -/

section Skip

variable {ty : IntType} {delta : DeltaStep} (value : UInt64)

/-- A ready frame's last value is its values' last. -/
theorem FrameReady.lastValue_eq {f : DeltaforFrame} {p : List (List UInt64) × List UInt64}
    (hf : FrameReady ty delta f p) : ∃ last, f.lastValue = some last ∧ (frameValues p).getLast? = some last := by
  have hne : frameValues p ≠ [] := by
    have hsize := hf.holds.size_eq_length
    have hpos := hf.size_pos
    exact List.ne_nil_of_length_pos (by rw [frameValues, ← hsize]; exact hpos)
  obtain ⟨last, hlast⟩ := Option.ne_none_iff_exists'.mp (mt List.getLast?_eq_none_iff.mp hne)
  exact ⟨last, by rw [hf.holds.lastValue]; exact hlast, hlast⟩

/-- When the loop passes every frame, every value is below `value`. -/
theorem skipFrames_eq_none {fs : List DeltaforFrame} {frs : List (List (List UInt64) × List UInt64)}
    (h : List.Forall₂ (FrameReady ty delta) fs frs)
    (hsorted : (columnValues frs).Pairwise fun a b => ty.toInt a ≤ ty.toInt b) {index : Nat}
    (hnone : DeltaforColumn.skipFrames ty value fs index = none) :
    ∀ v ∈ columnValues frs, ty.toInt v < ty.toInt value := by
  induction h generalizing index with
  | nil => simp
  | @cons f p fs frs hf _ ih =>
      rw [columnValues_cons] at hsorted ⊢
      obtain ⟨last, hl, hlast⟩ := hf.lastValue_eq
      rw [DeltaforColumn.skipFrames, hl] at hnone
      dsimp only at hnone
      split at hnone
      · cases hnone
      · -- the frame's last value, and so all of its values, are below `value`
        rename_i hle
        have hlt : ty.toInt last < ty.toInt value := by
          simpa [IntType.le] using hle
        intro v hv
        rcases List.mem_append.mp hv with hv | hv
        · exact lt_of_le_of_lt (le_of_getLast? (hsorted.sublist (List.sublist_append_left _ _)) hlast v hv) hlt
        · exact ih (hsorted.sublist (List.sublist_append_right _ _)) hnone v hv

/-- When the loop stops at a frame, every value before it is below
    `value`. -/
theorem skipFrames_eq_some {fs : List DeltaforFrame} {frs : List (List (List UInt64) × List UInt64)}
    (h : List.Forall₂ (FrameReady ty delta) fs frs)
    (hsorted : (columnValues frs).Pairwise fun a b => ty.toInt a ≤ ty.toInt b) {index : Nat}
    {f : DeltaforFrame} {fs' : List DeltaforFrame} {index' : Nat}
    (hsome : DeltaforColumn.skipFrames ty value fs index = some (f, fs', index')) :
    ∃ pre p post, frs = pre ++ p :: post ∧ FrameReady ty delta f p ∧
      List.Forall₂ (FrameReady ty delta) fs' post ∧ index' = index + (columnValues pre).length ∧
      ∀ v ∈ columnValues pre, ty.toInt v < ty.toInt value := by
  induction h generalizing index with
  | nil => cases hsome
  | @cons g p gs frs hg hrest ih =>
      obtain ⟨last, hl, hlast⟩ := hg.lastValue_eq
      rw [DeltaforColumn.skipFrames, hl] at hsome
      dsimp only at hsome
      split at hsome
      · -- the search starts in this frame
        simp only [Option.some.injEq, Prod.mk.injEq] at hsome
        obtain ⟨rfl, rfl, rfl⟩ := hsome
        exact ⟨[], p, frs, rfl, hg, hrest, by simp, by simp⟩
      · -- this frame is passed: its values are below `value`
        rename_i hle
        have hlt : ty.toInt last < ty.toInt value := by
          simpa [IntType.le] using hle
        rw [columnValues_cons] at hsorted
        obtain ⟨pre, q, post, rfl, hq, hpost, hidx, hbelow⟩ :=
          ih (hsorted.sublist (List.sublist_append_right _ _)) hsome
        refine ⟨p :: pre, q, post, rfl, hq, hpost, ?_, ?_⟩
        · rw [hidx, columnValues_cons, List.length_append, hg.holds.size_eq_length, Nat.add_assoc]
          rfl
        · intro v hv
          rw [columnValues_cons] at hv
          rcases List.mem_append.mp hv with hv | hv
          · exact lt_of_le_of_lt
              (le_of_getLast? (hsorted.sublist (List.sublist_append_left _ _)) hlast v hv) hlt
          · exact hbelow v hv

end Skip

/-! ## Both searches return the first match -/

section Search

variable {ty : IntType} {alg : ColumnAlg} {maxFrameSize : Nat} {c : DeltaforColumn}
  {fr : List (List (List UInt64) × List UInt64)}

/-- The `delta_xor` scan from `begin()` returns the first match. -/
theorem FramesHold.predSearchXor (h : FramesHold ty alg maxFrameSize c fr) (hmax : maxFrameSize < 2 ^ 32)
    (value : UInt64) (pred : SearchPred) :
    ∃ it, c.predSearchXor ty alg.instance value pred = some it ∧
      SearchSpec ty (columnValues fr) value pred it := by
  obtain ⟨it₀, hbegin, h₀⟩ := begin_of_ready (h.ready hmax) h.nonempty
  obtain ⟨it, hsearch, hstop⟩ := h₀.searchFrom h.nonempty (fun v => pred.eval ty v value)
    (columnValues fr).length (Nat.zero_add _)
    (show (columnValues fr).length < c.size + 1 by rw [h.size]; omega)
  refine ⟨it, by rw [DeltaforColumn.predSearchXor, hbegin, Option.bind_some, hsearch], ?_⟩
  exact hstop.searchSpec (Nat.zero_le _) (by simp)

/-- The `delta_delta` search of values that do not decrease, past the
    frames whose last value is below `value`, returns the first match. -/
theorem FramesHold.predSearchDelta (h : FramesHold ty .deltaDelta maxFrameSize c fr)
    (hmax : maxFrameSize < 2 ^ 32) (hsorted : (columnValues fr).Pairwise fun a b => ty.toInt a ≤ ty.toInt b)
    (value : UInt64) (pred : SearchPred) :
    ∃ it, c.predSearchDelta ty ColumnAlg.deltaDelta.instance value pred = some it ∧
      SearchSpec ty (columnValues fr) value pred it := by
  have hready := h.ready hmax
  cases hskip : DeltaforColumn.skipFrames ty value c.frames 0 with
  | none =>
      -- every value is below `value`: nothing matches
      have hbelow := skipFrames_eq_none value hready hsorted hskip
      refine ⟨ColumnIterator.endIter, by rw [DeltaforColumn.predSearchDelta, hskip], ?_⟩
      have hfind : (columnValues fr).findIdx? (fun v => pred.eval ty v value) = none :=
        List.findIdx?_eq_none_iff.mpr fun v hv => pred.eval_of_lt (hbelow v hv)
      rw [SearchSpec, hfind]
      exact ColumnIterator.isEnd_endIter
  | some res =>
      obtain ⟨f, fs, index⟩ := res
      obtain ⟨pre, p, post, hfr, hf, hpost, hidx, hbelow⟩ := skipFrames_eq_some value hready hsorted hskip
      rw [Nat.zero_add] at hidx
      -- `const_iterator(it, _frames.end(), 0, index)` is the iterator at `index`
      obtain ⟨inner, hat, hinner⟩ := hf.holds.atIndex hf.size_lt hf.encodes hf.size_pos
      obtain ⟨snap, hsnap, hits⟩ := mapM_begin hpost
      have hp : 0 < (frameValues p).length :=
        List.length_pos_iff.mpr (h.nonempty p (by rw [hfr]; simp))
      have hstart : ColIterAt ty fr ⟨snap, inner, index⟩ index :=
        .inFrame pre post p 0 hfr hinner hp hits (by omega) rfl
      have hlen : (columnValues fr).length = (columnValues pre).length + (frameValues p).length +
          (columnValues post).length := by
        simp [hfr, Nat.add_assoc]
      obtain ⟨it, hsearch, hstop⟩ := hstart.searchFrom h.nonempty (fun v => pred.eval ty v value)
        ((columnValues fr).length - index) (by omega)
        (show (columnValues fr).length - index < c.size + 1 by rw [h.size]; omega)
      refine ⟨it, ?_, ?_⟩
      · rw [DeltaforColumn.predSearchDelta, hskip]
        dsimp only
        rw [hat, Option.bind_some, hsnap, Option.map_some, Option.bind_some, hsearch]
      · -- nothing before `index` matches
        have htake : (columnValues fr).take index = columnValues pre := by
          rw [hfr, hidx, columnValues_append, List.take_left]
        refine hstop.searchSpec (by omega) ?_
        rw [htake]
        exact fun v hv => pred.eval_of_lt (hbelow v hv)

end Search

/-- The columns `append` and `prefix_truncate_ix` reach hold their values
    in frames. -/
theorem Reachable.holds {ty : IntType} {alg : ColumnAlg} {maxFrameSize : Nat} (hpos : 0 < maxFrameSize)
    (hmax : maxFrameSize < 2 ^ 32) {c : DeltaforColumn} {s : List UInt64}
    (h : Reachable ty alg maxFrameSize c s) :
    ∃ fr, FramesHold ty alg maxFrameSize c fr ∧ columnValues fr = s := by
  induction h with
  | empty => exact ⟨[], framesHold_empty, rfl⟩
  | append _ happ ih =>
      obtain ⟨fr, hc, rfl⟩ := ih
      exact hc.append_of_eq_some hpos happ
  | prefixTruncateIx _ htrunc ih =>
      obtain ⟨fr, hc, rfl⟩ := ih
      exact hc.prefixTruncateIx_of_eq_some hmax htrunc

/-- `append` of each value in turn keeps a column reachable. -/
theorem Reachable.appendAll {ty : IntType} {alg : ColumnAlg} {maxFrameSize : Nat} :
    ∀ (vs : List UInt64) {c c' : DeltaforColumn} {s : List UInt64}, Reachable ty alg maxFrameSize c s →
      c.appendAll ty alg.instance maxFrameSize vs = some c' → Reachable ty alg maxFrameSize c' (s ++ vs)
  | [], _, _, _, h, hall => by
      rw [DeltaforColumn.appendAll, Option.some.injEq] at hall
      subst hall
      rw [List.append_nil]
      exact h
  | v :: vs, _, _, _, h, hall => by
      rw [DeltaforColumn.appendAll, Option.bind_eq_some_iff] at hall
      obtain ⟨c₁, happ, hrest⟩ := hall
      have hall' := Reachable.appendAll vs (h.append happ) hrest
      rwa [List.append_assoc, List.singleton_append] at hall'

/-! ## The `delta_delta` search finds what the full scan finds -/

/-- In a `delta_delta` column (`0 < max_frame_size < 2 ^ 32`) reached by
    `append` and `prefix_truncate_ix` and holding values that do not
    decrease, `pred_search` with each comparison (`find`, `upper_bound`,
    `lower_bound`) returns the iterator at the first value `== x`, `> x` or
    `>= x`, or `end()` when there is none, as the full scan of the
    `delta_xor` `pred_search` over the same column does, and as the
    `delta_xor` column's search does over any values. -/
theorem delta_delta_search_matches_linear (ty : IntType) (maxFrameSize : Nat) (hpos : 0 < maxFrameSize)
    (hmax : maxFrameSize < 2 ^ 32) :
    (∀ c s, Reachable ty .deltaDelta maxFrameSize c s → List.IsChain (fun a b => ty.toInt a ≤ ty.toInt b) s →
      ∀ value pred, ∃ it it',
        ColumnAlg.deltaDelta.predSearch ty c value pred = some it ∧
        c.predSearchXor ty ColumnAlg.deltaDelta.instance value pred = some it' ∧
        SearchSpec ty s value pred it ∧ SearchSpec ty s value pred it') ∧
    (∀ c s, Reachable ty .deltaXor maxFrameSize c s → ∀ value pred, ∃ it,
      ColumnAlg.deltaXor.predSearch ty c value pred = some it ∧ SearchSpec ty s value pred it) := by
  constructor
  · -- the frame-skipping search and the full scan over the same column
    intro c s hreach hchain value pred
    obtain ⟨fr, hc, rfl⟩ := hreach.holds hpos hmax
    obtain ⟨it, hsearch, hspec⟩ := hc.predSearchDelta hmax (pairwise_of_isChain hchain) value pred
    obtain ⟨it', hsearch', hspec'⟩ := hc.predSearchXor hmax value pred
    exact ⟨it, it', hsearch, hsearch', hspec, hspec'⟩
  · -- the `delta_xor` column
    intro c s hreach value pred
    obtain ⟨fr, hc, rfl⟩ := hreach.holds hpos hmax
    exact hc.predSearchXor hmax value pred

/-- Forty even values `0, 2, ..., 78`. -/
def searchSampleValues : List UInt64 := (List.range 40).map fun n => UInt64.ofNat (2 * n)

/-- The values `0, 2, ..., 78` appended to an `int64_t` `delta_delta`
    column of `max_frame_size` `16`: `lower_bound(17)` passes the first
    frame and returns the first value at least `17`, as the full scan
    does. -/
theorem delta_delta_search_matches_linear_sample :
    0 < 16 ∧ 16 < 2 ^ 32 ∧
      List.IsChain (fun a b => IntType.int64.toInt a ≤ IntType.int64.toInt b) searchSampleValues ∧
      ∃ c, (DeltaforColumn.mk []).appendAll .int64 ColumnAlg.deltaDelta.instance 16 searchSampleValues =
          some c ∧
        ∃ it it', ColumnAlg.deltaDelta.predSearch .int64 c 17 .greaterEqual = some it ∧
          c.predSearchXor .int64 ColumnAlg.deltaDelta.instance 17 .greaterEqual = some it' ∧
          SearchSpec .int64 searchSampleValues 17 .greaterEqual it ∧
          SearchSpec .int64 searchSampleValues 17 .greaterEqual it' :=
  ⟨by decide, by decide, by decide, _, rfl,
    (delta_delta_search_matches_linear .int64 16 (by decide) (by decide)).1 _ _
      (Reachable.appendAll _ .empty rfl) (by decide) 17 .greaterEqual⟩

end DeltaFor
