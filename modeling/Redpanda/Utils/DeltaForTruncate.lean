import Redpanda.Utils.DeltaForSequence

/-! # Prefix truncation of `deltafor_frame` and `deltafor_column`

    `deltafor_frame::prefix_truncate_ix` rebuilds the frame: it appends the
    values from `at_index(ix_exclusive)` on to an empty frame.  Its result
    is therefore the frame that appending the suffix builds
    (`FrameHolds.prefixTruncateIx`), whatever the index, up to and past the
    frame's size.

    `deltafor_column_impl::prefix_truncate_ix` walks the frames, subtracting
    the size of each frame that ends at or before the index, truncates the
    frame that holds it and erases the frames before.  Below the column's
    size this keeps exactly the suffix (`ColumnHolds.prefixTruncateIx`); at
    or past the size the loop never reaches its `else` branch and the
    column stays as it was (`prefixTruncateIx_of_size_le`), which
    `column_store::prefix_truncate` avoids by calling `clear()` instead. -/

namespace DeltaFor

/-! ## The model -/

namespace DeltaforFrame

variable (ty : IntType) (delta : DeltaStep)

/-- The loop of `prefix_truncate_ix`,
    `for (; it != end(); ++it) tmp.append(*it)`, at most `fuel` times. -/
def copyFrom : Nat → FrameIterator → DeltaforFrame → Option DeltaforFrame
  | 0, _, _ => none
  | fuel + 1, it, tmp =>
      if it.equal FrameIterator.endIter then some tmp
      else
        (tmp.append ty delta it.deref).bind fun tmp =>
          (it.increment ty).bind fun it => copyFrom fuel it tmp

theorem copyFrom_succ (fuel : Nat) (it : FrameIterator) (tmp : DeltaforFrame) :
    copyFrom ty delta (fuel + 1) it tmp =
      if it.equal FrameIterator.endIter then some tmp
      else
        (tmp.append ty delta it.deref).bind fun tmp =>
          (it.increment ty).bind fun it => copyFrom ty delta fuel it tmp := rfl

/-- `prefix_truncate_ix`: a new frame of the values from `ix_exclusive` on;
    the loop runs at most `size()` times. -/
def prefixTruncateIx (f : DeltaforFrame) (ixExclusive : UInt32) : Option DeltaforFrame :=
  (f.atIndex ty delta ixExclusive.toNat).bind fun it => copyFrom ty delta (f.size + 1) it empty

theorem prefixTruncateIx_eq (f : DeltaforFrame) (ixExclusive : UInt32) :
    f.prefixTruncateIx ty delta ixExclusive =
      (f.atIndex ty delta ixExclusive.toNat).bind fun it =>
        copyFrom ty delta (f.size + 1) it empty := rfl

/-- `append` of each value in turn. -/
def appendAll (f : DeltaforFrame) : List UInt64 → Option DeltaforFrame
  | [] => some f
  | v :: vs => (f.append ty delta v).bind fun f => appendAll f vs

theorem appendAll_nil (f : DeltaforFrame) : f.appendAll ty delta [] = some f := rfl

theorem appendAll_cons (f : DeltaforFrame) (v : UInt64) (vs : List UInt64) :
    f.appendAll ty delta (v :: vs) = (f.append ty delta v).bind fun f => f.appendAll ty delta vs :=
  rfl

end DeltaforFrame

namespace DeltaforColumn

variable (ty : IntType) (delta : DeltaStep)

/-- The loop of `prefix_truncate_ix` over the frames `fs` from the current
    one, with `ix_exclusive` left: the frame that holds it is truncated and
    the frames before it erased; a loop that runs out of frames leaves the
    column `c` as it was. -/
def prefixTruncateIxGo (c : DeltaforColumn) : List DeltaforFrame → UInt32 → Option DeltaforColumn
  | [], _ => some c
  | f :: fs, ix =>
      if f.size ≤ ix.toNat then prefixTruncateIxGo c fs (ix - UInt32.ofNat f.size)
      else (f.prefixTruncateIx ty delta ix).map fun f' => ⟨f' :: fs⟩

theorem prefixTruncateIxGo_cons (c : DeltaforColumn) (f : DeltaforFrame) (fs : List DeltaforFrame)
    (ix : UInt32) :
    prefixTruncateIxGo ty delta c (f :: fs) ix =
      if f.size ≤ ix.toNat then prefixTruncateIxGo ty delta c fs (ix - UInt32.ofNat f.size)
      else (f.prefixTruncateIx ty delta ix).map fun f' => ⟨f' :: fs⟩ := rfl

/-- `prefix_truncate_ix`. -/
def prefixTruncateIx (c : DeltaforColumn) (ixExclusive : UInt32) : Option DeltaforColumn :=
  prefixTruncateIxGo ty delta c c.frames ixExclusive

end DeltaforColumn

/-! ## Appending to a frame -/

theorem DeltaforFrame.appendAll_append (ty : IntType) (delta : DeltaStep) (f : DeltaforFrame)
    (vs ws : List UInt64) :
    f.appendAll ty delta (vs ++ ws) = (f.appendAll ty delta vs).bind fun f => f.appendAll ty delta ws := by
  induction vs generalizing f with
  | nil => rfl
  | cons v vs ih =>
      simp only [List.cons_append, DeltaforFrame.appendAll_cons]
      cases f.append ty delta v with
      | none => rfl
      | some f' => exact ih f'

section Frame

variable {ty : IntType} {alg : ColumnAlg} {f : DeltaforFrame} {p : List (List UInt64) × List UInt64}

/-- `append` of each value in turn keeps what the frame holds. -/
theorem FrameHolds.appendAll (h : FrameHolds ty alg.instance f p.1 p.2) (vs : List UInt64)
    (hacc : alg.Accepts ty (frameValues p ++ vs)) :
    ∃ f' p', f.appendAll ty alg.instance vs = some f' ∧ FrameHolds ty alg.instance f' p'.1 p'.2 ∧
      frameValues p' = frameValues p ++ vs := by
  induction vs generalizing f p with
  | nil => exact ⟨f, p, rfl, h, by rw [List.append_nil]⟩
  | cons v vs ih =>
      have hv : alg.Accepts ty (frameValues p ++ [v]) := hacc.infix ⟨[], vs, by simp⟩
      obtain ⟨f₁, happ, h₁⟩ := h.append v (ColumnAlg.encodes_of_accepts hv)
      have hvals₁ : frameValues (pushValue p.1 p.2 v) = frameValues p ++ [v] := frameValues_pushValue p v
      obtain ⟨f', p', hall, h', hvals'⟩ := ih h₁ (by rw [hvals₁]; simpa using hacc)
      refine ⟨f', p', by rw [DeltaforFrame.appendAll_cons, happ, Option.bind_some, hall], h', ?_⟩
      rw [hvals', hvals₁]
      simp

/-- A successful `append` of each value in turn keeps what the frame
    holds, whatever the values. -/
theorem FrameHolds.appendAll_of_eq_some {rows : List (List UInt64)} {part : List UInt64}
    (h : FrameHolds ty alg.instance f rows part) {vs : List UInt64} {f' : DeltaforFrame}
    (hall : f.appendAll ty alg.instance vs = some f') :
    ∃ p' : List (List UInt64) × List UInt64,
      FrameHolds ty alg.instance f' p'.1 p'.2 ∧ frameValues p' = rows.flatten ++ part ++ vs := by
  induction vs generalizing f rows part with
  | nil =>
      rw [DeltaforFrame.appendAll_nil, Option.some.injEq] at hall
      subst hall
      exact ⟨(rows, part), h, by rw [List.append_nil]; rfl⟩
  | cons v vs ih =>
      rw [DeltaforFrame.appendAll_cons, Option.bind_eq_some_iff] at hall
      obtain ⟨f₁, happ, hrest⟩ := hall
      obtain ⟨p', h', hvals⟩ := ih (h.append_of_eq_some happ) hrest
      refine ⟨p', h', ?_⟩
      rw [hvals, flatten_pushValue, List.append_assoc, List.singleton_append]

/-- `at_index` inside a frame that holds values dereferences to the value
    at the index. -/
theorem FrameHolds.atIndex_deref (h : FrameHolds ty alg.instance f p.1 p.2) (hlt : f.size < 2 ^ 32)
    {i : Nat} (hi : i < f.size) :
    (f.atIndex ty alg.instance i).map FrameIterator.deref = (frameValues p)[i]? := by
  obtain ⟨it, hat, hit⟩ := h.atIndex hlt h.encodes_rows hi
  rw [hat, Option.map_some, hit.deref (by rw [← h.size_eq]; exact hi)]
  rfl

end Frame

/-! ## Truncating a frame -/

theorem DeltaforFrame.copyFrom_endIter (ty : IntType) (delta : DeltaStep) (fuel : Nat)
    (tmp : DeltaforFrame) :
    DeltaforFrame.copyFrom ty delta (fuel + 1) FrameIterator.endIter tmp = some tmp := by
  rw [DeltaforFrame.copyFrom_succ, if_pos (by decide)]

/-- The copy loop from the iterator at index `i` appends the values from
    `i` on; the appends fail exactly where `append` of them does. -/
theorem FrameIterAt.copyFrom {ty : IntType} {delta : DeltaStep} {it : FrameIterator}
    {rows : List (List UInt64)} {part : List UInt64} {i : Nat} (hit : FrameIterAt ty it rows part i)
    (tmp : DeltaforFrame) (fuel : Nat) (hfuel : rowWidth * rows.length + part.length - i < fuel) :
    DeltaforFrame.copyFrom ty delta fuel it tmp = tmp.appendAll ty delta ((rows.flatten ++ part).drop i) := by
  -- induction on the fuel, which outlasts the values left
  induction fuel generalizing it i tmp with
  | zero => omega
  | succ fuel ih =>
      have hlen : (rows.flatten ++ part).length = rowWidth * rows.length + part.length := by
        rw [List.length_append, length_flatten_rows hit.width]
      have hend := hit.equal_endIter
      by_cases hi : i = rowWidth * rows.length + part.length
      · -- at the end of the frame nothing is left to copy
        rw [decide_eq_true hi] at hend
        rw [DeltaforFrame.copyFrom_succ, hend, if_pos rfl, List.drop_eq_nil_of_le (by omega)]
        rfl
      · rw [decide_eq_false hi] at hend
        have hlt : i < (rows.flatten ++ part).length := by
          have := hit.le_size
          omega
        have hget : (rows.flatten ++ part)[i] = it.deref := by
          have hderef := hit.deref (by omega)
          rw [List.getElem?_eq_getElem hlt] at hderef
          exact (Option.some.inj hderef).symm
        obtain ⟨it', hinc, hit'⟩ := hit.increment (by omega)
        rw [DeltaforFrame.copyFrom_succ, hend, if_neg Bool.false_ne_true,
          List.drop_eq_getElem_cons hlt, hget, DeltaforFrame.appendAll_cons, hinc]
        cases tmp.append ty delta it.deref with
        | none => rfl
        | some tmp' => exact ih hit' tmp' (by omega)

section FrameTruncate

variable {ty : IntType} {alg : ColumnAlg} {f : DeltaforFrame} {p : List (List UInt64) × List UInt64}

/-- A truncated frame is the frame that appending the suffix to an empty
    frame builds, for every index. -/
theorem FrameHolds.prefixTruncateIx (h : FrameHolds ty alg.instance f p.1 p.2) (hlt : f.size < 2 ^ 32)
    (k : UInt32) :
    f.prefixTruncateIx ty alg.instance k =
      DeltaforFrame.empty.appendAll ty alg.instance ((frameValues p).drop k.toNat) := by
  have hlen : f.size = (frameValues p).length := h.size_eq_length
  by_cases hk : k.toNat < f.size
  · -- the loop copies from the iterator at `ix_exclusive`
    obtain ⟨it, hat, hit⟩ := h.atIndex hlt h.encodes_rows hk
    have hsize := h.size_eq
    rw [DeltaforFrame.prefixTruncateIx_eq, hat, Option.bind_some, hit.copyFrom _ _ (by omega)]
    rfl
  · -- past the end `at_index` is `end()` and the loop copies nothing
    rw [DeltaforFrame.prefixTruncateIx_eq, DeltaforFrame.atIndex, if_pos (by omega), Option.bind_some,
      DeltaforFrame.copyFrom_endIter, List.drop_eq_nil_of_le (by omega)]
    rfl

/-- Truncation keeps what the frame holds: the suffix. -/
theorem FrameHolds.prefixTruncateIx_holds (h : FrameHolds ty alg.instance f p.1 p.2)
    (hlt : f.size < 2 ^ 32) (hacc : alg.Accepts ty (frameValues p)) (k : UInt32) :
    ∃ f' p', f.prefixTruncateIx ty alg.instance k = some f' ∧ FrameHolds ty alg.instance f' p'.1 p'.2 ∧
      frameValues p' = (frameValues p).drop k.toNat := by
  have hsuffix : alg.Accepts ty (frameValues ([], []) ++ (frameValues p).drop k.toNat) :=
    hacc.infix (List.drop_suffix _ _).isInfix
  obtain ⟨f', p', hall, h', hvals⟩ := (empty_holds ty alg.instance).appendAll _ hsuffix
  exact ⟨f', p', by rw [h.prefixTruncateIx hlt, hall], h', hvals⟩

/-- A successful truncation keeps what the frame holds, whatever the
    values: the suffix. -/
theorem FrameHolds.prefixTruncateIx_of_eq_some (h : FrameHolds ty alg.instance f p.1 p.2)
    (hlt : f.size < 2 ^ 32) {k : UInt32} {f' : DeltaforFrame}
    (htrunc : f.prefixTruncateIx ty alg.instance k = some f') :
    ∃ p' : List (List UInt64) × List UInt64,
      FrameHolds ty alg.instance f' p'.1 p'.2 ∧ frameValues p' = (frameValues p).drop k.toNat := by
  rw [h.prefixTruncateIx hlt k] at htrunc
  obtain ⟨p', h', hvals⟩ := (empty_holds ty alg.instance).appendAll_of_eq_some htrunc
  exact ⟨p', h', by simpa using hvals⟩

end FrameTruncate

/-! ## Truncating a column -/

theorem toNat_sub_ofNat {ix : UInt32} {s : Nat} (h : s ≤ ix.toNat) :
    (ix - UInt32.ofNat s).toNat = ix.toNat - s := by
  have hs : (UInt32.ofNat s).toNat = s := by
    rw [UInt32.toNat_ofNat', Nat.mod_eq_of_lt (Nat.lt_of_le_of_lt h ix.toNat_lt)]
  rw [UInt32.toNat_sub_of_le _ _ (by rw [UInt32.le_iff_toNat_le, hs]; exact h), hs]

/-- When the frames end at or before the index the loop runs out of frames
    and leaves the column as it was. -/
theorem DeltaforColumn.prefixTruncateIxGo_of_sum_le (ty : IntType) (delta : DeltaStep)
    (c : DeltaforColumn) (fs : List DeltaforFrame) (ix : UInt32)
    (hle : (fs.map DeltaforFrame.size).sum ≤ ix.toNat) :
    prefixTruncateIxGo ty delta c fs ix = some c := by
  induction fs generalizing ix with
  | nil => rfl
  | cons f fs ih =>
      rw [List.map_cons, List.sum_cons] at hle
      rw [prefixTruncateIxGo_cons, if_pos (by omega)]
      exact ih _ (by rw [toNat_sub_ofNat (by omega)]; omega)

/-- `prefix_truncate_ix` at or past the column's size changes nothing. -/
theorem DeltaforColumn.prefixTruncateIx_of_size_le (ty : IntType) (delta : DeltaStep)
    (c : DeltaforColumn) (k : UInt32) (hle : c.size ≤ k.toNat) :
    c.prefixTruncateIx ty delta k = some c :=
  prefixTruncateIxGo_of_sum_le ty delta c c.frames k hle

section ColumnTruncate

variable {ty : IntType} {alg : ColumnAlg} {maxFrameSize : Nat}

/-- The frames after the first hold the rest of the values. -/
theorem ColumnHolds.tail {f : DeltaforFrame} {fs : List DeltaforFrame}
    {p : List (List UInt64) × List UInt64} {frs : List (List (List UInt64) × List UInt64)}
    (h : ColumnHolds ty alg maxFrameSize ⟨f :: fs⟩ (p :: frs)) :
    ColumnHolds ty alg maxFrameSize ⟨fs⟩ frs where
  frames := (List.forall₂_cons.mp h.frames).2
  nonempty q hq := h.nonempty q (List.mem_cons_of_mem _ hq)
  le_max q hq := h.le_max q (List.mem_cons_of_mem _ hq)
  accepts := h.accepts.infix (List.suffix_append _ _).isInfix

/-- The loop of `prefix_truncate_ix` over frames holding `frs`, at an index
    below their values' count, keeps exactly the values from the index on. -/
theorem ColumnHolds.prefixTruncateIxGo (c : DeltaforColumn) (hmax : maxFrameSize < 2 ^ 32)
    {fs : List DeltaforFrame} {frs : List (List (List UInt64) × List UInt64)}
    (h : ColumnHolds ty alg maxFrameSize ⟨fs⟩ frs) (ix : UInt32)
    (hix : ix.toNat < (columnValues frs).length) :
    ∃ c' fr', DeltaforColumn.prefixTruncateIxGo ty alg.instance c fs ix = some c' ∧
      ColumnHolds ty alg maxFrameSize c' fr' ∧ columnValues fr' = (columnValues frs).drop ix.toNat := by
  -- induction on the frames, with the index left in them
  induction fs generalizing frs ix with
  | nil =>
      rw [List.forall₂_nil_left_iff.mp h.frames] at hix
      simp at hix
  | cons f fs ih =>
      obtain ⟨p, frs', hp, -, rfl⟩ := List.forall₂_cons_left_iff.mp h.frames
      have htail := h.tail
      have hsize : f.size = (frameValues p).length := hp.size_eq_length
      have hle : (frameValues p).length ≤ maxFrameSize := h.le_max p List.mem_cons_self
      rw [columnValues_cons, List.length_append] at hix
      by_cases hpast : f.size ≤ ix.toNat
      · -- the frame ends at or before the index: on to the next
        have hsub := toNat_sub_ofNat hpast
        obtain ⟨c', fr', hgo, h', hvals⟩ := ih htail (ix - UInt32.ofNat f.size) (by rw [hsub]; omega)
        refine ⟨c', fr', by rw [DeltaforColumn.prefixTruncateIxGo_cons, if_pos hpast, hgo], h', ?_⟩
        have hnil : (frameValues p).drop ix.toNat = [] := List.drop_eq_nil_of_le (by omega)
        rw [hvals, hsub, hsize, columnValues_cons, List.drop_append, hnil, List.nil_append]
      · -- this frame holds the index: it is truncated, the frames after it kept
        have hpacc : alg.Accepts ty (frameValues p) :=
          h.accepts.infix (List.prefix_append _ _).isInfix
        obtain ⟨f', p', htrunc, hp', hvals'⟩ := hp.prefixTruncateIx_holds (by omega) hpacc ix
        have hvals : columnValues (p' :: frs') = (columnValues (p :: frs')).drop ix.toNat := by
          rw [columnValues_cons, columnValues_cons, hvals', List.drop_append_of_le_length (by omega)]
        refine ⟨⟨f' :: fs⟩, p' :: frs', ?_, ⟨.cons hp' htail.frames, ?_, ?_, ?_⟩, hvals⟩
        · rw [DeltaforColumn.prefixTruncateIxGo_cons, if_neg hpast, htrunc, Option.map_some]
        · intro q hq
          rcases List.mem_cons.mp hq with rfl | hq
          · rw [hvals']
            exact List.ne_nil_of_length_pos (by rw [List.length_drop]; omega)
          · exact htail.nonempty q hq
        · intro q hq
          rcases List.mem_cons.mp hq with rfl | hq
          · rw [hvals', List.length_drop]
            omega
          · exact htail.le_max q hq
        · rw [hvals]
          exact h.accepts.infix (List.drop_suffix _ _).isInfix

/-- `prefix_truncate_ix` below the column's size keeps exactly the values
    from the index on. -/
theorem ColumnHolds.prefixTruncateIx {c : DeltaforColumn} {fr : List (List (List UInt64) × List UInt64)}
    (h : ColumnHolds ty alg maxFrameSize c fr) (hmax : maxFrameSize < 2 ^ 32) (k : UInt32)
    (hk : k.toNat < (columnValues fr).length) :
    ∃ c' fr', c.prefixTruncateIx ty alg.instance k = some c' ∧
      ColumnHolds ty alg maxFrameSize c' fr' ∧ columnValues fr' = (columnValues fr).drop k.toNat :=
  h.prefixTruncateIxGo c hmax k hk

/-- The frames after the first hold the rest of the values. -/
theorem FramesHold.tail {f : DeltaforFrame} {fs : List DeltaforFrame}
    {p : List (List UInt64) × List UInt64} {frs : List (List (List UInt64) × List UInt64)}
    (h : FramesHold ty alg maxFrameSize ⟨f :: fs⟩ (p :: frs)) :
    FramesHold ty alg maxFrameSize ⟨fs⟩ frs where
  frames := (List.forall₂_cons.mp h.frames).2
  nonempty q hq := h.nonempty q (List.mem_cons_of_mem _ hq)
  le_max q hq := h.le_max q (List.mem_cons_of_mem _ hq)

/-- A successful loop of `prefix_truncate_ix` over frames holding `frs`, at
    an index below their values' count, keeps what the frames hold: the
    values from the index on, whatever the values. -/
theorem FramesHold.prefixTruncateIxGo_of_eq_some (c : DeltaforColumn) (hmax : maxFrameSize < 2 ^ 32)
    {fs : List DeltaforFrame} {frs : List (List (List UInt64) × List UInt64)}
    (h : FramesHold ty alg maxFrameSize ⟨fs⟩ frs) (ix : UInt32) (hix : ix.toNat < (columnValues frs).length)
    {c' : DeltaforColumn} (hgo : DeltaforColumn.prefixTruncateIxGo ty alg.instance c fs ix = some c') :
    ∃ fr', FramesHold ty alg maxFrameSize c' fr' ∧ columnValues fr' = (columnValues frs).drop ix.toNat := by
  -- induction on the frames, with the index left in them
  induction fs generalizing frs ix with
  | nil =>
      rw [List.forall₂_nil_left_iff.mp h.frames] at hix
      simp at hix
  | cons f fs ih =>
      obtain ⟨p, frs', hp, -, rfl⟩ := List.forall₂_cons_left_iff.mp h.frames
      have htail := h.tail
      have hsize : f.size = (frameValues p).length := hp.size_eq_length
      have hle : (frameValues p).length ≤ maxFrameSize := h.le_max p List.mem_cons_self
      rw [columnValues_cons, List.length_append] at hix
      by_cases hpast : f.size ≤ ix.toNat
      · -- the frame ends at or before the index: on to the next
        have hsub := toNat_sub_ofNat hpast
        rw [DeltaforColumn.prefixTruncateIxGo_cons, if_pos hpast] at hgo
        obtain ⟨fr', h', hvals⟩ := ih htail (ix - UInt32.ofNat f.size) (by rw [hsub]; omega) hgo
        refine ⟨fr', h', ?_⟩
        have hnil : (frameValues p).drop ix.toNat = [] := List.drop_eq_nil_of_le (by omega)
        rw [hvals, hsub, hsize, columnValues_cons, List.drop_append, hnil, List.nil_append]
      · -- this frame holds the index: it was truncated, the frames after it kept
        rw [DeltaforColumn.prefixTruncateIxGo_cons, if_neg hpast, Option.map_eq_some_iff] at hgo
        obtain ⟨f', htrunc, rfl⟩ := hgo
        obtain ⟨p', hp', hvals'⟩ := hp.prefixTruncateIx_of_eq_some (by omega) htrunc
        refine ⟨p' :: frs', ⟨.cons hp' htail.frames, ?_, ?_⟩, ?_⟩
        · intro q hq
          rcases List.mem_cons.mp hq with rfl | hq
          · rw [hvals']
            exact List.ne_nil_of_length_pos (by rw [List.length_drop]; omega)
          · exact htail.nonempty q hq
        · intro q hq
          rcases List.mem_cons.mp hq with rfl | hq
          · rw [hvals', List.length_drop]
            omega
          · exact htail.le_max q hq
        · rw [columnValues_cons, columnValues_cons, hvals', List.drop_append_of_le_length (by omega)]

/-- A successful `prefix_truncate_ix` keeps what the frames hold: below
    the size the values from the index on, at or past it the column as it
    was. -/
theorem FramesHold.prefixTruncateIx_of_eq_some {c c' : DeltaforColumn}
    {fr : List (List (List UInt64) × List UInt64)} (h : FramesHold ty alg maxFrameSize c fr)
    (hmax : maxFrameSize < 2 ^ 32) {k : UInt32} (htrunc : c.prefixTruncateIx ty alg.instance k = some c') :
    ∃ fr', FramesHold ty alg maxFrameSize c' fr' ∧
      columnValues fr' = if k.toNat < (columnValues fr).length then (columnValues fr).drop k.toNat
        else columnValues fr := by
  split
  · rename_i hk
    exact h.prefixTruncateIxGo_of_eq_some c hmax k hk htrunc
  · -- at or past the size the loop runs out of frames
    rename_i hk
    have hsame := DeltaforColumn.prefixTruncateIx_of_size_le ty alg.instance c k (by rw [h.size]; omega)
    rw [htrunc, Option.some.injEq] at hsame
    subst hsame
    exact ⟨fr, h, rfl⟩

end ColumnTruncate

/-! ## Truncation keeps the suffix -/

/-- A frame of fewer than `2 ^ 32` values (the frame iterator counts in
    `uint32_t`) that its specialisation accepts, truncated at any `k` up to
    its size, is the frame that appending `v_k, ..., v_(n-1)` to an empty
    frame builds: it holds `n - k` values, `at_index(i)` reads `v_(k+i)`, and
    appends continue from there.  A column with
    `0 < max_frame_size < 2 ^ 32` built by `append` and committed
    `append_tx`, truncated at `k < n`, holds `n - k` values, iterates
    `v_k, ..., v_(n-1)` from index `0`, and later appends of accepted values
    continue the sequence. -/
theorem prefix_truncate_keeps_suffix (ty : IntType) (alg : ColumnAlg) :
    (∀ (vs : List UInt64) (k : UInt32), alg.Accepts ty vs → vs.length < 2 ^ 32 →
      k.toNat ≤ vs.length →
      ∃ f f', DeltaforFrame.empty.appendAll ty alg.instance vs = some f ∧
        f.prefixTruncateIx ty alg.instance k = some f' ∧
        DeltaforFrame.empty.appendAll ty alg.instance (vs.drop k.toNat) = some f' ∧
        f'.size = vs.length - k.toNat ∧
        (∀ i, i < f'.size →
          (f'.atIndex ty alg.instance i).map FrameIterator.deref = vs[k.toNat + i]?) ∧
        ∀ ws, f'.appendAll ty alg.instance ws =
          DeltaforFrame.empty.appendAll ty alg.instance (vs.drop k.toNat ++ ws)) ∧
    (∀ (maxFrameSize : Nat) (ops : List (UInt64 × Bool)) (k : UInt32), 0 < maxFrameSize →
      maxFrameSize < 2 ^ 32 → alg.Accepts ty (ops.map Prod.fst) → k.toNat < ops.length →
      ∃ c c', (DeltaforColumn.mk []).run ty alg.instance maxFrameSize ops = some c ∧
        c.prefixTruncateIx ty alg.instance k = some c' ∧
        c'.size = ops.length - k.toNat ∧
        (c'.begin ty alg.instance).bind (ColumnIterator.collect ty (ops.length - k.toNat + 1)) =
          some (((ops.map Prod.fst).drop k.toNat).zipIdx.map Prod.swap) ∧
        ∀ ws, alg.Accepts ty ((ops.map Prod.fst).drop k.toNat ++ ws) →
          ∃ c'', c'.appendAll ty alg.instance maxFrameSize ws = some c'' ∧
            c''.size = ops.length - k.toNat + ws.length ∧
            (c''.begin ty alg.instance).bind
                (ColumnIterator.collect ty (ops.length - k.toNat + ws.length + 1)) =
              some (((ops.map Prod.fst).drop k.toNat ++ ws).zipIdx.map Prod.swap)) := by
  constructor
  · -- a frame: truncation is the frame of the suffix
    intro vs k hacc hlt hk
    have hacc₀ : alg.Accepts ty (frameValues ([], []) ++ vs) := by simpa [frameValues] using hacc
    obtain ⟨f, p, hall, hf, hvals⟩ := (empty_holds ty alg.instance).appendAll vs hacc₀
    have hvals₀ : frameValues p = vs := by simpa [frameValues] using hvals
    have hsize : f.size = vs.length := by
      rw [← hvals₀]
      exact hf.size_eq_length
    have hpacc : alg.Accepts ty (frameValues p) := by rw [hvals₀]; exact hacc
    obtain ⟨f', p', htrunc, hf', hvals'⟩ := hf.prefixTruncateIx_holds (by omega) hpacc k
    have hfresh : DeltaforFrame.empty.appendAll ty alg.instance (vs.drop k.toNat) = some f' := by
      rw [← hvals₀, ← hf.prefixTruncateIx (by omega) k, htrunc]
    have hsize' : f'.size = vs.length - k.toNat := by
      have hlen : f'.size = (frameValues p').length := hf'.size_eq_length
      rw [hlen, hvals', hvals₀, List.length_drop]
    refine ⟨f, f', hall, htrunc, hfresh, hsize', ?_, ?_⟩
    · intro i hi
      rw [hf'.atIndex_deref (by omega) hi, hvals', hvals₀, List.getElem?_drop]
    · intro ws
      rw [DeltaforFrame.appendAll_append, hfresh, Option.bind_some]
  · -- a column: truncation below the size keeps what the column holds
    intro maxFrameSize ops k hpos hmax hacc hk
    obtain ⟨c, fr, hall, hc, hvals⟩ :=
      (columnHolds_empty : ColumnHolds ty alg maxFrameSize ⟨[]⟩ []).appendAll hpos (ops.map Prod.fst)
        (by rw [columnValues_nil, List.nil_append]; exact hacc)
    rw [columnValues_nil, List.nil_append] at hvals
    have hlen : (columnValues fr).length = ops.length := by rw [hvals, List.length_map]
    obtain ⟨c', fr', htrunc, hc', hvals'⟩ := hc.prefixTruncateIx hmax k (by omega)
    have hlen' : (columnValues fr').length = ops.length - k.toNat := by
      rw [hvals', List.length_drop, hlen]
    refine ⟨c, c', by rw [DeltaforColumn.run_eq_appendAll]; exact hall, htrunc, by rw [hc'.size, hlen'],
      by rw [← hlen', hc'.collect_begin hmax, hvals', hvals], ?_⟩
    -- later appends continue from the suffix
    intro ws hws
    obtain ⟨c'', fr'', hall'', hc'', hvals''⟩ := hc'.appendAll hpos ws (by rw [hvals', hvals]; exact hws)
    have hlen'' : (columnValues fr'').length = ops.length - k.toNat + ws.length := by
      rw [hvals'', List.length_append, hlen']
    refine ⟨c'', hall'', by rw [hc''.size, hlen''], ?_⟩
    rw [← hlen'', hc''.collect_begin hmax, hvals'', hvals', hvals]

/-- Forty values `0, ..., 39`. -/
def truncateValues : List UInt64 := (List.range 40).map UInt64.ofNat

/-- The forty values, every third by `append_tx` and `commit`. -/
def truncateOps : List (UInt64 × Bool) := truncateValues.map fun v => (v, decide (v.toNat % 3 = 0))

/-- An `int64_t` `delta_delta` frame of forty values truncated at `21`,
    inside its second full row, and a column of `max_frame_size` `16` of
    the same values, whose second frame holds index `21`. -/
theorem prefix_truncate_keeps_suffix_sample :
    (ColumnAlg.deltaDelta.Accepts .int64 truncateValues ∧ truncateValues.length < 2 ^ 32 ∧
      (21 : UInt32).toNat ≤ truncateValues.length ∧
      ∃ f f', DeltaforFrame.empty.appendAll .int64 ColumnAlg.deltaDelta.instance truncateValues = some f ∧
        f.prefixTruncateIx .int64 ColumnAlg.deltaDelta.instance 21 = some f' ∧
        DeltaforFrame.empty.appendAll .int64 ColumnAlg.deltaDelta.instance
          (truncateValues.drop (21 : UInt32).toNat) = some f' ∧
        f'.size = truncateValues.length - (21 : UInt32).toNat ∧
        (∀ i, i < f'.size → (f'.atIndex .int64 ColumnAlg.deltaDelta.instance i).map FrameIterator.deref =
          truncateValues[(21 : UInt32).toNat + i]?) ∧
        ∀ ws, f'.appendAll .int64 ColumnAlg.deltaDelta.instance ws =
          DeltaforFrame.empty.appendAll .int64 ColumnAlg.deltaDelta.instance
            (truncateValues.drop (21 : UInt32).toNat ++ ws)) ∧
    (0 < 16 ∧ 16 < 2 ^ 32 ∧ ColumnAlg.deltaDelta.Accepts .int64 (truncateOps.map Prod.fst) ∧
      (21 : UInt32).toNat < truncateOps.length ∧
      ∃ c c', (DeltaforColumn.mk []).run .int64 ColumnAlg.deltaDelta.instance 16 truncateOps = some c ∧
        c.prefixTruncateIx .int64 ColumnAlg.deltaDelta.instance 21 = some c' ∧
        c'.size = truncateOps.length - (21 : UInt32).toNat ∧
        (c'.begin .int64 ColumnAlg.deltaDelta.instance).bind
            (ColumnIterator.collect .int64 (truncateOps.length - (21 : UInt32).toNat + 1)) =
          some (((truncateOps.map Prod.fst).drop (21 : UInt32).toNat).zipIdx.map Prod.swap) ∧
        ∀ ws, ColumnAlg.deltaDelta.Accepts .int64 ((truncateOps.map Prod.fst).drop (21 : UInt32).toNat ++ ws) →
          ∃ c'', c'.appendAll .int64 ColumnAlg.deltaDelta.instance 16 ws = some c'' ∧
            c''.size = truncateOps.length - (21 : UInt32).toNat + ws.length ∧
            (c''.begin .int64 ColumnAlg.deltaDelta.instance).bind
                (ColumnIterator.collect .int64 (truncateOps.length - (21 : UInt32).toNat + ws.length + 1)) =
              some (((truncateOps.map Prod.fst).drop (21 : UInt32).toNat ++ ws).zipIdx.map Prod.swap)) :=
  ⟨⟨by decide, by decide, by decide,
      (prefix_truncate_keeps_suffix .int64 .deltaDelta).1 truncateValues 21 (by decide) (by decide)
        (by decide)⟩,
    ⟨by decide, by decide, by decide, by decide,
      (prefix_truncate_keeps_suffix .int64 .deltaDelta).2 16 truncateOps 21 (by decide) (by decide)
        (by decide) (by decide)⟩⟩

/-- An `int64_t` `delta_delta` column of `max_frame_size` `16` holding
    `0, 1, 2`: truncating at its size `3` leaves it holding and iterating
    the three values. -/
theorem prefix_truncate_at_size_keeps_column :
    ((DeltaforColumn.mk []).appendAll .int64 ColumnAlg.deltaDelta.instance 16 [0, 1, 2]).bind
        (fun c => (c.prefixTruncateIx .int64 ColumnAlg.deltaDelta.instance 3).bind fun c' =>
          ((c'.begin .int64 ColumnAlg.deltaDelta.instance).bind (ColumnIterator.collect .int64 4)).map
            fun l => (c'.size, l)) =
      some (3, [(0, 0), (1, 1), (2, 2)]) := by
  decide

end DeltaFor
