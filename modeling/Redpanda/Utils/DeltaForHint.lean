import Redpanda.Utils.DeltaForSequence

/-! # Hinted random access into `deltafor_frame` and `deltafor_column`

    `utils/delta_for.h` lets a reader start in the middle of a frame's
    tail.  Each time a frame hands a full row to its tail it keeps
    `_last_row`, the tail's `get_position()` taken just before: the value
    before the row, the byte offset of the row and the number of rows
    before it.  A caller keeps these hints (`get_current_stream_pos`) and
    passes one to `at_index(index, hint)`, which moves a decoder over the
    tail by the hint (`deltafor_decoder::skip`), starts an iterator at the
    hint's row and advances it to `index`.

    * A hint of a frame is the position of its tail after some of its rows
      (`HintFor`).  Every hint a frame keeps is one for every later state of
      the frame (`HintFor.mono`), the decoder it moves is about to read
      the rows after it (`skip_decoderAt`), and so `at_index(index, hint)`
      is the iterator at `index` whenever the hint's row starts at or
      before it (`FrameHolds.atIndexHint`).
    * A column passes the hint to the frame that holds the index, whichever
      frame the hint came from.  Built by appends, its frames are those
      built from the chunks of `max_frame_size` values (`Built`), and a hint
      taken while the frame that holds the index was the last one is a hint
      of that frame.

    `append_tx` sets `_last_row` as `append` does; the hinted frames here
    are built by `append`. -/

namespace DeltaFor

/-! ## Positions in a tail -/

/-- `deltafor_stream_pos_t`. -/
structure StreamPos where
  initial : UInt64
  offset : UInt32
  numRows : UInt32
deriving DecidableEq, Repr

/-- `deltafor_encoder::get_position`: `_last`, `uint32_t(_data.size_bytes())`
    and `_cnt`. -/
def DeltaforEncoder.getPosition (e : DeltaforEncoder) : StreamPos :=
  ⟨e.last, UInt32.ofNat e.data.length, e.cnt⟩

/-- `deltafor_decoder::skip`: `_data.skip(offset)`, which throws
    `std::out_of_range` past the end of the buffer (`none`), then the
    position's value and row count. -/
def DeltaforDecoder.skip (d : DeltaforDecoder) (st : StreamPos) : Option DeltaforDecoder :=
  if st.offset.toNat ≤ d.data.length then
    some { d with data := d.data.drop st.offset.toNat, initial := st.initial, pos := st.numRows }
  else none

/-! ## `deltafor_frame` with `_last_row` -/

/-- `deltafor_frame` with `_last_row`, which `DeltaforFrame` leaves out. -/
structure HintedFrame where
  frame : DeltaforFrame
  lastRow : Option StreamPos
deriving DecidableEq, Repr

namespace HintedFrame

variable (ty : IntType) (delta : DeltaStep)

/-- `deltafor_frame()`. -/
def empty : HintedFrame := ⟨DeltaforFrame.empty, none⟩

/-- `append`: once the row is full, `_last_row = _tail->get_position()`
    before `_tail->add(_head)`. -/
def append (hf : HintedFrame) (value : UInt64) : Option HintedFrame :=
  let ix := indexMask &&& hf.frame.size
  let size := hf.frame.size + 1
  let head := hf.frame.head.set ix value
  if size &&& indexMask = 0 then
    let tail := hf.frame.tail.getD (DeltaforEncoder.init (head.getD 0 0) delta)
    (tail.add ty head).map fun tail' => ⟨⟨head, some tail', size⟩, some tail.getPosition⟩
  else some ⟨⟨head, hf.frame.tail, size⟩, hf.lastRow⟩

/-- `append` of each value in turn. -/
def appendAll (hf : HintedFrame) : List UInt64 → Option HintedFrame
  | [] => some hf
  | v :: vs => (append ty delta hf v).bind fun hf => appendAll hf vs

end HintedFrame

namespace DeltaforFrame

variable (ty : IntType) (delta : DeltaStep)

/-- `at_index(index, hint)`: a decoder over the tail moved by
    `skip(hint)`, an iterator at the hint's row
    `hint.num_rows * FOR_buffer_depth` (in `uint32_t`), advanced to
    `index`.  A frame with no tail, which the source dereferences, and a
    hint whose row starts past `index`, from which `std::advance` cannot
    go back, are `none`. -/
def atIndexHint (f : DeltaforFrame) (index : Nat) (hint : StreamPos) : Option FrameIterator :=
  if index ≥ f.size then some FrameIterator.endIter
  else
    match f.tail with
    | none => none
    | some e =>
        ((DeltaforDecoder.init e.initial e.getRowCount e.copy delta).skip hint).bind fun decoder =>
          let currIx := hint.numRows * UInt32.ofNat rowWidth
          if currIx.toNat ≤ index then
            (FrameIterator.create ty decoder f.head (UInt32.ofNat f.size) currIx).bind
              (FrameIterator.advance ty (index - currIx.toNat))
          else none

end DeltaforFrame

/-! ## `deltafor_column` over frames with `_last_row` -/

/-- `deltafor_column` whose frames keep `_last_row`. -/
structure HintedColumn where
  frames : List HintedFrame
deriving DecidableEq, Repr

namespace HintedColumn

variable (ty : IntType) (delta : DeltaStep) (maxFrameSize : Nat)

/-- The column without the hints. -/
def toColumn (c : HintedColumn) : DeltaforColumn := ⟨c.frames.map HintedFrame.frame⟩

/-- `append`: a new frame when there is none or the last is full, then
    `_frames.back().append(value)`. -/
def append (c : HintedColumn) (value : UInt64) : Option HintedColumn :=
  let frames :=
    if DeltaforColumn.needsFrame maxFrameSize c.toColumn then c.frames ++ [HintedFrame.empty]
    else c.frames
  match frames.getLast? with
  | none => none
  | some back => (back.append ty delta value).map fun f => ⟨frames.dropLast ++ [f]⟩

/-- `append` of each value in turn. -/
def appendAll (c : HintedColumn) : List UInt64 → Option HintedColumn
  | [] => some c
  | v :: vs => (append ty delta maxFrameSize c v).bind fun c => appendAll c vs

end HintedColumn

namespace DeltaforColumn

variable (ty : IntType) (delta : DeltaStep)

/-- The loop of `at_index(index, hint)` over the frames: `make_snapshot_at`
    with the hint for the frame that holds the index. -/
def atIndexHintGo (index : Nat) (hint : StreamPos) : List DeltaforFrame → Nat → Option ColumnIterator
  | [], _ => some ColumnIterator.endIter
  | f :: fs, inner =>
      if f.size ≤ inner then atIndexHintGo index hint fs (inner - f.size)
      else
        (f.atIndexHint ty delta inner hint).bind fun it =>
          (fs.mapM (DeltaforFrame.begin ty delta)).map fun snap => ⟨snap, it, index⟩

/-- `at_index(index, hint)`. -/
def atIndexHint (c : DeltaforColumn) (index : Nat) (hint : StreamPos) : Option ColumnIterator :=
  atIndexHintGo ty delta index hint c.frames index

end DeltaforColumn

/-! ## The hints refine the frames and the columns -/

section Refine

variable (ty : IntType) (delta : DeltaStep) (maxFrameSize : Nat)

/-- `append` of a hinted frame is the frame's `append`, with `_last_row`
    moved on when the row is full. -/
theorem HintedFrame.append_eq (hf : HintedFrame) (v : UInt64) :
    hf.append ty delta v = (hf.frame.append ty delta v).map fun f =>
      ⟨f, if (hf.frame.size + 1) &&& indexMask = 0 then
            some (hf.frame.tail.getD (DeltaforEncoder.init
              ((hf.frame.head.set (indexMask &&& hf.frame.size) v).getD 0 0) delta)).getPosition
          else hf.lastRow⟩ := by
  unfold HintedFrame.append DeltaforFrame.append
  dsimp only
  split_ifs
  · rw [Option.map_map]
    rfl
  · rfl

theorem HintedFrame.map_frame_append (hf : HintedFrame) (v : UInt64) :
    (hf.append ty delta v).map HintedFrame.frame = hf.frame.append ty delta v := by
  rw [HintedFrame.append_eq, Option.map_map]
  exact Option.map_id'

theorem HintedColumn.map_toColumn_append (c : HintedColumn) (v : UInt64) :
    (c.append ty delta maxFrameSize v).map HintedColumn.toColumn =
      c.toColumn.append ty delta maxFrameSize v := by
  have hframes : (if DeltaforColumn.needsFrame maxFrameSize c.toColumn then c.frames ++ [HintedFrame.empty]
      else c.frames).map HintedFrame.frame =
      if DeltaforColumn.needsFrame maxFrameSize c.toColumn then c.toColumn.frames ++ [DeltaforFrame.empty]
      else c.toColumn.frames := by
    split <;> simp [HintedColumn.toColumn, HintedFrame.empty]
  unfold HintedColumn.append DeltaforColumn.append
  dsimp only
  rw [← hframes, List.getLast?_map]
  cases (if DeltaforColumn.needsFrame maxFrameSize c.toColumn then c.frames ++ [HintedFrame.empty]
      else c.frames).getLast? with
  | none => rfl
  | some back =>
      simp only [Option.map_some, Option.map_map, ← HintedFrame.map_frame_append]
      cases back.append ty delta v <;> simp [HintedColumn.toColumn, List.map_dropLast]

/-- Without its hints, the hinted column built by `append` is the
    column built by `append`. -/
theorem HintedColumn.map_toColumn_appendAll (vs : List UInt64) (c : HintedColumn) :
    (c.appendAll ty delta maxFrameSize vs).map HintedColumn.toColumn =
      c.toColumn.appendAll ty delta maxFrameSize vs := by
  induction vs generalizing c with
  | nil => rfl
  | cons v vs ih =>
      rw [HintedColumn.appendAll, DeltaforColumn.appendAll, ← map_toColumn_append]
      cases c.append ty delta maxFrameSize v with
      | none => rfl
      | some c' => exact ih c'

end Refine

/-! ## Hints of a frame -/

/-- A hint for a frame whose tail took `rows`: the tail's position after
    the first `k` of them, for some `k` short of all. -/
def HintFor (ty : IntType) (delta : DeltaStep) (rows : List (List UInt64)) (hint : StreamPos) : Prop :=
  ∃ k e, k < rows.length ∧
    (DeltaforEncoder.init (rows.flatten.headD 0) delta).addAll ty (rows.take k) = some e ∧
    hint = e.getPosition

/-- The buffer of a tail that took `rows` fits the `uint32_t` of
    `get_position`. -/
def DeltaforFrame.OffsetFits (f : DeltaforFrame) : Prop :=
  (f.tail.map fun e => e.data.length).getD 0 < 2 ^ 32

instance (f : DeltaforFrame) : Decidable f.OffsetFits :=
  inferInstanceAs (Decidable (_ < _))

section Hint

variable {ty : IntType} {delta : DeltaStep}

/-- A tail from `v0` that took `rows` has counted them. -/
theorem cnt_addAll_init {v0 : UInt64} {rows : List (List UInt64)} {e : DeltaforEncoder}
    (h : (DeltaforEncoder.init v0 delta).addAll ty rows = some e) (hlen : rows.length < 2 ^ 32) :
    e.cnt.toNat = rows.length := by
  rw [addAll_eq] at h
  obtain ⟨bs, -, rfl⟩ := Option.map_eq_some_iff.mp h
  simp only [DeltaforEncoder.init, UInt32.zero_add, UInt32.toNat_ofNat', Nat.mod_eq_of_lt hlen]

/-- A hint stays one as the frame takes more rows. -/
theorem HintFor.mono {rows rows' : List (List UInt64)} {hint : StreamPos}
    (hw : ∀ r ∈ rows, r.length = rowWidth) (hpre : rows <+: rows') (h : HintFor ty delta rows hint) :
    HintFor ty delta rows' hint := by
  obtain ⟨k, e, hk, hall, rfl⟩ := h
  obtain ⟨more, rfl⟩ := hpre
  have hne : rows ≠ [] := List.ne_nil_of_length_pos (by omega)
  refine ⟨k, e, by rw [List.length_append]; omega, ?_, rfl⟩
  rw [List.flatten_append, headD_flatten_append hw hne, List.take_append_of_le_length (by omega)]
  exact hall

/-- The decoder over a tail that took `rows`, moved by the position after
    the first `k` of them, is about to read the rest. -/
theorem skip_decoderAt {rows : List (List UInt64)} {k : Nat} {e ek : DeltaforEncoder}
    (hw : ∀ r ∈ rows, r.length = rowWidth) (hcount : rows.length < 2 ^ 32)
    (henc : delta.Encodes ty (rows.flatten.headD 0) rows.flatten)
    (hall : (DeltaforEncoder.init (rows.flatten.headD 0) delta).addAll ty rows = some e)
    (hk : (DeltaforEncoder.init (rows.flatten.headD 0) delta).addAll ty (rows.take k) = some ek)
    (hfit : e.data.length < 2 ^ 32) :
    ∃ d, (DeltaforDecoder.init e.initial e.getRowCount e.copy delta).skip ek.getPosition = some d ∧
      DecoderAt ty d (rows.drop k) := by
  generalize rows.flatten.headD 0 = v0 at henc hall hk
  -- the tail is the encoder after `k` rows that took the rest
  have hsplit : (DeltaforEncoder.init v0 delta).addAll ty (rows.take k ++ rows.drop k) = some e := by
    rw [List.take_append_drop]
    exact hall
  rw [addAll_append, hk, Option.bind_some, addAll_eq] at hsplit
  obtain ⟨bs, hbs, rfl⟩ := Option.map_eq_some_iff.mp hsplit
  have hek := hk
  rw [addAll_eq] at hek
  obtain ⟨bsk, -, rfl⟩ := Option.map_eq_some_iff.mp hek
  simp only [DeltaforEncoder.init, List.nil_append, List.length_append] at hbs hfit
  have hoff : (UInt32.ofNat bsk.length).toNat = bsk.length := by
    rw [UInt32.toNat_ofNat', Nat.mod_eq_of_lt (by omega)]
  -- what is left to read is the encoding of the rest, from the value before it
  have hflat : rows.flatten = (rows.take k).flatten ++ (rows.drop k).flatten := by
    rw [← List.flatten_append, List.take_append_drop]
  rw [hflat] at henc
  refine ⟨⟨(rows.take k).flatten.getLastD v0,
    0 + UInt32.ofNat (rows.take k).length + UInt32.ofNat (rows.drop k).length,
    0 + UInt32.ofNat (rows.take k).length, bs, delta⟩, ?_, ?_⟩
  · simp only [DeltaforDecoder.skip, DeltaforDecoder.init, DeltaforEncoder.getPosition,
      DeltaforEncoder.getRowCount, DeltaforEncoder.copy, DeltaforEncoder.init, List.nil_append, hoff,
      List.length_append, Nat.le_add_right, if_true, List.drop_left]
  · refine ⟨fun r hr => hw r (List.mem_of_mem_drop hr), henc.append.2, hbs, ?_⟩
    simp only [UInt32.zero_add, UInt32.toNat_add, UInt32.toNat_ofNat', List.length_take,
      List.length_drop]
    omega

/-- The iterator made from a decoder about to read the rows from row `k`
    on is at the first index of row `k`. -/
theorem create_at_row {d : DeltaforDecoder} {rows : List (List UInt64)} {part head : List UInt64}
    {k : Nat} {size pos : UInt32} (hw : ∀ r ∈ rows, r.length = rowWidth)
    (hpart : part.length < rowWidth) (hhead : part <+: head)
    (hsize : size.toNat = rowWidth * rows.length + part.length) (hpos : pos.toNat = rowWidth * k)
    (hk : k < rows.length) (hd : DecoderAt ty d (rows.drop k)) :
    ∃ it, FrameIterator.create ty d head size pos = some it ∧
      FrameIterAt ty it rows part (rowWidth * k) := by
  rw [List.drop_eq_getElem_cons hk] at hd
  obtain ⟨d', hread, hd', -⟩ := hd.read_cons (List.replicate rowWidth 0)
  have hrow : rowWidth * k / rowWidth = k := Nat.mul_div_cancel_left k (by decide)
  have hle : rowWidth * k ≤ rowWidth * rows.length := Nat.mul_le_mul_left rowWidth hk.le
  refine ⟨⟨rows[k], head, some d', pos, size⟩, ?_,
    ⟨hw, hpart, hhead, hsize, hpos, by omega, ⟨d', rfl, ?_⟩, ?_⟩⟩
  · simp only [FrameIterator.create, hread, Option.map_some, if_true]
  · rw [hrow]
    exact hd'
  · rw [hrow, List.getElem?_eq_getElem hk, Option.getD_some]

section Frame

variable {f : DeltaforFrame} {rows : List (List UInt64)} {part : List UInt64}

/-- `at_index(index, hint)` with a hint of the frame whose row starts at or
    before `index` is the iterator at `index`. -/
theorem FrameHolds.atIndexHint (h : FrameHolds ty delta f rows part) (hlt : f.size < 2 ^ 32)
    (henc : delta.Encodes ty (rows.flatten.headD 0) rows.flatten) (hfit : f.OffsetFits)
    {hint : StreamPos} (hh : HintFor ty delta rows hint) {index : Nat}
    (hrow : rowWidth * hint.numRows.toNat ≤ index) (hidx : index < f.size) :
    ∃ it, f.atIndexHint ty delta index hint = some it ∧ FrameIterAt ty it rows part index := by
  obtain ⟨k, ek, hk, hallk, rfl⟩ := hh
  have hsize := h.size_eq
  have hcount : rows.length < 2 ^ 32 := by
    simp only [rowWidth] at hsize
    omega
  have hcnt : ek.cnt.toNat = k := by
    rw [cnt_addAll_init hallk (by rw [List.length_take]; omega), List.length_take]
    omega
  have hstart : rowWidth * k ≤ index := by
    rwa [DeltaforEncoder.getPosition, hcnt] at hrow
  have htail := h.tail
  cases hf : f.tail with
  | none =>
      -- a frame with a hint has taken a row
      rw [hf] at htail
      rw [htail] at hk
      exact absurd hk (Nat.not_lt_zero k)
  | some e =>
      rw [hf] at htail
      obtain ⟨-, hall⟩ := htail
      have hdata : e.data.length < 2 ^ 32 := by
        simpa [DeltaforFrame.OffsetFits, hf] using hfit
      obtain ⟨d, hskip, hd⟩ := skip_decoderAt h.width hcount henc hall hallk hdata
      -- `hint.num_rows * FOR_buffer_depth` does not wrap
      have hix : (ek.getPosition.numRows * UInt32.ofNat rowWidth).toNat = rowWidth * k := by
        have hle : rowWidth * k ≤ rowWidth * rows.length := Nat.mul_le_mul_left rowWidth hk.le
        simp only [DeltaforEncoder.getPosition, UInt32.toNat_mul, hcnt, UInt32.toNat_ofNat']
        simp only [rowWidth] at hle hsize ⊢
        omega
      have hsize' : (UInt32.ofNat f.size).toNat = rowWidth * rows.length + part.length := by
        rw [UInt32.toNat_ofNat', Nat.mod_eq_of_lt hlt, hsize]
      obtain ⟨it₀, hcreate, h₀⟩ :=
        create_at_row h.width h.part_lt ⟨_, h.head_eq.symm⟩ hsize' hix hk hd
      obtain ⟨it, hadv, hat⟩ := h₀.advance (index - rowWidth * k) (by omega)
      rw [Nat.add_sub_cancel' hstart] at hat
      refine ⟨it, ?_, hat⟩
      rw [DeltaforFrame.atIndexHint, if_neg (by omega)]
      simp only [hf, hskip, Option.bind_some, hix, if_pos hstart, hcreate, hadv]

end Frame

/-! ## The hints a frame keeps -/

/-- A hinted frame holds `rows` and `part`, and its `_last_row` is a hint
    for its rows. -/
structure HintedHolds (ty : IntType) (delta : DeltaStep) (hf : HintedFrame)
    (rows : List (List UInt64)) (part : List UInt64) : Prop where
  holds : FrameHolds ty delta hf.frame rows part
  lastRow : ∀ hint, hf.lastRow = some hint → HintFor ty delta rows hint

theorem hintedHolds_empty (ty : IntType) (delta : DeltaStep) :
    HintedHolds ty delta HintedFrame.empty [] [] :=
  ⟨empty_holds ty delta, fun _ h => by cases h⟩

section Keep

variable {f : DeltaforFrame} {rows : List (List UInt64)} {part : List UInt64}

/-- `append` writes the value after the partial row in the head. -/
theorem FrameHolds.head_set (h : FrameHolds ty delta f rows part) (v : UInt64) :
    f.head.set (indexMask &&& f.size) v =
      part ++ [v] ++ (rows.getLastD (List.replicate rowWidth 0)).drop (part.length + 1) := by
  have hix : indexMask &&& f.size = part.length := by
    have hlt := h.part_lt
    rw [indexMask_and, h.size_eq]
    simp only [rowWidth] at hlt ⊢
    omega
  rw [hix, h.head_eq]
  exact set_head (length_getLastD_rows h.width) h.part_lt v

/-- The tail a full row goes into is the encoder from the frame's first
    value that took the rows before it. -/
theorem FrameHolds.addAll_tail (h : FrameHolds ty delta f rows part) {row : List UInt64}
    (hrow : row.length = rowWidth) :
    (DeltaforEncoder.init ((rows ++ [row]).flatten.headD 0) delta).addAll ty rows =
      some (f.tail.getD (DeltaforEncoder.init (row.getD 0 0) delta)) := by
  have htail := h.tail
  cases hf : f.tail with
  | none =>
      -- the first full row: a new encoder from its first value
      rw [hf] at htail
      subst htail
      obtain ⟨x, xs, rfl⟩ := List.exists_cons_of_ne_nil (List.ne_nil_of_length_pos (by
        rw [hrow]; decide : 0 < row.length))
      rfl
  | some e =>
      rw [hf] at htail
      obtain ⟨hne, hall⟩ := htail
      rw [List.flatten_append, headD_flatten_append h.width hne, Option.getD_some]
      exact hall

/-- `append` keeps what a hinted frame holds, one value further on, and
    keeps `_last_row` a hint for its rows. -/
theorem HintedHolds.append {hf : HintedFrame} (h : HintedHolds ty delta hf rows part) (v : UInt64)
    (henc : delta.Encodes ty ((rows.flatten ++ part ++ [v]).headD 0) (rows.flatten ++ part ++ [v])) :
    ∃ hf', hf.append ty delta v = some hf' ∧
      HintedHolds ty delta hf' (pushValue rows part v).1 (pushValue rows part v).2 := by
  obtain ⟨f', happ, hf'⟩ := h.holds.append v henc
  refine ⟨_, by rw [HintedFrame.append_eq, happ, Option.map_some], hf', fun hint hhint => ?_⟩
  dsimp only at hhint
  have hsize := h.holds.size_eq
  have hlt := h.holds.part_lt
  by_cases hfull : part.length + 1 = rowWidth
  · -- the row is full: the hint is the tail's position before it
    have hmask : (hf.frame.size + 1) &&& indexMask = 0 := by
      rw [and_indexMask, hsize]
      simp only [rowWidth] at hfull hlt ⊢
      omega
    have hrow : (part ++ [v]).length = rowWidth := by simp [hfull]
    have hdrop : (rows.getLastD (List.replicate rowWidth 0)).drop (part.length + 1) = [] :=
      List.drop_eq_nil_of_le (by rw [length_getLastD_rows h.holds.width, hfull])
    rw [if_pos hmask, h.holds.head_set, hdrop, List.append_nil, Option.some.injEq] at hhint
    rw [pushValue, if_pos hfull]
    refine ⟨rows.length, _, by simp, ?_, hhint.symm⟩
    rw [List.take_left]
    exact h.holds.addAll_tail hrow
  · -- inside the row: the hint and the rows stay
    have hmask : ¬(hf.frame.size + 1) &&& indexMask = 0 := by
      rw [and_indexMask, hsize]
      simp only [rowWidth] at hfull hlt ⊢
      omega
    rw [if_neg hmask] at hhint
    rw [pushValue, if_neg hfull]
    exact h.lastRow hint hhint

/-- The full rows and the partial row after the values `ws`. -/
def pushValues (p : List (List UInt64) × List UInt64) (ws : List UInt64) :
    List (List UInt64) × List UInt64 :=
  ws.foldl (fun p v => pushValue p.1 p.2 v) p

theorem frameValues_pushValues (p : List (List UInt64) × List UInt64) (ws : List UInt64) :
    frameValues (pushValues p ws) = frameValues p ++ ws := by
  induction ws generalizing p with
  | nil => simp [pushValues]
  | cons v ws ih =>
      rw [pushValues, List.foldl_cons, ← pushValues, ih, frameValues_pushValue, List.append_assoc,
        List.singleton_append]

/-- `append` of each value in turn keeps what a hinted frame holds. -/
theorem HintedHolds.appendAll {alg : ColumnAlg} (ws : List UInt64) {hf : HintedFrame}
    (h : HintedHolds ty alg.instance hf rows part) (hacc : alg.Accepts ty (rows.flatten ++ part ++ ws)) :
    ∃ hf', hf.appendAll ty alg.instance ws = some hf' ∧
      HintedHolds ty alg.instance hf' (pushValues (rows, part) ws).1 (pushValues (rows, part) ws).2 := by
  induction ws generalizing hf rows part with
  | nil => exact ⟨hf, rfl, h⟩
  | cons v ws ih =>
      have hv : alg.Accepts ty (rows.flatten ++ part ++ [v]) := hacc.infix ⟨[], ws, by simp⟩
      obtain ⟨hf₁, happ, h₁⟩ := h.append v (ColumnAlg.encodes_of_accepts hv)
      obtain ⟨hf', hall, h'⟩ := ih h₁ (by rw [flatten_pushValue]; simpa using hacc)
      exact ⟨hf', by rw [HintedFrame.appendAll, happ, Option.bind_some, hall], h'⟩

theorem flatten_pushValues_nil (ws : List UInt64) :
    (pushValues ([], []) ws).1.flatten ++ (pushValues ([], []) ws).2 = ws :=
  frameValues_pushValues ([], []) ws

/-- A frame built from accepted values holds them, with a hint for its
    rows. -/
theorem hintedHolds_of_appendAll {alg : ColumnAlg} {ws : List UInt64} {hf : HintedFrame}
    (hacc : alg.Accepts ty ws) (h : HintedFrame.empty.appendAll ty alg.instance ws = some hf) :
    HintedHolds ty alg.instance hf (pushValues ([], []) ws).1 (pushValues ([], []) ws).2 := by
  obtain ⟨hf', hall, h'⟩ := (hintedHolds_empty ty alg.instance).appendAll ws (by simpa using hacc)
  rw [h, Option.some.injEq] at hall
  rw [hall]
  exact h'

theorem HintedFrame.appendAll_append (hf : HintedFrame) (xs ys : List UInt64) :
    hf.appendAll ty delta (xs ++ ys) = (hf.appendAll ty delta xs).bind fun hf => hf.appendAll ty delta ys := by
  induction xs generalizing hf with
  | nil => rfl
  | cons x xs ih =>
      rw [List.cons_append, HintedFrame.appendAll, HintedFrame.appendAll]
      cases hf.append ty delta x with
      | none => rfl
      | some hf' => exact ih hf'

/-! ## A column built by appends -/

/-- The chunks of a column's values after one more value: a new chunk
    when there is none or the last holds `max_frame_size` values. -/
def pushChunk (maxFrameSize : Nat) (cs : List (List UInt64)) (v : UInt64) : List (List UInt64) :=
  match cs.getLast? with
  | none => [[v]]
  | some last => if last.length = maxFrameSize then cs ++ [[v]] else cs.dropLast ++ [last ++ [v]]

theorem flatten_pushChunk (maxFrameSize : Nat) (cs : List (List UInt64)) (v : UInt64) :
    (pushChunk maxFrameSize cs v).flatten = cs.flatten ++ [v] := by
  unfold pushChunk
  cases hlast : cs.getLast? with
  | none => rw [List.getLast?_eq_none_iff.mp hlast]; rfl
  | some last =>
      have hsplit := List.dropLast_append_getLast? last hlast
      dsimp only
      split
      · simp
      · conv_rhs => rw [← hsplit]
        simp

theorem forall₂_concat_right {α β : Type} {R : α → β → Prop} {xs : List α} {ys : List β} {b : β}
    (h : List.Forall₂ R xs (ys ++ [b])) : ∃ xs' a, xs = xs' ++ [a] ∧ List.Forall₂ R xs' ys ∧ R a b := by
  obtain ⟨ys', a, rfl, hys, hab⟩ :=
    forall₂_concat_left (show List.Forall₂ (flip (flip R)) xs (ys ++ [b]) from h).flip
  exact ⟨ys', a, rfl, hys.flip, hab⟩

/-- A hinted column built by appends: its frames are those built from the
    chunks `cs` of its values, each of `max_frame_size` values but the
    last. -/
structure Built (ty : IntType) (alg : ColumnAlg) (maxFrameSize : Nat) (c : HintedColumn)
    (cs : List (List UInt64)) : Prop where
  frames : List.Forall₂ (fun hf ws => HintedFrame.empty.appendAll ty alg.instance ws = some hf) c.frames cs
  chunked : Chunks.Chunked maxFrameSize cs
  nonempty : ∀ ws ∈ cs, ws ≠ []

section Built

variable {alg : ColumnAlg} {maxFrameSize : Nat}

/-- `append` adds the value to the last chunk, or starts a chunk when the
    last is full. -/
theorem Built.append {c : HintedColumn} {cs : List (List UInt64)} (h : Built ty alg maxFrameSize c cs)
    (hpos : 0 < maxFrameSize) (v : UInt64) (hacc : alg.Accepts ty (cs.flatten ++ [v])) :
    ∃ c', c.append ty alg.instance maxFrameSize v = some c' ∧
      Built ty alg maxFrameSize c' (pushChunk maxFrameSize cs v) := by
  -- a new frame from the value
  have hv : alg.Accepts ty [v] := hacc.infix (List.infix_append' _ _ [])
  obtain ⟨hf₁, happ₁, -⟩ := (hintedHolds_empty ty alg.instance).append v
    (by simpa using ColumnAlg.encodes_of_accepts hv)
  have hnew : HintedFrame.empty.appendAll ty alg.instance [v] = some hf₁ := by
    rw [HintedFrame.appendAll, happ₁, Option.bind_some]
    rfl
  cases hlast : cs.getLast? with
  | none =>
      -- no frame yet
      have hcs : cs = [] := List.getLast?_eq_none_iff.mp hlast
      subst hcs
      have hframes : c.frames = [] := List.forall₂_nil_right_iff.mp h.frames
      have hpush : pushChunk maxFrameSize [] v = [[v]] := rfl
      rw [hpush]
      refine ⟨⟨[hf₁]⟩, ?_, ⟨.cons hnew .nil, ⟨by simp, by simp; omega⟩, by simp⟩⟩
      simp [HintedColumn.append, HintedColumn.toColumn, DeltaforColumn.needsFrame, hframes, happ₁]
  | some ws =>
      have hsplit : cs.dropLast ++ [ws] = cs := List.dropLast_append_getLast? ws hlast
      have hframes := h.frames
      rw [← hsplit] at hframes
      obtain ⟨fs₀, g, hfs, hfs₀, hg⟩ := forall₂_concat_right hframes
      have hws : ws ∈ cs := List.mem_of_getLast? hlast
      have hacc' : alg.Accepts ty (ws ++ [v]) :=
        hacc.infix ⟨cs.dropLast.flatten, [], by rw [← hsplit]; simp⟩
      have hacc₀ : alg.Accepts ty ws := hacc'.infix (List.prefix_append ws [v]).isInfix
      have hg' := hintedHolds_of_appendAll hacc₀ hg
      have hsize : g.frame.size = ws.length := by
        rw [hg'.holds.size_eq_length, flatten_pushValues_nil]
      have hneed : DeltaforColumn.needsFrame maxFrameSize c.toColumn = decide (ws.length = maxFrameSize) := by
        simp [DeltaforColumn.needsFrame, HintedColumn.toColumn, hfs, hsize]
      by_cases hfull : ws.length = maxFrameSize
      · -- the last frame is full: a new frame takes the value
        refine ⟨⟨c.frames ++ [hf₁]⟩, ?_, ⟨?_, ⟨?_, ?_⟩, ?_⟩⟩
        · simp [HintedColumn.append, hneed, hfull, happ₁]
        · simp only [pushChunk, hlast, if_pos hfull]
          exact List.rel_append h.frames (.cons hnew .nil)
        · intro d hd
          simp only [pushChunk, hlast, if_pos hfull, List.dropLast_concat] at hd
          rw [← hsplit] at hd
          rcases List.mem_append.mp hd with hd | hd
          · exact h.chunked.1 d hd
          · rw [List.mem_singleton.mp hd, hfull]
        · intro d hd
          simp only [pushChunk, hlast, if_pos hfull, List.mem_append, List.mem_singleton] at hd
          rcases hd with hd | rfl
          · exact h.chunked.2 d hd
          · exact hpos
        · intro d hd
          simp only [pushChunk, hlast, if_pos hfull, List.mem_append, List.mem_singleton] at hd
          rcases hd with hd | rfl
          · exact h.nonempty d hd
          · simp
      · -- the last frame takes the value
        have henc := ColumnAlg.encodes_of_accepts hacc'
        rw [← flatten_pushValues_nil ws] at henc
        obtain ⟨g', happ, -⟩ := hg'.append v henc
        refine ⟨⟨fs₀ ++ [g']⟩, ?_, ⟨?_, ⟨?_, ?_⟩, ?_⟩⟩
        · simp [HintedColumn.append, hneed, hfull, hfs, happ]
        · simp only [pushChunk, hlast, if_neg hfull]
          refine List.rel_append hfs₀ (.cons ?_ .nil)
          rw [HintedFrame.appendAll_append, hg, Option.bind_some, HintedFrame.appendAll, happ,
            Option.bind_some]
          rfl
        · intro d hd
          simp only [pushChunk, hlast, if_neg hfull, List.dropLast_concat] at hd
          exact h.chunked.1 d hd
        · intro d hd
          simp only [pushChunk, hlast, if_neg hfull, List.mem_append, List.mem_singleton] at hd
          rcases hd with hd | rfl
          · exact h.chunked.2 d (List.mem_of_mem_dropLast hd)
          · have hle := h.chunked.2 ws hws
            rw [List.length_append, List.length_singleton]
            omega
        · intro d hd
          simp only [pushChunk, hlast, if_neg hfull, List.mem_append, List.mem_singleton] at hd
          rcases hd with hd | rfl
          · exact h.nonempty d (List.mem_of_mem_dropLast hd)
          · simp

/-- `append` of each value in turn. -/
theorem Built.appendAll (hpos : 0 < maxFrameSize) (vs : List UInt64) {c : HintedColumn}
    {cs : List (List UInt64)} (h : Built ty alg maxFrameSize c cs) (hacc : alg.Accepts ty (cs.flatten ++ vs)) :
    ∃ c', c.appendAll ty alg.instance maxFrameSize vs = some c' ∧
      Built ty alg maxFrameSize c' (vs.foldl (pushChunk maxFrameSize) cs) := by
  induction vs generalizing c cs with
  | nil => exact ⟨c, rfl, h⟩
  | cons v vs ih =>
      have hv : alg.Accepts ty (cs.flatten ++ [v]) := hacc.infix ⟨[], vs, by simp⟩
      obtain ⟨c₁, happ, h₁⟩ := h.append hpos v hv
      obtain ⟨c', hall, h'⟩ := ih h₁ (by rw [flatten_pushChunk]; simpa using hacc)
      exact ⟨c', by rw [HintedColumn.appendAll, happ, Option.bind_some, hall], h'⟩

theorem columnValues_map_pushValues (cs : List (List UInt64)) :
    columnValues (cs.map (pushValues ([], []))) = cs.flatten := by
  induction cs with
  | nil => rfl
  | cons ws cs ih =>
      rw [List.map_cons, columnValues_cons, ih, frameValues, flatten_pushValues_nil, List.flatten_cons]

/-- Each frame of a built column is ready to be read, and holds the rows
    of its chunk. -/
theorem Built.ready {c : HintedColumn} {cs : List (List UInt64)} (h : Built ty alg maxFrameSize c cs)
    (hmax : maxFrameSize < 2 ^ 32) (hacc : alg.Accepts ty cs.flatten) :
    List.Forall₂ (FrameReady ty alg.instance) c.toColumn.frames (cs.map (pushValues ([], []))) := by
  have hall : ∀ ws ∈ cs, ws ≠ [] ∧ ws.length < 2 ^ 32 ∧ alg.Accepts ty ws := fun ws hws =>
    ⟨h.nonempty ws hws, Nat.lt_of_le_of_lt (h.chunked.2 ws hws) hmax,
      hacc.infix (List.infix_of_mem_flatten hws)⟩
  rw [HintedColumn.toColumn, List.forall₂_map_left_iff, List.forall₂_map_right_iff]
  have hframes := h.frames
  generalize c.frames = fs at hframes ⊢
  clear h hacc
  induction hframes with
  | nil => exact .nil
  | @cons hf ws _ _ hF _ ih =>
      obtain ⟨hne, hlt, hacc⟩ := hall ws List.mem_cons_self
      have hh := hintedHolds_of_appendAll hacc hF
      have hvals : frameValues (pushValues ([], []) ws) = ws := flatten_pushValues_nil ws
      exact .cons (FrameReady.of_holds hh.holds (by rw [hvals]; exact hne) (by rw [hvals]; exact hlt))
        (ih fun ws' hws' => hall ws' (List.mem_cons_of_mem _ hws'))

/-- The loop of `at_index(index, hint)` passes the frames before the
    index. -/
theorem atIndexHintGo_append (index : Nat) (hint : StreamPos) (fs₁ fs₂ : List DeltaforFrame)
    (inner : Nat) (h : (fs₁.map DeltaforFrame.size).sum ≤ inner) :
    DeltaforColumn.atIndexHintGo ty delta index hint (fs₁ ++ fs₂) inner =
      DeltaforColumn.atIndexHintGo ty delta index hint fs₂ (inner - (fs₁.map DeltaforFrame.size).sum) := by
  induction fs₁ generalizing inner with
  | nil => simp
  | cons f fs ih =>
      simp only [List.map_cons, List.sum_cons] at h ⊢
      rw [List.cons_append, DeltaforColumn.atIndexHintGo, if_pos (by omega), ih _ (by omega), Nat.sub_sub]

/-- In a built column, `at_index(index, hint)` with a hint of the frame
    that holds the index, whose row starts at or before it, is the
    iterator at the index. -/
theorem Built.atIndexHint {c : HintedColumn} {pre post : List (List UInt64)} {ws : List UInt64}
    (h : Built ty alg maxFrameSize c (pre ++ ws :: post)) (hmax : maxFrameSize < 2 ^ 32)
    (hacc : alg.Accepts ty (pre ++ ws :: post).flatten) (hfit : ∀ f ∈ c.toColumn.frames, f.OffsetFits)
    {hint : StreamPos} (hh : HintFor ty alg.instance (pushValues ([], []) ws).1 hint) {index inner : Nat}
    (hidx : index = maxFrameSize * pre.length + inner) (hrow : rowWidth * hint.numRows.toNat ≤ inner)
    (hinner : inner < ws.length) :
    ∃ it, c.toColumn.atIndexHint ty alg.instance index hint = some it ∧
      ColIterAt ty ((pre ++ ws :: post).map (pushValues ([], []))) it index := by
  have hready := h.ready hmax hacc
  rw [List.map_append, List.map_cons] at hready
  -- the frames of the chunks before, and the frame of `ws` after them
  have htake := List.forall₂_take pre.length hready
  have hdrop := List.forall₂_drop pre.length hready
  rw [List.take_left' (List.length_map _)] at htake
  rw [List.drop_left' (List.length_map _)] at hdrop
  obtain ⟨gf, fpost, hgf, hpost, hfs⟩ := List.forall₂_cons_right_iff.mp hdrop
  -- the chunks before hold `max_frame_size` values each
  have hfull : ∀ d ∈ pre, d.length = maxFrameSize := fun d hd =>
    h.chunked.1 d (by rw [List.dropLast_append_of_ne_nil (List.cons_ne_nil ws post)]; exact List.mem_append_left _ hd)
  have hsizes : ((c.toColumn.frames.take pre.length).map DeltaforFrame.size).sum =
      maxFrameSize * pre.length := by
    rw [sum_sizes (htake.imp fun _ _ hr => hr.holds), columnValues_map_pushValues,
      Chunks.length_flatten_of_forall hfull]
  have hsize : gf.size = ws.length := by
    rw [hgf.holds.size_eq_length, flatten_pushValues_nil]
  have hgf_mem : gf ∈ c.toColumn.frames :=
    List.mem_of_mem_drop (show gf ∈ c.toColumn.frames.drop pre.length by rw [hfs]; exact List.mem_cons_self)
  obtain ⟨it, hat, hit⟩ := hgf.holds.atIndexHint hgf.size_lt hgf.encodes (hfit gf hgf_mem) hh hrow
    (by omega)
  obtain ⟨snap, hsnap, hits⟩ := mapM_begin hpost
  refine ⟨⟨snap, it, index⟩, ?_, .inFrame (pre.map (pushValues ([], []))) (post.map (pushValues ([], [])))
    (pushValues ([], []) ws) inner (by simp) hit ?_ hits ?_ rfl⟩
  · rw [DeltaforColumn.atIndexHint, ← List.take_append_drop pre.length c.toColumn.frames,
      atIndexHintGo_append _ _ _ _ _ (by omega), hsizes, hfs, DeltaforColumn.atIndexHintGo,
      if_neg (by omega), show index - maxFrameSize * pre.length = inner by omega, hat, Option.bind_some,
      hsnap, Option.map_some]
  · rw [frameValues, flatten_pushValues_nil]
    exact hinner
  · rw [columnValues_map_pushValues, Chunks.length_flatten_of_forall hfull]
    exact hidx

end Built

end Keep

/-- An iterator at an index before the end has that index. -/
theorem ColIterAt.index_eq {ty : IntType} {fr : List (List (List UInt64) × List UInt64)}
    {it : ColumnIterator} {g : Nat} (h : ColIterAt ty fr it g) (hg : g < (columnValues fr).length) :
    it.index = g := by
  cases h with
  | inFrame _ _ _ _ _ _ _ _ _ hix => exact hix
  | atEnd _ hg' => omega

end Hint

/-! ## Hinted access agrees with plain access -/

end DeltaFor
