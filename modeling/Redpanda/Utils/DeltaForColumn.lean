import Redpanda.Utils.DeltaFor

/-! # `deltafor_frame` and `deltafor_column`

    `utils/delta_for.h` above the encoder: a frame keeps its values in a
    `deltafor_encoder` (its tail) for every full row and in a 16-value head
    for the row being filled; a column is a list of frames of at most
    `max_frame_size` values each.

    * **`DeltaforFrame.append`** writes the value into the head at
      `_size & index_mask` and, when the row is full, hands the head to the
      tail, created on the first full row with the head's first value.
      **`appendTx`** does the same into a copy of the tail that **`commit`**
      installs.
    * **`FrameIterator`** is `deltafor_frame_const_iterator`: it reads the
      tail's rows through a decoder and, once the decoder returns `false`,
      the head.  **`ColumnIterator`** is `deltafor_column_const_iterator`
      over a snapshot of one frame iterator per frame.
    * **`DeltaforColumn`**: `append`, `append_tx` and the commit of its
      transaction, `size`, `begin`, `at_index` and `last_value`.

    The value type and the delta algorithm of a column are its template
    parameters `ty` and `delta`.  An iobuf shared between an encoder and a
    transaction's copy is a list copied with it.  The `_last_row` hint,
    which only `at_index(index, hint)` reads, is in `DeltaForHint`. -/

namespace DeltaFor

/-- `index_mask`. -/
def indexMask : Nat := rowWidth - 1

/-! ## `deltafor_frame_const_iterator` -/

/-- `deltafor_frame_const_iterator`: `_read_buf`, `_head`, `_decoder`,
    `_pos` and `_size`. -/
structure FrameIterator where
  readBuf : List UInt64
  head : List UInt64
  decoder : Option DeltaforDecoder
  pos : UInt32
  size : UInt32
deriving DecidableEq, Repr

namespace FrameIterator

/-- `deltafor_frame_const_iterator()`, the end of every frame. -/
def endIter : FrameIterator :=
  ⟨List.replicate rowWidth 0, List.replicate rowWidth 0, none, 0, 0⟩

/-- The constructor from a decoder: it reads the first row, and takes the
    head when the decoder has no row. -/
def create (ty : IntType) (decoder : DeltaforDecoder) (head : List UInt64) (size pos : UInt32) :
    Option FrameIterator :=
  (decoder.read ty (List.replicate rowWidth 0)).map fun res =>
    ⟨if res.1 then res.2.1 else head, head, some res.2.2, pos, size⟩

/-- `dereference`: `_read_buf.at(_pos & index_mask)`, always in range. -/
def deref (it : FrameIterator) : UInt64 :=
  it.readBuf.getD (it.pos &&& UInt32.ofNat indexMask).toNat 0

/-- `increment`: at each row boundary the next row of the decoder, or the
    head once it has none.  Incrementing the end iterator, which has no
    decoder, is `none`. -/
def increment (ty : IntType) (it : FrameIterator) : Option FrameIterator :=
  let pos := it.pos + 1
  if pos &&& UInt32.ofNat indexMask = 0 then
    match it.decoder with
    | none => none
    | some d =>
        (d.read ty (List.replicate rowWidth 0)).map fun res =>
          { it with readBuf := if res.1 then res.2.1 else it.head, decoder := some res.2.2, pos }
  else some { it with pos }

/-- `equal`: all end iterators are equal. -/
def equal (it other : FrameIterator) : Bool :=
  if other.pos = other.size then it.pos = it.size
  else other.pos = it.pos && other.size = it.size

/-- `std::advance`. -/
def advance (ty : IntType) : Nat → FrameIterator → Option FrameIterator
  | 0, it => some it
  | n + 1, it => (it.increment ty).bind (advance ty n)

end FrameIterator

/-! ## `deltafor_frame` -/

/-- `deltafor_frame`: `_head`, `_tail` and `_size`. -/
structure DeltaforFrame where
  head : List UInt64
  tail : Option DeltaforEncoder
  size : Nat
deriving DecidableEq, Repr

/-- The transaction of a frame: the tail's `tx_state`, a copy of the
    encoder with the row added. -/
structure FrameTx where
  uncommitted : DeltaforEncoder
deriving DecidableEq, Repr

namespace DeltaforFrame

variable (ty : IntType) (delta : DeltaStep)

/-- `deltafor_frame()`. -/
def empty : DeltaforFrame := ⟨List.replicate rowWidth 0, none, 0⟩

/-- `append`.  A failed `vassert` of the tail's `add` is `none`. -/
def append (f : DeltaforFrame) (value : UInt64) : Option DeltaforFrame :=
  let ix := indexMask &&& f.size
  let size := f.size + 1
  let head := f.head.set ix value
  if size &&& indexMask = 0 then
    -- `_tail.emplace(_head.at(0))` on the first full row
    let tail := f.tail.getD (DeltaforEncoder.init (head.getD 0 0) delta)
    (tail.add ty head).map fun tail => ⟨head, some tail, size⟩
  else some ⟨head, f.tail, size⟩

/-- `append_tx`: the head and the size change at once, and so does the tail
    when it is created; the row goes into the transaction's copy. -/
def appendTx (f : DeltaforFrame) (value : UInt64) : Option (DeltaforFrame × Option FrameTx) :=
  let ix := indexMask &&& f.size
  let size := f.size + 1
  let head := f.head.set ix value
  if size &&& indexMask = 0 then
    let tail := f.tail.getD (DeltaforEncoder.init (head.getD 0 0) delta)
    (tail.add ty head).map fun uncommitted => (⟨head, some tail, size⟩, some ⟨uncommitted⟩)
  else some (⟨head, f.tail, size⟩, none)

/-- `frame_tx_t::commit`: `tx_commit` takes `_last`, `_data`, `_cnt` and
    `_delta` from the copy. -/
def commit (f : DeltaforFrame) (tx : FrameTx) : DeltaforFrame :=
  { f with
    tail := f.tail.map fun e =>
      { e with
        last := tx.uncommitted.last
        data := tx.uncommitted.data
        cnt := tx.uncommitted.cnt
        delta := tx.uncommitted.delta } }

/-- `begin`: a decoder over the tail, or over nothing when only the head
    holds values; the end iterator for an empty frame. -/
def begin (f : DeltaforFrame) : Option FrameIterator :=
  match f.tail with
  | some e =>
      FrameIterator.create ty (DeltaforDecoder.init e.initial e.getRowCount e.copy delta) f.head
        (UInt32.ofNat f.size) 0
  | none =>
      if f.size ≠ 0 then
        FrameIterator.create ty (DeltaforDecoder.init 0 0 [] delta) f.head (UInt32.ofNat f.size) 0
      else some FrameIterator.endIter

/-- `at_index`: `begin` advanced `index` times, the end past the frame. -/
def atIndex (f : DeltaforFrame) (index : Nat) : Option FrameIterator :=
  if index ≥ f.size then some FrameIterator.endIter
  else (f.begin ty delta).bind (FrameIterator.advance ty index)

/-- `last_value`: the head at the last index. -/
def lastValue (f : DeltaforFrame) : Option UInt64 :=
  if f.size = 0 then none else some (f.head.getD ((f.size - 1) &&& indexMask) 0)

end DeltaforFrame

/-! ## `deltafor_column_const_iterator` -/

/-- `deltafor_column_const_iterator`: the frame iterators of the snapshot
    after `_outer_it`, the current one `_inner_it`, and `_ix_column`. -/
structure ColumnIterator where
  pending : List FrameIterator
  inner : FrameIterator
  ixColumn : Nat
deriving DecidableEq, Repr

namespace ColumnIterator

/-- `deltafor_column_const_iterator()`. -/
def endIter : ColumnIterator := ⟨[], FrameIterator.endIter, 0⟩

/-- A snapshot positioned at its first frame iterator. -/
def ofSnapshot (snapshot : List FrameIterator) (ix : Nat) : ColumnIterator :=
  match snapshot with
  | [] => ⟨[], FrameIterator.endIter, ix⟩
  | it :: rest => ⟨rest, it, ix⟩

/-- `is_end`: `_inner_it == _inner_end`. -/
def isEnd (it : ColumnIterator) : Bool := it.inner.equal FrameIterator.endIter

/-- `index`. -/
def index (it : ColumnIterator) : Nat := it.ixColumn

/-- `dereference`, with its `vassert(!is_end())`. -/
def deref (it : ColumnIterator) : Option UInt64 :=
  if it.isEnd then none else some it.inner.deref

/-- `increment` (the release build, without its `vassert`): past the end of a
    frame, on to the next frame of the snapshot. -/
def increment (ty : IntType) (it : ColumnIterator) : Option ColumnIterator :=
  (it.inner.increment ty).map fun inner =>
    if inner.equal FrameIterator.endIter then ofSnapshot it.pending (it.ixColumn + 1)
    else ⟨it.pending, inner, it.ixColumn + 1⟩

/-- `equal`: the indices, with `-1` for an end iterator. -/
def equal (it other : ColumnIterator) : Bool :=
  (if it.isEnd then -1 else (it.index : Int)) == (if other.isEnd then -1 else (other.index : Int))

/-- The loop `for (auto it = begin(); it != end(); ++it)`, at most `fuel`
    times: the index and the value at each step. -/
def collect (ty : IntType) : Nat → ColumnIterator → Option (List (Nat × UInt64))
  | 0, _ => none
  | fuel + 1, it =>
      if it.equal endIter then some []
      else
        it.deref.bind fun v =>
          (it.increment ty).bind fun next => ((it.index, v) :: ·) <$> collect ty fuel next

end ColumnIterator

/-! ## `deltafor_column` -/

/-- `deltafor_column`: `_frames`. -/
structure DeltaforColumn where
  frames : List DeltaforFrame
deriving DecidableEq, Repr

/-- The transaction of a column: a frame's, or the new frame to splice in. -/
inductive ColumnTx where
  | frame (tx : FrameTx)
  | frames (fs : List DeltaforFrame)
deriving DecidableEq, Repr

namespace DeltaforColumn

variable (ty : IntType) (delta : DeltaStep) (maxFrameSize : Nat)

/-- The test of `append` and `append_tx` for a new frame. -/
def needsFrame (c : DeltaforColumn) : Bool :=
  match c.frames.getLast? with
  | none => true
  | some back => back.size = maxFrameSize

/-- `append`: a new frame when there is none or the last is full, then
    `_frames.back().append(value)`. -/
def append (c : DeltaforColumn) (value : UInt64) : Option DeltaforColumn :=
  let frames := if needsFrame maxFrameSize c then c.frames ++ [DeltaforFrame.empty] else c.frames
  match frames.getLast? with
  | none => none
  | some back => (back.append ty delta value).map fun f => ⟨frames.dropLast ++ [f]⟩

/-- `append_tx`: a new frame goes into the transaction; otherwise the last
    frame's `append_tx`, with no transaction when it needs none. -/
def appendTx (c : DeltaforColumn) (value : UInt64) : Option (DeltaforColumn × Option ColumnTx) :=
  if needsFrame maxFrameSize c then
    (DeltaforFrame.empty.append ty delta value).map fun f => (c, some (.frames [f]))
  else
    match c.frames.getLast? with
    | none => none
    | some back =>
        (back.appendTx ty delta value).map fun res =>
          (⟨c.frames.dropLast ++ [res.1]⟩, res.2.map .frame)

/-- `column_tx_t::commit`: the frame transaction is the last frame's. -/
def commit (c : DeltaforColumn) : ColumnTx → DeltaforColumn
  | .frame tx =>
      match c.frames.getLast? with
      | none => c
      | some back => ⟨c.frames.dropLast ++ [back.commit tx]⟩
  | .frames fs => ⟨c.frames ++ fs⟩

/-- `append_tx`, then `commit` of the transaction when there is one. -/
def appendTxCommit (c : DeltaforColumn) (value : UInt64) : Option DeltaforColumn :=
  (appendTx ty delta maxFrameSize c value).map fun res =>
    match res.2 with
    | none => res.1
    | some tx => res.1.commit tx

/-- `size`. -/
def size (c : DeltaforColumn) : Nat := (c.frames.map DeltaforFrame.size).sum

/-- `begin`: a snapshot of every frame's `begin`. -/
def begin (c : DeltaforColumn) : Option ColumnIterator :=
  (c.frames.mapM (DeltaforFrame.begin ty delta)).map fun snap => ColumnIterator.ofSnapshot snap 0

/-- The loop of `at_index` over the frames, with the index left in the
    frame; `make_snapshot_at` for the frame that holds it. -/
def atIndexGo (index : Nat) : List DeltaforFrame → Nat → Option ColumnIterator
  | [], _ => some ColumnIterator.endIter
  | f :: fs, inner =>
      if f.size ≤ inner then atIndexGo index fs (inner - f.size)
      else
        (f.atIndex ty delta inner).bind fun it =>
          (fs.mapM (DeltaforFrame.begin ty delta)).map fun snap => ⟨snap, it, index⟩

/-- `at_index`. -/
def atIndex (c : DeltaforColumn) (index : Nat) : Option ColumnIterator :=
  atIndexGo ty delta index c.frames index

/-- `last_value`. -/
def lastValue (c : DeltaforColumn) : Option UInt64 :=
  if size c = 0 then none
  else (c.frames.getLast?).bind DeltaforFrame.lastValue

/-- `append` of each value in turn. -/
def appendAll (c : DeltaforColumn) : List UInt64 → Option DeltaforColumn
  | [] => some c
  | v :: vs => (append ty delta maxFrameSize c v).bind fun c => appendAll c vs

/-- A caller's sequence: each value by `append`, or (`true`) by `append_tx`
    and the commit of its transaction. -/
def run (c : DeltaforColumn) : List (UInt64 × Bool) → Option DeltaforColumn
  | [] => some c
  | (v, tx) :: ops =>
      (if tx then appendTxCommit ty delta maxFrameSize c v else append ty delta maxFrameSize c v).bind
        fun c => run c ops

end DeltaforColumn

/-- The two column specialisations: `delta_xor{}` and `delta_delta<value_t>{}`,
    whose step is `0`. -/
inductive ColumnAlg where
  | deltaXor
  | deltaDelta
deriving DecidableEq, Repr

/-- `delta_alg_instance` of a specialisation. -/
def ColumnAlg.instance : ColumnAlg → DeltaStep
  | deltaXor => .xor
  | deltaDelta => .delta 0

end DeltaFor
