import Redpanda.Utils.DeltaForColumn
import Redpanda.Utils.DeltaForRoundTrip
import Redpanda.Lib.Chunks

/-! # `deltafor_column` is a sequence

    * `FrameHolds` says which values a frame holds: full rows, encoded in
      its tail from the frame's first value, and a partial row at the front
      of its head.  `FrameHolds.append` keeps it.
    * `FrameIterAt` says a frame iterator is at index `i`: it holds the row
      of `i`, decoded while the decoder has rows and the head after.
      `FrameIterAt.increment` keeps it, and `FrameIterAt.deref` reads value
      `i`.
    * `ColumnHolds` and `ColIterAt` lift both to the frames of a column.
    * `deltafor_column_sequence`, with
      `int64_delta_delta_column_jump_not_appended`: `append` and
      `append_tx` with `commit` (`appendTxCommit_eq_append`) give a column
      whose size, iteration, `at_index` and `last_value` are those of the
      appended sequence. -/

namespace DeltaFor

open ByteCodec

/-! ## Masks -/

theorem and_indexMask (n : Nat) : n &&& indexMask = n % 16 :=
  Nat.and_two_pow_sub_one_eq_mod n 4

theorem indexMask_and (n : Nat) : indexMask &&& n = n % 16 := by
  rw [Nat.land_comm]
  exact and_indexMask n

theorem toNat_and_indexMask (p : UInt32) :
    (p &&& UInt32.ofNat indexMask).toNat = p.toNat % 16 := by
  rw [UInt32.toNat_and]
  exact and_indexMask p.toNat

/-! ## The sequences a column accepts -/

/-- The values a column of the specialisation takes: any for `delta_xor`;
    for `delta_delta` values in order, each at most `TVal`'s maximum above
    the one before. -/
def ColumnAlg.Accepts (ty : IntType) : ColumnAlg → List UInt64 → Prop
  | deltaXor, _ => True
  | deltaDelta, vs => List.IsChain (ty.DeltaFits 0) vs

instance (ty : IntType) (alg : ColumnAlg) (vs : List UInt64) : Decidable (alg.Accepts ty vs) :=
  match alg with
  | .deltaXor => isTrue trivial
  | .deltaDelta => inferInstanceAs (Decidable (List.IsChain _ _))

theorem ColumnAlg.Accepts.infix {ty : IntType} {alg : ColumnAlg} {vs ws : List UInt64}
    (h : alg.Accepts ty vs) (hws : ws <:+: vs) : alg.Accepts ty ws := by
  cases alg with
  | deltaXor => trivial
  | deltaDelta => exact List.IsChain.infix h hws

/-- A frame's encoder starts from the frame's first value, so the first
    delta is of a value from itself. -/
theorem ColumnAlg.encodes_of_accepts {ty : IntType} {alg : ColumnAlg} {ws : List UInt64}
    (h : alg.Accepts ty ws) : alg.instance.Encodes ty (ws.headD 0) ws := by
  cases alg with
  | deltaXor => trivial
  | deltaDelta =>
      have hzero : ty.toInt 0 = 0 := by cases ty <;> rfl
      refine ⟨by rw [hzero], ?_⟩
      cases ws with
      | nil => exact List.IsChain.singleton 0
      | cons w ws =>
          have hself : ty.DeltaFits 0 w w := by
            have := ty.toInt_range w
            refine ⟨le_refl _, ?_, ?_⟩ <;> simp only [hzero, sub_self] <;> cases ty <;>
              simp [IntType.maxValue]
          exact List.isChain_cons_cons.mpr ⟨hself, h⟩

theorem ColumnAlg.encodes_nil (ty : IntType) (alg : ColumnAlg) (v : UInt64) :
    alg.instance.Encodes ty v [] := by
  cases alg with
  | deltaXor => trivial
  | deltaDelta =>
      have hzero : ty.toInt 0 = 0 := by cases ty <;> rfl
      exact ⟨by rw [hzero], List.IsChain.singleton v⟩

/-! ## What a frame holds -/

/-- The tail of a frame: none before the first full row, then the encoder
    that took the full rows from the frame's first value. -/
def TailHolds (ty : IntType) (delta : DeltaStep) : Option DeltaforEncoder → List (List UInt64) → Prop
  | none, rows => rows = []
  | some e, rows =>
      rows ≠ [] ∧ (DeltaforEncoder.init (rows.flatten.headD 0) delta).addAll ty rows = some e

/-- A frame holds the full rows `rows` and the partial row `part`: its size
    counts them, its head starts with `part` (and keeps the rest of the last
    full row), and its tail encodes the full rows. -/
structure FrameHolds (ty : IntType) (delta : DeltaStep) (f : DeltaforFrame)
    (rows : List (List UInt64)) (part : List UInt64) : Prop where
  width : ∀ r ∈ rows, r.length = rowWidth
  part_lt : part.length < rowWidth
  size_eq : f.size = rowWidth * rows.length + part.length
  head_eq : f.head = part ++ (rows.getLastD (List.replicate rowWidth 0)).drop part.length
  tail : TailHolds ty delta f.tail rows

/-- The full rows and the partial row after one more value. -/
def pushValue (rows : List (List UInt64)) (part : List UInt64) (v : UInt64) :
    List (List UInt64) × List UInt64 :=
  if part.length + 1 = rowWidth then (rows ++ [part ++ [v]], []) else (rows, part ++ [v])

theorem flatten_pushValue (rows : List (List UInt64)) (part : List UInt64) (v : UInt64) :
    (pushValue rows part v).1.flatten ++ (pushValue rows part v).2 = rows.flatten ++ part ++ [v] := by
  unfold pushValue
  split <;> simp

theorem empty_holds (ty : IntType) (delta : DeltaStep) : FrameHolds ty delta DeltaforFrame.empty [] [] :=
  ⟨by simp, by decide, rfl, rfl, rfl⟩

theorem length_getLastD_rows {rows : List (List UInt64)} (h : ∀ r ∈ rows, r.length = rowWidth) :
    (rows.getLastD (List.replicate rowWidth 0)).length = rowWidth := by
  rw [List.getLastD_eq_getLast?]
  cases hlast : rows.getLast? with
  | none => simp
  | some r => exact h r (List.mem_of_getLast? hlast)

/-- Writing the next value of the partial row into the head. -/
theorem set_head {part prev : List UInt64} (hprev : prev.length = rowWidth)
    (hpart : part.length < rowWidth) (v : UInt64) :
    (part ++ prev.drop part.length).set part.length v = part ++ [v] ++ prev.drop (part.length + 1) := by
  have hlt : part.length < prev.length := by omega
  rw [List.set_append_right _ _ (Nat.le_refl _), Nat.sub_self,
    List.drop_eq_getElem_cons hlt, List.set_cons_zero, List.append_assoc]
  rfl

theorem addAll_append (ty : IntType) (e : DeltaforEncoder) (xs ys : List (List UInt64)) :
    e.addAll ty (xs ++ ys) = (e.addAll ty xs).bind fun e => e.addAll ty ys := by
  induction xs generalizing e with
  | nil => rfl
  | cons x xs ih =>
      simp only [List.cons_append, DeltaforEncoder.addAll]
      cases e.add ty x with
      | none => rfl
      | some e' => exact ih e'

/-- An encoder from `v0` takes every row sequence its delta step
    `Encodes`. -/
theorem exists_addAll {ty : IntType} {delta : DeltaStep} {v0 : UInt64} {rows : List (List UInt64)}
    (h : delta.Encodes ty v0 rows.flatten) :
    ∃ e, (DeltaforEncoder.init v0 delta).addAll ty rows = some e := by
  obtain ⟨bs, hbs⟩ := exists_encodeRows ty delta rows v0 h
  rw [addAll_eq]
  exact ⟨_, by rw [show (DeltaforEncoder.init v0 delta).delta = delta from rfl,
    show (DeltaforEncoder.init v0 delta).last = v0 from rfl, hbs, Option.map_some]⟩

/-- The rows an encoder of a column's specialisation took from `v0` are
    rows it `Encodes`: its `add`s passed their `vassert`s. -/
theorem ColumnAlg.encodes_of_addAll {ty : IntType} {alg : ColumnAlg} {v0 : UInt64}
    {rows : List (List UInt64)} {e : DeltaforEncoder}
    (h : (DeltaforEncoder.init v0 alg.instance).addAll ty rows = some e) :
    alg.instance.Encodes ty v0 rows.flatten := by
  cases alg with
  | deltaXor => trivial
  | deltaDelta =>
      rw [addAll_eq] at h
      obtain ⟨bs, hbs, -⟩ := Option.map_eq_some_iff.mp h
      exact encodes_of_encodeRows (by cases ty <;> decide) rows v0 hbs

theorem headD_flatten_append {rows : List (List UInt64)} (h : ∀ r ∈ rows, r.length = rowWidth)
    (hne : rows ≠ []) (more : List UInt64) : (rows.flatten ++ more).headD 0 = rows.flatten.headD 0 := by
  obtain ⟨r, rs, rfl⟩ := List.exists_cons_of_ne_nil hne
  have hr : r.length = rowWidth := h r List.mem_cons_self
  obtain ⟨x, xs, rfl⟩ := List.exists_cons_of_ne_nil (List.ne_nil_of_length_pos (by rw [hr]; decide))
  rfl

section Append

variable {ty : IntType} {delta : DeltaStep} {f : DeltaforFrame} {rows : List (List UInt64)}
  {part : List UInt64}

/-- The tail after a full row: the encoder of the rows before, or a new one
    from the row's first value, takes the row. -/
theorem tail_add (h : FrameHolds ty delta f rows part) (row : List UInt64)
    (hrow : row.length = rowWidth)
    (henc : delta.Encodes ty ((rows ++ [row]).flatten.headD 0) (rows ++ [row]).flatten) :
    ∃ e, (f.tail.getD (DeltaforEncoder.init (row.getD 0 0) delta)).add ty row = some e ∧
      TailHolds ty delta (some e) (rows ++ [row]) := by
  obtain ⟨e', he'⟩ := exists_addAll henc
  have hall := he'
  rw [addAll_append] at hall
  have htail := h.tail
  cases hf : f.tail with
  | none =>
      rw [hf] at htail
      subst htail
      have hfirst : ([] ++ [row]).flatten.headD 0 = row.getD 0 0 := by
        cases row with
        | nil => rfl
        | cons x xs => rfl
      refine ⟨e', ?_, by simp, he'⟩
      rw [hfirst] at hall
      simp only [DeltaforEncoder.addAll, Option.bind_some] at hall
      rw [Option.getD_none]
      cases hadd : (DeltaforEncoder.init (row.getD 0 0) delta).add ty row with
      | none => rw [hadd] at hall; cases hall
      | some e'' => rw [hadd] at hall; simpa using hall
  | some e =>
      rw [hf] at htail
      obtain ⟨hne, hrows⟩ := htail
      have hfirst : (rows ++ [row]).flatten.headD 0 = rows.flatten.headD 0 := by
        rw [List.flatten_append]
        exact headD_flatten_append h.width hne _
      refine ⟨e', ?_, by simp, he'⟩
      rw [hfirst, hrows, Option.bind_some] at hall
      simp only [DeltaforEncoder.addAll] at hall
      rw [Option.getD_some]
      cases hadd : e.add ty row with
      | none => rw [hadd] at hall; cases hall
      | some e'' => rw [hadd] at hall; simpa using hall

/-- The tail after a full row the encoder took: the rows before, and the
    row. -/
theorem tail_add_of_eq_some (h : FrameHolds ty delta f rows part) {row : List UInt64} {e : DeltaforEncoder}
    (hadd : (f.tail.getD (DeltaforEncoder.init (row.getD 0 0) delta)).add ty row = some e) :
    TailHolds ty delta (some e) (rows ++ [row]) := by
  have htail := h.tail
  refine ⟨by simp, ?_⟩
  cases hf : f.tail with
  | none =>
      -- the first full row: a new encoder from its first value
      rw [hf] at htail hadd
      have hnil : rows = [] := htail
      subst hnil
      have hfirst : ([] ++ [row]).flatten.headD 0 = row.getD 0 0 := by
        cases row with
        | nil => rfl
        | cons x xs => rfl
      rw [Option.getD_none] at hadd
      rw [hfirst, List.nil_append, DeltaforEncoder.addAll, hadd, Option.bind_some]
      rfl
  | some e₀ =>
      rw [hf] at htail hadd
      obtain ⟨hne, hrows⟩ := htail
      have hfirst : (rows ++ [row]).flatten.headD 0 = rows.flatten.headD 0 := by
        rw [List.flatten_append]
        exact headD_flatten_append h.width hne _
      rw [Option.getD_some] at hadd
      rw [hfirst, addAll_append, hrows, Option.bind_some, DeltaforEncoder.addAll, hadd, Option.bind_some]
      rfl

/-- A successful `append` keeps what the frame holds, one value further
    on. -/
theorem FrameHolds.append_of_eq_some (h : FrameHolds ty delta f rows part) {v : UInt64} {f' : DeltaforFrame}
    (happ : f.append ty delta v = some f') :
    FrameHolds ty delta f' (pushValue rows part v).1 (pushValue rows part v).2 := by
  have hsize : f.size = 16 * rows.length + part.length := h.size_eq
  have hlt : part.length < 16 := h.part_lt
  have hix : indexMask &&& f.size = part.length := by
    rw [indexMask_and, hsize]
    omega
  have hprev := length_getLastD_rows h.width
  have hhead : f.head.set part.length v =
      part ++ [v] ++ (rows.getLastD (List.replicate rowWidth 0)).drop (part.length + 1) := by
    rw [h.head_eq]
    exact set_head hprev hlt v
  by_cases hfull : part.length + 1 = rowWidth
  · -- the row is full: the head went into the tail
    have hfull' : part.length = 15 := by simpa [rowWidth] using hfull
    have hmask : (f.size + 1) &&& indexMask = 0 := by
      rw [and_indexMask, hsize]
      omega
    have hdrop : (rows.getLastD (List.replicate rowWidth 0)).drop (part.length + 1) = [] :=
      List.drop_eq_nil_of_le (by rw [hprev]; exact Nat.le_of_eq hfull.symm)
    rw [hdrop, List.append_nil] at hhead
    have hrow : (part ++ [v]).length = rowWidth := by simp [hfull]
    simp only [DeltaforFrame.append, hix, hhead, hmask, if_true, Option.map_eq_some_iff] at happ
    obtain ⟨e, hadd, rfl⟩ := happ
    simp only [pushValue, if_pos hfull]
    refine ⟨?_, by decide, ?_, by simp, tail_add_of_eq_some h hadd⟩
    · intro r hr
      rcases List.mem_append.mp hr with hr | hr
      · exact h.width r hr
      · rw [List.mem_singleton.mp hr]
        exact hrow
    · show f.size + 1 = 16 * (rows ++ [part ++ [v]]).length + 0
      simp only [List.length_append, List.length_singleton]
      omega
  · -- the row goes on in the head
    have hmask : ¬(f.size + 1) &&& indexMask = 0 := by
      rw [and_indexMask, hsize]
      simp only [rowWidth] at hfull
      omega
    simp only [DeltaforFrame.append, hix, hmask, if_false, Option.some.injEq] at happ
    subst happ
    simp only [pushValue, if_neg hfull]
    refine ⟨h.width, ?_, ?_, ?_, h.tail⟩
    · simp only [List.length_append, List.length_singleton]
      simp only [rowWidth] at hfull ⊢
      omega
    · show f.size + 1 = 16 * rows.length + (part ++ [v]).length
      simp only [List.length_append, List.length_singleton]
      omega
    · rw [hhead, List.length_append, List.length_singleton]

/-- `append` of a value the rows `Encodes` succeeds, and keeps what the
    frame holds, one value further on. -/
theorem FrameHolds.append (h : FrameHolds ty delta f rows part) (v : UInt64)
    (henc : delta.Encodes ty ((rows.flatten ++ part ++ [v]).headD 0) (rows.flatten ++ part ++ [v])) :
    ∃ f', f.append ty delta v = some f' ∧
      FrameHolds ty delta f' (pushValue rows part v).1 (pushValue rows part v).2 := by
  have hsize : f.size = 16 * rows.length + part.length := h.size_eq
  have hlt : part.length < 16 := h.part_lt
  have hix : indexMask &&& f.size = part.length := by
    rw [indexMask_and, hsize]
    omega
  obtain ⟨f', happ⟩ : ∃ f', f.append ty delta v = some f' := by
    by_cases hmask : (f.size + 1) &&& indexMask = 0
    · -- the row is full: the encoder takes it, as the values fit
      have hfull : part.length + 1 = rowWidth := by
        rw [and_indexMask, hsize] at hmask
        simp only [rowWidth]
        omega
      have hhead : f.head.set part.length v = part ++ [v] := by
        rw [h.head_eq, set_head (length_getLastD_rows h.width) hlt v,
          List.drop_eq_nil_of_le (by rw [length_getLastD_rows h.width]; exact Nat.le_of_eq hfull.symm),
          List.append_nil]
      have henc' : delta.Encodes ty ((rows ++ [part ++ [v]]).flatten.headD 0)
          (rows ++ [part ++ [v]]).flatten := by
        have hsplit : (rows ++ [part ++ [v]]).flatten = rows.flatten ++ part ++ [v] := by simp
        rw [hsplit]
        exact henc
      obtain ⟨e, hadd, -⟩ := tail_add h (part ++ [v]) (by simp [hfull]) henc'
      exact ⟨⟨part ++ [v], some e, f.size + 1⟩,
        by simp only [DeltaforFrame.append, hix, hhead, hmask, if_true, hadd, Option.map_some]⟩
    · exact ⟨⟨f.head.set (indexMask &&& f.size) v, f.tail, f.size + 1⟩,
        by simp only [DeltaforFrame.append, hmask, if_false]⟩
  exact ⟨f', happ, h.append_of_eq_some happ⟩

end Append

/-! ## Reading a value back -/

theorem length_flatten_rows {rows : List (List UInt64)} (h : ∀ r ∈ rows, r.length = rowWidth) :
    rows.flatten.length = rowWidth * rows.length := by
  induction rows with
  | nil => rfl
  | cons r rows ih =>
      rw [List.flatten_cons, List.length_append, h r List.mem_cons_self,
        ih fun r' hr' => h r' (List.mem_cons_of_mem r hr'), List.length_cons, Nat.mul_succ,
        Nat.add_comm]

theorem chunked_rows {rows : List (List UInt64)} (h : ∀ r ∈ rows, r.length = rowWidth) :
    Chunks.Chunked rowWidth rows :=
  ⟨fun r hr => h r (List.mem_of_mem_dropLast hr), fun r hr => Nat.le_of_eq (h r hr)⟩

/-- The buffer a reader holds at index `i` (row `i / 16` while there is one,
    and the head after) has value `i` at `i % 16`, when the head starts with
    the partial row. -/
theorem getD_row {rows : List (List UInt64)} {part head : List UInt64}
    (hw : ∀ r ∈ rows, r.length = rowWidth) (hpart : part.length < rowWidth) (hhead : part <+: head)
    {i : Nat} (hi : i < rowWidth * rows.length + part.length) :
    some (((rows[i / rowWidth]?).getD head).getD (i % rowWidth) 0) = (rows.flatten ++ part)[i]? := by
  have hlen := length_flatten_rows hw
  by_cases hrow : i < rowWidth * rows.length
  · -- a full row, read through the chunks of the flattened rows
    have hdiv : i / rowWidth < rows.length := by
      rw [Nat.div_lt_iff_lt_mul (by decide), Nat.mul_comm]
      exact hrow
    have hmod : i % rowWidth < rows[i / rowWidth].length := by
      rw [hw _ (List.getElem_mem hdiv)]
      exact Nat.mod_lt _ (by decide)
    rw [List.getElem?_append_left (by rw [hlen]; exact hrow),
      Chunks.getElem?_flatten_chunks (by decide) (chunked_rows hw), List.getElem?_eq_getElem hdiv,
      Option.getD_some, Option.bind_some, List.getD_eq_getElem?_getD, List.getElem?_eq_getElem hmod,
      Option.getD_some]
  · -- past the full rows: the partial row at the front of the head
    have hdiv : i / rowWidth = rows.length := by
      simp only [rowWidth] at hi hrow hpart ⊢
      omega
    have hmod : i % rowWidth = i - rowWidth * rows.length := by
      simp only [rowWidth] at hi hrow hpart ⊢
      omega
    have hk : i - rowWidth * rows.length < part.length := by omega
    obtain ⟨more, rfl⟩ := hhead
    rw [hdiv, List.getElem?_eq_none (Nat.le_refl _), Option.getD_none,
      List.getElem?_append_right (by rw [hlen]; omega), hlen, ← hmod, List.getD_eq_getElem?_getD,
      List.getElem?_append_left (by rw [hmod]; exact hk), List.getElem?_eq_getElem (by rw [hmod]; exact hk),
      Option.getD_some]

/-! ## The frame iterator -/

/-- A frame iterator at index `i` of a frame that holds the full rows `rows`
    and the partial row `part`: it holds the row of `i` (the head once past
    the full rows), and its decoder is about to read the rows after it. -/
structure FrameIterAt (ty : IntType) (it : FrameIterator) (rows : List (List UInt64))
    (part : List UInt64) (i : Nat) : Prop where
  width : ∀ r ∈ rows, r.length = rowWidth
  part_lt : part.length < rowWidth
  head : part <+: it.head
  size_eq : it.size.toNat = rowWidth * rows.length + part.length
  pos_eq : it.pos.toNat = i
  le_size : i ≤ rowWidth * rows.length + part.length
  decoder : ∃ d, it.decoder = some d ∧ DecoderAt ty d (rows.drop (i / rowWidth + 1))
  readBuf_eq : it.readBuf = (rows[i / rowWidth]?).getD it.head

namespace FrameIterAt

variable {ty : IntType} {it : FrameIterator} {rows : List (List UInt64)} {part : List UInt64}
  {i : Nat}

/-- `dereference` reads value `i`. -/
theorem deref (h : FrameIterAt ty it rows part i) (hi : i < rowWidth * rows.length + part.length) :
    some it.deref = (rows.flatten ++ part)[i]? := by
  rw [FrameIterator.deref, toNat_and_indexMask, h.pos_eq, h.readBuf_eq]
  exact getD_row h.width h.part_lt h.head hi

/-- The iterator equals the end iterator exactly at the end of the frame. -/
theorem equal_endIter (h : FrameIterAt ty it rows part i) :
    it.equal FrameIterator.endIter = decide (i = rowWidth * rows.length + part.length) := by
  have hend : FrameIterator.endIter.pos = FrameIterator.endIter.size := rfl
  rw [FrameIterator.equal, if_pos hend]
  simp only [← UInt32.toNat_inj, h.pos_eq, h.size_eq]

/-- `increment` moves the iterator to index `i + 1`: at a row boundary the
    decoder gives the next row, or `false` and the head. -/
theorem increment (h : FrameIterAt ty it rows part i) (hi : i < rowWidth * rows.length + part.length) :
    ∃ it', it.increment ty = some it' ∧ FrameIterAt ty it' rows part (i + 1) := by
  have hpos : (it.pos + 1).toNat = i + 1 := by
    have hsize := it.size.toNat_lt
    rw [h.size_eq] at hsize
    rw [UInt32.toNat_add, UInt32.toNat_one, h.pos_eq]
    omega
  obtain ⟨d, hd, hat⟩ := h.decoder
  by_cases hrow : (i + 1) % rowWidth = 0
  · -- a row boundary
    have hmask : (it.pos + 1) &&& UInt32.ofNat indexMask = 0 :=
      UInt32.toNat_inj.mp (by rw [toNat_and_indexMask, hpos]; exact hrow)
    have hnext : (i + 1) / rowWidth = i / rowWidth + 1 := by
      simp only [rowWidth] at hrow ⊢
      omega
    cases hdrop : rows.drop (i / rowWidth + 1) with
    | nil =>
        -- the decoder has no row left: the head
        rw [hdrop] at hat
        have hlen : rows.length ≤ i / rowWidth + 1 := List.drop_eq_nil_iff.mp hdrop
        refine ⟨{ it with readBuf := it.head, pos := it.pos + 1 }, ?_, ?_⟩
        · simp only [FrameIterator.increment, hmask, if_true, hd, hat.read_nil, Option.map_some]
          rfl
        · refine ⟨h.width, h.part_lt, h.head, h.size_eq, hpos, by omega, ⟨d, hd, ?_⟩, ?_⟩
          · rw [hnext, List.drop_eq_nil_of_le (by omega)]
            exact hat
          · rw [hnext, List.getElem?_eq_none hlen, Option.getD_none]
    | cons r rest =>
        -- the decoder reads the next row
        rw [hdrop] at hat
        obtain ⟨d', hread, hat', -⟩ := hat.read_cons (List.replicate rowWidth 0)
        refine ⟨{ it with readBuf := r, decoder := some d', pos := it.pos + 1 }, ?_, ?_⟩
        · simp only [FrameIterator.increment, hmask, if_true, hd, hread, Option.map_some]
        · refine ⟨h.width, h.part_lt, h.head, h.size_eq, hpos, by omega, ⟨d', rfl, ?_⟩, ?_⟩
          · rw [hnext, ← List.drop_drop, hdrop]
            exact hat'
          · have hget : rows[i / rowWidth + 1]? = some r := by
              rw [← Nat.add_zero (i / rowWidth + 1), ← List.getElem?_drop, hdrop]
              rfl
            rw [hnext, hget, Option.getD_some]
  · -- inside a row
    have hmask : ¬(it.pos + 1) &&& UInt32.ofNat indexMask = 0 := fun heq =>
      hrow (show (i + 1) % 16 = 0 by rw [← hpos, ← toNat_and_indexMask, heq]; rfl)
    have hnext : (i + 1) / rowWidth = i / rowWidth := by
      simp only [rowWidth] at hrow ⊢
      omega
    refine ⟨{ it with pos := it.pos + 1 }, by simp only [FrameIterator.increment, if_neg hmask], ?_⟩
    refine ⟨h.width, h.part_lt, h.head, h.size_eq, hpos, by omega, ?_, ?_⟩
    · rw [hnext]
      exact ⟨d, hd, hat⟩
    · rw [hnext]
      exact h.readBuf_eq

/-- `std::advance` by `k` moves the iterator `k` indices on, up to the end. -/
theorem advance (k : Nat) (h : FrameIterAt ty it rows part i)
    (hk : i + k ≤ rowWidth * rows.length + part.length) :
    ∃ it', it.advance ty k = some it' ∧ FrameIterAt ty it' rows part (i + k) := by
  induction k generalizing it i with
  | zero => exact ⟨it, rfl, h⟩
  | succ k ih =>
      obtain ⟨it₁, hinc, h₁⟩ := h.increment (by omega)
      obtain ⟨it', hadv, h'⟩ := ih h₁ (by omega)
      refine ⟨it', by rw [FrameIterator.advance, hinc, Option.bind_some, hadv], ?_⟩
      rw [← Nat.add_assoc, Nat.add_right_comm]
      exact h'

end FrameIterAt

/-! ## A frame's `begin`, `at_index` and `last_value` -/

/-- The decoder over a tail that took `rows` is about to read them. -/
theorem decoderAt_tail {ty : IntType} {delta : DeltaStep} {e : DeltaforEncoder}
    {rows : List (List UInt64)} (hw : ∀ r ∈ rows, r.length = rowWidth) (hcount : rows.length < 2 ^ 32)
    (henc : delta.Encodes ty (rows.flatten.headD 0) rows.flatten)
    (hall : (DeltaforEncoder.init (rows.flatten.headD 0) delta).addAll ty rows = some e) :
    DecoderAt ty (DeltaforDecoder.init e.initial e.getRowCount e.copy delta) rows := by
  obtain ⟨bs, hbs⟩ := exists_encodeRows ty delta rows _ henc
  rw [addAll_eq, show (DeltaforEncoder.init (rows.flatten.headD 0) delta).delta = delta from rfl,
    show (DeltaforEncoder.init (rows.flatten.headD 0) delta).last = rows.flatten.headD 0 from rfl,
    hbs, Option.map_some, Option.some.injEq] at hall
  subst hall
  exact decoderAt_init hw hcount henc hbs

section Frame

variable {ty : IntType} {delta : DeltaStep} {f : DeltaforFrame} {rows : List (List UInt64)}
  {part : List UInt64}

theorem FrameHolds.size_eq_length (h : FrameHolds ty delta f rows part) :
    f.size = (rows.flatten ++ part).length := by
  rw [List.length_append, length_flatten_rows h.width, h.size_eq]

/-- `begin` of a non-empty frame, whose size fits the iterator's `uint32_t`,
    is at index `0`. -/
theorem FrameHolds.begin (h : FrameHolds ty delta f rows part) (hlt : f.size < 2 ^ 32)
    (hpos : 0 < f.size) (henc : delta.Encodes ty (rows.flatten.headD 0) rows.flatten) :
    ∃ it, f.begin ty delta = some it ∧ FrameIterAt ty it rows part 0 := by
  have hsize : (UInt32.ofNat f.size).toNat = rowWidth * rows.length + part.length := by
    rw [UInt32.toNat_ofNat', Nat.mod_eq_of_lt hlt, h.size_eq]
  have hhead : part <+: f.head := ⟨_, h.head_eq.symm⟩
  have htail := h.tail
  cases hf : f.tail with
  | none =>
      -- only the head holds values: a decoder over nothing
      rw [hf] at htail
      subst htail
      have hat : DecoderAt ty (DeltaforDecoder.init 0 0 [] delta) [] := ⟨by simp, henc, rfl, rfl⟩
      refine ⟨⟨f.head, f.head, some (DeltaforDecoder.init 0 0 [] delta), 0, UInt32.ofNat f.size⟩,
        ?_, ⟨h.width, h.part_lt, hhead, hsize, rfl, Nat.zero_le _, ⟨_, rfl, hat⟩, rfl⟩⟩
      simp only [DeltaforFrame.begin, hf, ne_eq, Nat.pos_iff_ne_zero.mp hpos, not_false_eq_true,
        if_true, FrameIterator.create, hat.read_nil, Option.map_some]
      rfl
  | some e =>
      -- the tail's first row
      rw [hf] at htail
      obtain ⟨hne, hall⟩ := htail
      have hcount : rows.length < 2 ^ 32 := by
        have := h.size_eq
        simp only [rowWidth] at this
        omega
      have hat := decoderAt_tail h.width hcount henc hall
      obtain ⟨r, rest, rfl⟩ := List.exists_cons_of_ne_nil hne
      obtain ⟨d', hread, hat', -⟩ := hat.read_cons (List.replicate rowWidth 0)
      refine ⟨⟨r, f.head, some d', 0, UInt32.ofNat f.size⟩, ?_,
        ⟨h.width, h.part_lt, hhead, hsize, rfl, Nat.zero_le _, ⟨d', rfl, hat'⟩, rfl⟩⟩
      simp only [DeltaforFrame.begin, hf, FrameIterator.create, hread, Option.map_some]
      rfl

/-- `at_index` inside a frame is the iterator at that index. -/
theorem FrameHolds.atIndex (h : FrameHolds ty delta f rows part) (hlt : f.size < 2 ^ 32)
    (henc : delta.Encodes ty (rows.flatten.headD 0) rows.flatten) {index : Nat} (hidx : index < f.size) :
    ∃ it, f.atIndex ty delta index = some it ∧ FrameIterAt ty it rows part index := by
  obtain ⟨it₀, hbegin, h₀⟩ := h.begin hlt (by omega) henc
  obtain ⟨it, hadv, hat⟩ := h₀.advance index (by rw [← h.size_eq]; omega)
  refine ⟨it, ?_, by rw [Nat.zero_add] at hat; exact hat⟩
  rw [DeltaforFrame.atIndex, if_neg (Nat.not_le.mpr hidx), hbegin, Option.bind_some, hadv]

/-- `last_value` is the last value the frame holds. -/
theorem FrameHolds.lastValue (h : FrameHolds ty delta f rows part) :
    f.lastValue = (rows.flatten ++ part).getLast? := by
  rw [List.getLast?_eq_getElem?, ← h.size_eq_length]
  by_cases h0 : f.size = 0
  · rw [DeltaforFrame.lastValue, if_pos h0, h0, Nat.zero_sub, List.getElem?_eq_none]
    rw [← h.size_eq_length, h0]
  · -- the head holds the last value at `(size - 1) & index_mask`
    have hsize := h.size_eq
    have hbuf : (rows[(f.size - 1) / rowWidth]?).getD f.head = f.head := by
      by_cases hpart : part = []
      · subst hpart
        have hidx : (f.size - 1) / rowWidth = rows.length - 1 := by
          simp only [rowWidth, List.length_nil, Nat.add_zero] at hsize ⊢
          omega
        rw [hidx, h.head_eq, List.nil_append, List.length_nil, List.drop_zero,
          List.getLastD_eq_getLast?, List.getLast?_eq_getElem?]
        cases rows[rows.length - 1]? <;> rfl
      · have hidx : (f.size - 1) / rowWidth = rows.length := by
          have := List.length_pos_iff.mpr hpart
          have := h.part_lt
          simp only [rowWidth] at hsize this ⊢
          omega
        rw [hidx, List.getElem?_eq_none (Nat.le_refl _), Option.getD_none]
    rw [DeltaforFrame.lastValue, if_neg h0, and_indexMask, ← hbuf]
    exact getD_row h.width h.part_lt ⟨_, h.head_eq.symm⟩ (by rw [← h.size_eq]; omega)

end Frame

/-! ## What a column holds -/

/-- The values of a frame that holds the full rows `p.1` and the partial
    row `p.2`. -/
def frameValues (p : List (List UInt64) × List UInt64) : List UInt64 := p.1.flatten ++ p.2

/-- The values of a column whose frames hold `fr`, in order. -/
def columnValues (fr : List (List (List UInt64) × List UInt64)) : List UInt64 :=
  (fr.map frameValues).flatten

@[simp] theorem columnValues_nil : columnValues [] = [] := rfl

@[simp] theorem columnValues_append (fr fr' : List (List (List UInt64) × List UInt64)) :
    columnValues (fr ++ fr') = columnValues fr ++ columnValues fr' := by
  simp [columnValues]

@[simp] theorem columnValues_cons (p : List (List UInt64) × List UInt64)
    (fr : List (List (List UInt64) × List UInt64)) :
    columnValues (p :: fr) = frameValues p ++ columnValues fr := rfl

theorem frameValues_pushValue (p : List (List UInt64) × List UInt64) (v : UInt64) :
    frameValues (pushValue p.1 p.2 v) = frameValues p ++ [v] :=
  flatten_pushValue p.1 p.2 v

/-- A column of the specialisation `alg` holds the frames `fr`: each frame
    holds its values, none is empty or over `max_frame_size` values, and the
    specialisation accepts the values in order. -/
structure ColumnHolds (ty : IntType) (alg : ColumnAlg) (maxFrameSize : Nat) (c : DeltaforColumn)
    (fr : List (List (List UInt64) × List UInt64)) : Prop where
  frames : List.Forall₂ (fun f p => FrameHolds ty alg.instance f p.1 p.2) c.frames fr
  nonempty : ∀ p ∈ fr, frameValues p ≠ []
  le_max : ∀ p ∈ fr, (frameValues p).length ≤ maxFrameSize
  accepts : alg.Accepts ty (columnValues fr)

/-- What every column that successful `append`s (and `prefix_truncate_ix`s)
    reach keeps, whatever its values: each frame holds its values, and none
    is empty or over `max_frame_size` values.  Unlike `ColumnHolds` it asks
    nothing of how a frame's values follow the frame before. -/
structure FramesHold (ty : IntType) (alg : ColumnAlg) (maxFrameSize : Nat) (c : DeltaforColumn)
    (fr : List (List (List UInt64) × List UInt64)) : Prop where
  frames : List.Forall₂ (fun f p => FrameHolds ty alg.instance f p.1 p.2) c.frames fr
  nonempty : ∀ p ∈ fr, frameValues p ≠ []
  le_max : ∀ p ∈ fr, (frameValues p).length ≤ maxFrameSize

theorem ColumnHolds.toFramesHold {ty : IntType} {alg : ColumnAlg} {maxFrameSize : Nat} {c : DeltaforColumn}
    {fr : List (List (List UInt64) × List UInt64)} (h : ColumnHolds ty alg maxFrameSize c fr) :
    FramesHold ty alg maxFrameSize c fr :=
  ⟨h.frames, h.nonempty, h.le_max⟩

theorem forall₂_concat_left {α β : Type} {R : α → β → Prop} {l : List α} {a : α} {ys : List β}
    (h : List.Forall₂ R (l ++ [a]) ys) : ∃ ys' b, ys = ys' ++ [b] ∧ List.Forall₂ R l ys' ∧ R a b := by
  induction l generalizing ys with
  | nil =>
      obtain ⟨b, ys', hab, hnil, rfl⟩ := List.forall₂_cons_left_iff.mp h
      rw [List.forall₂_nil_left_iff.mp hnil]
      exact ⟨[], b, rfl, .nil, hab⟩
  | cons x l ih =>
      obtain ⟨y, ys₁, hxy, hrest, rfl⟩ := List.forall₂_cons_left_iff.mp h
      obtain ⟨ys', b, rfl, hl, hab⟩ := ih hrest
      exact ⟨y :: ys', b, rfl, .cons hxy hl, hab⟩

section Column

variable {ty : IntType} {alg : ColumnAlg} {maxFrameSize : Nat}

theorem ColumnAlg.accepts_nil (ty : IntType) (alg : ColumnAlg) : alg.Accepts ty [] := by
  cases alg with
  | deltaXor => trivial
  | deltaDelta => exact List.IsChain.nil

theorem columnHolds_empty : ColumnHolds ty alg maxFrameSize ⟨[]⟩ [] :=
  ⟨.nil, by simp, by simp, ColumnAlg.accepts_nil ty alg⟩

theorem framesHold_empty : FramesHold ty alg maxFrameSize ⟨[]⟩ [] :=
  ⟨.nil, by simp, by simp⟩

/-- A successful `append` keeps what the frames hold, with the value at the
    end. -/
theorem FramesHold.append_of_eq_some {c c' : DeltaforColumn} {fr : List (List (List UInt64) × List UInt64)}
    (h : FramesHold ty alg maxFrameSize c fr) (hpos : 0 < maxFrameSize) {v : UInt64}
    (happ : c.append ty alg.instance maxFrameSize v = some c') :
    ∃ fr', FramesHold ty alg maxFrameSize c' fr' ∧ columnValues fr' = columnValues fr ++ [v] := by
  cases hneed : DeltaforColumn.needsFrame maxFrameSize c with
  | true =>
      -- a new frame took the value
      simp only [DeltaforColumn.append, hneed, if_true, List.getLast?_concat, List.dropLast_concat,
        Option.map_eq_some_iff] at happ
      obtain ⟨f', happ', rfl⟩ := happ
      have hf' := (empty_holds ty alg.instance).append_of_eq_some happ'
      have hpush : pushValue [] [] v = ([], [v]) := by simp [pushValue, rowWidth]
      rw [hpush] at hf'
      refine ⟨fr ++ [([], [v])], ⟨List.rel_append h.frames (.cons hf' .nil), ?_, ?_⟩, by simp [frameValues]⟩
      · intro p hp
        rcases List.mem_append.mp hp with hp | hp
        · exact h.nonempty p hp
        · rw [List.mem_singleton.mp hp]
          simp [frameValues]
      · intro p hp
        rcases List.mem_append.mp hp with hp | hp
        · exact h.le_max p hp
        · rw [List.mem_singleton.mp hp]
          exact hpos
  | false =>
      -- the last frame, not full, took the value
      cases hlast : c.frames.getLast? with
      | none => simp [DeltaforColumn.needsFrame, hlast] at hneed
      | some back =>
          have hsize : back.size ≠ maxFrameSize := by
            simpa [DeltaforColumn.needsFrame, hlast] using hneed
          simp only [DeltaforColumn.append, hneed, Bool.false_eq_true, if_false, hlast,
            Option.map_eq_some_iff] at happ
          obtain ⟨f', happ', rfl⟩ := happ
          have hframes := h.frames
          rw [(List.dropLast_append_getLast? back hlast).symm] at hframes
          obtain ⟨fr₀, p, rfl, hfr₀, hback⟩ := forall₂_concat_left hframes
          have hlen : (frameValues p).length = back.size := hback.size_eq_length.symm
          have hle := h.le_max p (List.mem_append_right _ List.mem_cons_self)
          rw [hlen] at hle
          have hf' := hback.append_of_eq_some happ'
          refine ⟨fr₀ ++ [pushValue p.1 p.2 v], ⟨List.rel_append hfr₀ (.cons hf' .nil), ?_, ?_⟩, ?_⟩
          · intro q hq
            rcases List.mem_append.mp hq with hq | hq
            · exact h.nonempty q (List.mem_append_left _ hq)
            · rw [List.mem_singleton.mp hq, frameValues_pushValue]
              simp
          · intro q hq
            rcases List.mem_append.mp hq with hq | hq
            · exact h.le_max q (List.mem_append_left _ hq)
            · rw [List.mem_singleton.mp hq, frameValues_pushValue, List.length_append,
                List.length_singleton, hlen]
              omega
          · simp [frameValues_pushValue]

/-- `append` of a value the specialisation accepts after the column's
    succeeds, and keeps what the column holds, with the value at the end. -/
theorem ColumnHolds.append {c : DeltaforColumn} {fr : List (List (List UInt64) × List UInt64)}
    (h : ColumnHolds ty alg maxFrameSize c fr) (hpos : 0 < maxFrameSize) (v : UInt64)
    (hacc : alg.Accepts ty (columnValues fr ++ [v])) :
    ∃ c' fr', c.append ty alg.instance maxFrameSize v = some c' ∧
      ColumnHolds ty alg maxFrameSize c' fr' ∧ columnValues fr' = columnValues fr ++ [v] := by
  obtain ⟨c', happ⟩ : ∃ c', c.append ty alg.instance maxFrameSize v = some c' := by
    cases hneed : DeltaforColumn.needsFrame maxFrameSize c with
    | true =>
        -- a new frame takes the value
        have hv : alg.Accepts ty [v] := hacc.infix (List.infix_append' _ _ [])
        obtain ⟨f', happ, -⟩ := (empty_holds ty alg.instance).append v (ColumnAlg.encodes_of_accepts hv)
        exact ⟨⟨c.frames ++ [f']⟩, by simp only [DeltaforColumn.append, hneed, if_true,
          List.getLast?_concat, happ, Option.map_some, List.dropLast_concat]⟩
    | false =>
        -- the last frame takes it: its values and the value are accepted
        cases hlast : c.frames.getLast? with
        | none => simp [DeltaforColumn.needsFrame, hlast] at hneed
        | some back =>
            have hframes := h.frames
            rw [(List.dropLast_append_getLast? back hlast).symm] at hframes
            obtain ⟨fr₀, p, rfl, -, hback⟩ := forall₂_concat_left hframes
            have hacc' : alg.Accepts ty (frameValues p ++ [v]) := by
              refine hacc.infix ⟨columnValues fr₀, [], ?_⟩
              simp
            obtain ⟨f', happ, -⟩ := hback.append v (ColumnAlg.encodes_of_accepts hacc')
            exact ⟨⟨c.frames.dropLast ++ [f']⟩, by simp only [DeltaforColumn.append, hneed,
              Bool.false_eq_true, if_false, hlast, happ, Option.map_some]⟩
  obtain ⟨fr', hf', hvals⟩ := h.toFramesHold.append_of_eq_some hpos happ
  exact ⟨c', fr', happ, ⟨hf'.frames, hf'.nonempty, hf'.le_max, by rw [hvals]; exact hacc⟩, hvals⟩

/-- `append` of each value in turn keeps what the column holds. -/
theorem ColumnHolds.appendAll (hpos : 0 < maxFrameSize) (vs : List UInt64) {c : DeltaforColumn}
    {fr : List (List (List UInt64) × List UInt64)} (h : ColumnHolds ty alg maxFrameSize c fr)
    (hacc : alg.Accepts ty (columnValues fr ++ vs)) :
    ∃ c' fr', c.appendAll ty alg.instance maxFrameSize vs = some c' ∧
      ColumnHolds ty alg maxFrameSize c' fr' ∧ columnValues fr' = columnValues fr ++ vs := by
  induction vs generalizing c fr with
  | nil => exact ⟨c, fr, rfl, h, by simp⟩
  | cons v vs ih =>
      have hv : alg.Accepts ty (columnValues fr ++ [v]) :=
        hacc.infix ⟨[], vs, by simp⟩
      obtain ⟨c₁, fr₁, happ, h₁, hvals₁⟩ := h.append hpos v hv
      obtain ⟨c', fr', hall, h', hvals'⟩ := ih h₁ (by rw [hvals₁]; simpa using hacc)
      refine ⟨c', fr', by rw [DeltaforColumn.appendAll, happ, Option.bind_some, hall], h', ?_⟩
      rw [hvals', hvals₁]
      simp

end Column

/-! ## Reading a column -/

/-- A frame ready to be read: it holds `p`, it is not empty, its size fits
    the iterator's `uint32_t`, and its delta step encodes its full rows. -/
structure FrameReady (ty : IntType) (delta : DeltaStep) (f : DeltaforFrame)
    (p : List (List UInt64) × List UInt64) : Prop where
  holds : FrameHolds ty delta f p.1 p.2
  size_lt : f.size < 2 ^ 32
  size_pos : 0 < f.size
  encodes : delta.Encodes ty (p.1.flatten.headD 0) p.1.flatten

/-- The full rows of a frame are rows its specialisation `Encodes`: the
    tail took them. -/
theorem FrameHolds.encodes_rows {ty : IntType} {alg : ColumnAlg} {f : DeltaforFrame}
    {rows : List (List UInt64)} {part : List UInt64} (h : FrameHolds ty alg.instance f rows part) :
    alg.instance.Encodes ty (rows.flatten.headD 0) rows.flatten := by
  have htail := h.tail
  cases hf : f.tail with
  | none =>
      rw [hf] at htail
      have hnil : rows = [] := htail
      rw [hnil, List.flatten_nil]
      exact ColumnAlg.encodes_nil ty alg _
  | some e =>
      rw [hf] at htail
      exact ColumnAlg.encodes_of_addAll htail.2

/-- A frame that holds values, fewer than `2 ^ 32`, is ready to be read. -/
theorem FrameReady.of_holds {ty : IntType} {alg : ColumnAlg} {f : DeltaforFrame}
    {p : List (List UInt64) × List UInt64} (h : FrameHolds ty alg.instance f p.1 p.2)
    (hne : frameValues p ≠ []) (hlt : (frameValues p).length < 2 ^ 32) : FrameReady ty alg.instance f p := by
  have hlen : f.size = (frameValues p).length := h.size_eq_length
  exact ⟨h, by omega, by rw [hlen]; exact List.length_pos_iff.mpr hne, h.encodes_rows⟩

section Read

variable {ty : IntType} {alg : ColumnAlg} {maxFrameSize : Nat} {delta : DeltaStep}

/-- Every frame of a column with at most `max_frame_size < 2 ^ 32` values a
    frame is ready to be read. -/
theorem FramesHold.ready {c : DeltaforColumn} {fr : List (List (List UInt64) × List UInt64)}
    (h : FramesHold ty alg maxFrameSize c fr) (hmax : maxFrameSize < 2 ^ 32) :
    List.Forall₂ (FrameReady ty alg.instance) c.frames fr := by
  have hall : ∀ p ∈ fr, frameValues p ≠ [] ∧ (frameValues p).length < 2 ^ 32 := fun p hp =>
    ⟨h.nonempty p hp, Nat.lt_of_le_of_lt (h.le_max p hp) hmax⟩
  have hframes := h.frames
  generalize c.frames = fs at hframes ⊢
  clear h
  induction hframes with
  | nil => exact .nil
  | cons hf _ ih =>
      obtain ⟨hne, hlt⟩ := hall _ List.mem_cons_self
      exact .cons (FrameReady.of_holds hf hne hlt) (ih fun q hq => hall q (List.mem_cons_of_mem _ hq))

theorem ColumnHolds.ready {c : DeltaforColumn} {fr : List (List (List UInt64) × List UInt64)}
    (h : ColumnHolds ty alg maxFrameSize c fr) (hmax : maxFrameSize < 2 ^ 32) :
    List.Forall₂ (FrameReady ty alg.instance) c.frames fr :=
  h.toFramesHold.ready hmax

/-- The snapshot of every frame's `begin`. -/
theorem mapM_begin {fs : List DeltaforFrame} {frs : List (List (List UInt64) × List UInt64)}
    (h : List.Forall₂ (FrameReady ty delta) fs frs) :
    ∃ snap, fs.mapM (DeltaforFrame.begin ty delta) = some snap ∧
      List.Forall₂ (fun it p => FrameIterAt ty it p.1 p.2 0) snap frs := by
  induction h with
  | nil => exact ⟨[], rfl, .nil⟩
  | cons hf _ ih =>
      obtain ⟨it, hbegin, hit⟩ := hf.holds.begin hf.size_lt hf.size_pos hf.encodes
      obtain ⟨snap, hsnap, hrest⟩ := ih
      exact ⟨it :: snap, by simp [hbegin, hsnap], .cons hit hrest⟩

end Read

/-! ## The column iterator -/

theorem ColumnIterator.isEnd_endIter : ColumnIterator.endIter.isEnd = true := by decide

/-- Comparing with `end()` asks whether the iterator is at the end. -/
theorem ColumnIterator.equal_endIter (it : ColumnIterator) :
    it.equal ColumnIterator.endIter = it.isEnd := by
  cases hend : it.isEnd with
  | true => simp [ColumnIterator.equal, hend, isEnd_endIter]
  | false =>
      -- an index is never `-1`
      simp [ColumnIterator.equal, hend, isEnd_endIter]

/-- A column iterator at global index `g` of a column whose frames hold
    `fr`: inside frame `p` at index `i`, after the frames `pre`, with the
    `begin` iterators of the frames `post` to come; or at the end. -/
inductive ColIterAt (ty : IntType) (fr : List (List (List UInt64) × List UInt64))
    (it : ColumnIterator) (g : Nat) : Prop where
  | inFrame (pre post : List (List (List UInt64) × List UInt64)) (p : List (List UInt64) × List UInt64)
      (i : Nat) (hfr : fr = pre ++ p :: post) (hinner : FrameIterAt ty it.inner p.1 p.2 i)
      (hi : i < (frameValues p).length)
      (hpending : List.Forall₂ (fun it q => FrameIterAt ty it q.1 q.2 0) it.pending post)
      (hg : g = (columnValues pre).length + i) (hix : it.ixColumn = g)
  | atEnd (hend : it.isEnd = true) (hg : g = (columnValues fr).length)

namespace ColIterAt

variable {ty : IntType} {fr : List (List (List UInt64) × List UInt64)} {it : ColumnIterator}
  {g : Nat}

theorem length_frameValues {it : FrameIterator} {p : List (List UInt64) × List UInt64} {i : Nat}
    (h : FrameIterAt ty it p.1 p.2 i) : (frameValues p).length = rowWidth * p.1.length + p.2.length := by
  rw [frameValues, List.length_append, length_flatten_rows h.width]

/-- The iterator is at the end exactly past the last value. -/
theorem isEnd_eq (h : ColIterAt ty fr it g) : it.isEnd = decide (g = (columnValues fr).length) := by
  cases h with
  | inFrame pre post p i hfr hinner hi _ hg _ =>
      have hlen : (columnValues fr).length =
          (columnValues pre).length + (frameValues p).length + (columnValues post).length := by
        simp [hfr, Nat.add_assoc]
      rw [ColumnIterator.isEnd, hinner.equal_endIter, ← length_frameValues hinner]
      simp only [decide_eq_decide]
      omega
  | atEnd hend hg => simp [hend, hg]

/-- `dereference` reads the value at the global index. -/
theorem deref (h : ColIterAt ty fr it g) (hg : g < (columnValues fr).length) :
    it.deref = (columnValues fr)[g]? := by
  have hend := h.isEnd_eq
  rw [decide_eq_false (Nat.ne_of_lt hg)] at hend
  cases h with
  | inFrame pre post p i hfr hinner hi _ hg' _ =>
      have hi' : i < rowWidth * p.1.length + p.2.length := by
        rw [← length_frameValues hinner]
        exact hi
      rw [ColumnIterator.deref, hend, if_neg Bool.false_ne_true, hinner.deref hi', hfr, hg',
        columnValues_append, List.getElem?_append_right (Nat.le_add_right _ _), Nat.add_sub_cancel_left,
        columnValues_cons, List.getElem?_append_left hi]
      rfl
  | atEnd _ hg' => omega

/-- `increment` moves the iterator one index on: inside the frame, to the
    next frame's `begin` past its end, or to the end past the last frame. -/
theorem increment (h : ColIterAt ty fr it g) (hg : g < (columnValues fr).length)
    (hne : ∀ q ∈ fr, frameValues q ≠ []) :
    ∃ it', it.increment ty = some it' ∧ ColIterAt ty fr it' (g + 1) := by
  cases h with
  | atEnd _ hg' => omega
  | inFrame pre post p i hfr hinner hi hpending hg' hix =>
      have hi' : i < rowWidth * p.1.length + p.2.length := by
        rw [← length_frameValues hinner]
        exact hi
      obtain ⟨inner', hinc, hinner'⟩ := hinner.increment hi'
      have hequal := hinner'.equal_endIter
      rw [← length_frameValues hinner] at hequal
      by_cases hlast : i + 1 = (frameValues p).length
      · -- past the end of the frame: the next frame of the snapshot
        rw [decide_eq_true hlast] at hequal
        cases post with
        | nil =>
            have hpend : it.pending = [] := List.forall₂_nil_right_iff.mp hpending
            refine ⟨⟨[], FrameIterator.endIter, it.ixColumn + 1⟩, ?_,
              .atEnd ColumnIterator.isEnd_endIter ?_⟩
            · simp only [ColumnIterator.increment, hinc, Option.map_some, hequal, if_true, hpend]
              rfl
            · simp only [hfr, hg', columnValues_append, columnValues_cons, columnValues_nil,
                List.append_nil, List.length_append]
              omega
        | cons q post =>
            obtain ⟨it₀, pending, hit₀, hrest, hsnap⟩ := List.forall₂_cons_right_iff.mp hpending
            have hq : 0 < (frameValues q).length :=
              List.length_pos_iff.mpr (hne q (by rw [hfr]; simp))
            refine ⟨⟨pending, it₀, it.ixColumn + 1⟩, ?_,
              .inFrame (pre ++ [p]) post q 0 (by rw [hfr]; simp) hit₀ hq hrest ?_ ?_⟩
            · simp only [ColumnIterator.increment, hinc, Option.map_some, hequal, if_true, hsnap]
              rfl
            · simp only [hg', columnValues_append, columnValues_cons, columnValues_nil,
                List.append_nil, List.length_append]
              omega
            · simp [hix]
      · -- inside the frame
        rw [decide_eq_false hlast] at hequal
        refine ⟨⟨it.pending, inner', it.ixColumn + 1⟩, ?_,
          .inFrame pre post p (i + 1) hfr hinner' (by omega) hpending (by omega) (by simp [hix])⟩
        simp only [ColumnIterator.increment, hinc, Option.map_some, hequal]
        rfl

/-- The loop from the iterator at `g` gives every index from `g` on with
    its value, and stops at the end. -/
theorem collect (hne : ∀ q ∈ fr, frameValues q ≠ []) (k : Nat) (h : ColIterAt ty fr it g)
    (hk : g + k = (columnValues fr).length) :
    it.collect ty (k + 1) = some ((((columnValues fr).drop g).zipIdx g).map Prod.swap) := by
  induction k generalizing it g with
  | zero =>
      have hend := h.isEnd_eq
      rw [decide_eq_true (by omega)] at hend
      rw [ColumnIterator.collect, ColumnIterator.equal_endIter, hend, if_pos rfl,
        List.drop_eq_nil_of_le (by omega)]
      rfl
  | succ k ih =>
      have hg : g < (columnValues fr).length := by omega
      have hend := h.isEnd_eq
      rw [decide_eq_false (Nat.ne_of_lt hg)] at hend
      obtain ⟨it', hinc, h'⟩ := h.increment hg hne
      have hix : it.index = g := by
        cases h with
        | inFrame _ _ _ _ _ _ _ _ _ hix => exact hix
        | atEnd hend' _ => rw [hend] at hend'; cases hend'
      rw [ColumnIterator.collect, ColumnIterator.equal_endIter, hend, if_neg Bool.false_ne_true,
        h.deref hg, List.getElem?_eq_getElem hg, Option.bind_some, hinc, Option.bind_some,
        ih h' (by omega), List.drop_eq_getElem_cons hg, List.zipIdx_cons, List.map_cons, hix]
      rfl

end ColIterAt

/-! ## `begin`, `at_index`, `size` and `last_value` of a column -/

section ColumnRead

variable {ty : IntType} {alg : ColumnAlg} {maxFrameSize : Nat} {delta : DeltaStep}

/-- `begin` is at index `0`. -/
theorem begin_of_ready {c : DeltaforColumn} {fr : List (List (List UInt64) × List UInt64)}
    (hready : List.Forall₂ (FrameReady ty delta) c.frames fr) (hne : ∀ p ∈ fr, frameValues p ≠ []) :
    ∃ it, c.begin ty delta = some it ∧ ColIterAt ty fr it 0 := by
  obtain ⟨snap, hsnap, hits⟩ := mapM_begin hready
  refine ⟨ColumnIterator.ofSnapshot snap 0, by rw [DeltaforColumn.begin, hsnap, Option.map_some], ?_⟩
  cases hits with
  | nil => exact .atEnd ColumnIterator.isEnd_endIter rfl
  | cons hit hrest =>
      exact .inFrame [] _ _ 0 rfl hit (List.length_pos_iff.mpr (hne _ List.mem_cons_self))
        hrest rfl rfl

theorem ColumnHolds.begin {c : DeltaforColumn} {fr : List (List (List UInt64) × List UInt64)}
    (h : ColumnHolds ty alg maxFrameSize c fr) (hmax : maxFrameSize < 2 ^ 32) :
    ∃ it, c.begin ty alg.instance = some it ∧ ColIterAt ty fr it 0 :=
  begin_of_ready (h.ready hmax) h.nonempty

/-- The loop of `at_index` over the frames after `pre` stops in the frame
    that holds the index. -/
theorem atIndexGo_of_lt (index : Nat) {fr : List (List (List UInt64) × List UInt64)}
    {fs : List DeltaforFrame} {frs : List (List (List UInt64) × List UInt64)}
    (h : List.Forall₂ (FrameReady ty delta) fs frs) (pre : List (List (List UInt64) × List UInt64))
    (inner : Nat) (hfr : fr = pre ++ frs) (hidx : index = (columnValues pre).length + inner)
    (hlt : inner < (columnValues frs).length) :
    ∃ it, DeltaforColumn.atIndexGo ty delta index fs inner = some it ∧ ColIterAt ty fr it index := by
  induction h generalizing pre inner with
  | nil => simp at hlt
  | @cons f p fs frs hf hrest ih =>
      have hsize : f.size = (frameValues p).length := hf.holds.size_eq_length
      simp only [columnValues_cons, List.length_append] at hlt
      by_cases hle : f.size ≤ inner
      · -- past this frame
        rw [DeltaforColumn.atIndexGo, if_pos hle]
        refine ih (pre ++ [p]) (inner - f.size) (by rw [hfr]; simp) ?_ (by omega)
        simp only [columnValues_append, columnValues_cons, columnValues_nil, List.append_nil,
          List.length_append]
        omega
      · -- this frame holds the index: `make_snapshot_at`
        obtain ⟨it, hat, hit⟩ := hf.holds.atIndex hf.size_lt hf.encodes (Nat.lt_of_not_le hle)
        obtain ⟨snap, hsnap, hits⟩ := mapM_begin hrest
        refine ⟨⟨snap, it, index⟩, ?_, .inFrame pre frs p inner hfr hit (by omega) hits hidx rfl⟩
        rw [DeltaforColumn.atIndexGo, if_neg hle, hat, Option.bind_some, hsnap, Option.map_some]

/-- Past the last value the loop of `at_index` runs out of frames. -/
theorem atIndexGo_of_le (index : Nat) {fs : List DeltaforFrame}
    {frs : List (List (List UInt64) × List UInt64)} (h : List.Forall₂ (FrameReady ty delta) fs frs)
    (inner : Nat) (hle : (columnValues frs).length ≤ inner) :
    DeltaforColumn.atIndexGo ty delta index fs inner = some ColumnIterator.endIter := by
  induction h generalizing inner with
  | nil => rfl
  | @cons f p fs frs hf _ ih =>
      have hsize : f.size = (frameValues p).length := hf.holds.size_eq_length
      simp only [columnValues_cons, List.length_append] at hle
      rw [DeltaforColumn.atIndexGo, if_pos (by omega)]
      exact ih _ (by omega)

/-- `at_index` dereferences to the value at the index. -/
theorem ColumnHolds.atIndex_deref {c : DeltaforColumn} {fr : List (List (List UInt64) × List UInt64)}
    (h : ColumnHolds ty alg maxFrameSize c fr) (hmax : maxFrameSize < 2 ^ 32) {i : Nat}
    (hi : i < (columnValues fr).length) :
    (c.atIndex ty alg.instance i).bind ColumnIterator.deref = (columnValues fr)[i]? := by
  obtain ⟨it, hat, hit⟩ :=
    atIndexGo_of_lt i (h.ready hmax) [] i (List.nil_append fr).symm (by simp) hi
  rw [DeltaforColumn.atIndex, hat, Option.bind_some, hit.deref hi]

/-- `at_index` past the last value is `end()`. -/
theorem ColumnHolds.atIndex_end {c : DeltaforColumn} {fr : List (List (List UInt64) × List UInt64)}
    (h : ColumnHolds ty alg maxFrameSize c fr) (hmax : maxFrameSize < 2 ^ 32) {i : Nat}
    (hi : (columnValues fr).length ≤ i) : c.atIndex ty alg.instance i = some ColumnIterator.endIter :=
  atIndexGo_of_le i (h.ready hmax) i hi

theorem sum_sizes {fs : List DeltaforFrame} {frs : List (List (List UInt64) × List UInt64)}
    (h : List.Forall₂ (fun f p => FrameHolds ty delta f p.1 p.2) fs frs) :
    (fs.map DeltaforFrame.size).sum = (columnValues frs).length := by
  induction h with
  | nil => rfl
  | cons hf _ ih =>
      simp only [List.map_cons, List.sum_cons, ih, hf.size_eq_length, columnValues_cons, frameValues,
        List.length_append]

/-- `size` counts the values. -/
theorem FramesHold.size {c : DeltaforColumn} {fr : List (List (List UInt64) × List UInt64)}
    (h : FramesHold ty alg maxFrameSize c fr) : c.size = (columnValues fr).length :=
  sum_sizes h.frames

theorem ColumnHolds.size {c : DeltaforColumn} {fr : List (List (List UInt64) × List UInt64)}
    (h : ColumnHolds ty alg maxFrameSize c fr) : c.size = (columnValues fr).length :=
  sum_sizes h.frames

/-- `last_value` is the last value. -/
theorem ColumnHolds.lastValue {c : DeltaforColumn} {fr : List (List (List UInt64) × List UInt64)}
    (h : ColumnHolds ty alg maxFrameSize c fr) : c.lastValue = (columnValues fr).getLast? := by
  rw [DeltaforColumn.lastValue, h.size]
  by_cases h0 : (columnValues fr).length = 0
  · rw [if_pos h0, List.getLast?_eq_getElem?, List.getElem?_eq_none (by omega)]
  · rw [if_neg h0]
    cases hlast : c.frames.getLast? with
    | none =>
        -- no frame holds no value
        have hframes := h.frames
        rw [List.getLast?_eq_none_iff.mp hlast, List.forall₂_nil_left_iff] at hframes
        rw [hframes] at h0
        exact absurd rfl h0
    | some back =>
        have hframes := h.frames
        rw [(List.dropLast_append_getLast? back hlast).symm] at hframes
        obtain ⟨fr₀, p, rfl, -, hback⟩ := forall₂_concat_left hframes
        have hp : frameValues p ≠ [] := h.nonempty p (by simp)
        rw [Option.bind_some, hback.lastValue, columnValues_append, columnValues_cons,
          columnValues_nil, List.append_nil, List.getLast?_append_of_ne_nil _ hp]
        rfl

/-- The loop from `begin()` gives every value with its index, in order. -/
theorem ColumnHolds.collect_begin {c : DeltaforColumn} {fr : List (List (List UInt64) × List UInt64)}
    (h : ColumnHolds ty alg maxFrameSize c fr) (hmax : maxFrameSize < 2 ^ 32) :
    (c.begin ty alg.instance).bind (ColumnIterator.collect ty ((columnValues fr).length + 1)) =
      some ((columnValues fr).zipIdx.map Prod.swap) := by
  obtain ⟨it, hbegin, hit⟩ := h.begin hmax
  rw [hbegin, Option.bind_some, hit.collect h.nonempty _ (Nat.zero_add _), List.drop_zero]

end ColumnRead

/-! ## `append_tx` and `commit` -/

/-- `add` keeps the encoder's initial value and delta step. -/
theorem DeltaforEncoder.add_eq {ty : IntType} {e e' : DeltaforEncoder} {row : List UInt64}
    (h : e.add ty row = some e') :
    { e with last := e'.last, data := e'.data, cnt := e'.cnt, delta := e'.delta } = e' := by
  obtain ⟨res, -, rfl⟩ := Option.map_eq_some_iff.mp h
  rfl

/-- `append_tx` followed by `commit` of its transaction, when there is one,
    is `append`. -/
theorem DeltaforColumn.appendTxCommit_eq_append (ty : IntType) (delta : DeltaStep) (maxFrameSize : Nat)
    (c : DeltaforColumn) (v : UInt64) :
    appendTxCommit ty delta maxFrameSize c v = append ty delta maxFrameSize c v := by
  unfold appendTxCommit appendTx append
  cases hneed : needsFrame maxFrameSize c with
  | true =>
      -- the new frame of the transaction is spliced in
      simp only [if_true]
      cases happ : DeltaforFrame.append ty delta DeltaforFrame.empty v with
      | none => simp [happ]
      | some f => simp [commit, happ]
  | false =>
      simp only [Bool.false_eq_true, if_false]
      cases hlast : c.frames.getLast? with
      | none => rfl
      | some back =>
          simp only [Option.map_map]
          unfold DeltaforFrame.appendTx DeltaforFrame.append
          by_cases hfull : (back.size + 1) &&& indexMask = 0
          · -- a full row: the transaction holds the tail with the row added
            simp only [hfull, if_true]
            cases hadd : (back.tail.getD (DeltaforEncoder.init
                ((back.head.set (indexMask &&& back.size) v).getD 0 0) delta)).add ty
                (back.head.set (indexMask &&& back.size) v) with
            | none => rfl
            | some unc =>
                simpa [commit, DeltaforFrame.commit] using DeltaforEncoder.add_eq hadd
          · simp [hfull, commit]

/-- A caller's sequence of `append` and committed `append_tx` is `append` of
    its values. -/
theorem DeltaforColumn.run_eq_appendAll (ty : IntType) (delta : DeltaStep) (maxFrameSize : Nat) :
    ∀ (c : DeltaforColumn) (ops : List (UInt64 × Bool)),
      run ty delta maxFrameSize c ops = appendAll ty delta maxFrameSize c (ops.map Prod.fst)
  | _, [] => rfl
  | c, (v, tx) :: ops => by
      have hstep : (if tx then appendTxCommit ty delta maxFrameSize c v
          else append ty delta maxFrameSize c v) = append ty delta maxFrameSize c v := by
        cases tx with
        | true => exact appendTxCommit_eq_append ty delta maxFrameSize c v
        | false => rfl
      rw [run, hstep, List.map_cons, appendAll]
      congr 1
      funext c'
      exact run_eq_appendAll ty delta maxFrameSize c' ops

/-! ## The column is a sequence -/

/-- A column of either specialisation, with `max_frame_size` below `2 ^ 32`
    (the frame iterator counts in `uint32_t`), filled by `append` or by
    committed `append_tx` with values the specialisation accepts, has as
    many values as were appended; iterating from `begin()` gives each value
    with its index in order, `at_index(i)` dereferences to value `i` and is
    `end()` past the last value, and `last_value()` is the last value. -/
theorem deltafor_column_sequence (ty : IntType) (alg : ColumnAlg) (maxFrameSize : Nat)
    (hpos : 0 < maxFrameSize) (hmax : maxFrameSize < 2 ^ 32) (ops : List (UInt64 × Bool))
    (hacc : alg.Accepts ty (ops.map Prod.fst)) :
    ∃ c, (DeltaforColumn.mk []).run ty alg.instance maxFrameSize ops = some c ∧
      c.size = ops.length ∧
      (c.begin ty alg.instance).bind (ColumnIterator.collect ty (ops.length + 1)) =
        some ((ops.map Prod.fst).zipIdx.map Prod.swap) ∧
      (∀ i (hi : i < ops.length),
        (c.atIndex ty alg.instance i).bind ColumnIterator.deref = some ops[i].1) ∧
      (∀ i, ops.length ≤ i → c.atIndex ty alg.instance i = some ColumnIterator.endIter) ∧
      c.lastValue = (ops.map Prod.fst).getLast? := by
  obtain ⟨c, fr, hall, hc, hvals⟩ :=
    (columnHolds_empty : ColumnHolds ty alg maxFrameSize ⟨[]⟩ []).appendAll hpos (ops.map Prod.fst)
      (by rw [columnValues_nil, List.nil_append]; exact hacc)
  rw [columnValues_nil, List.nil_append] at hvals
  have hlen : (columnValues fr).length = ops.length := by rw [hvals, List.length_map]
  refine ⟨c, by rw [DeltaforColumn.run_eq_appendAll]; exact hall, by rw [hc.size, hlen], ?_, ?_, ?_, ?_⟩
  · -- the loop from `begin()` runs through every value
    rw [← hlen, hc.collect_begin hmax, hvals]
  · intro i hi
    rw [hc.atIndex_deref hmax (by omega), hvals, List.getElem?_map, List.getElem?_eq_getElem hi]
    rfl
  · intro i hi
    exact hc.atIndex_end hmax (by omega)
  · rw [hc.lastValue, hvals]

/-- An `int64_t` `delta_delta` column of `max_frame_size` `16` with eighteen
    even values, every third by `append_tx` and `commit`: a full row goes to
    the tail and a second frame starts. -/
theorem deltafor_column_sequence_int64_sample :
    0 < 16 ∧ 16 < 2 ^ 32 ∧
      ColumnAlg.deltaDelta.Accepts .int64
        (((List.range 18).map fun i => (UInt64.ofNat (2 * i), decide (i % 3 = 0))).map Prod.fst) ∧
      ∃ c, (DeltaforColumn.mk []).run .int64 ColumnAlg.deltaDelta.instance 16
          ((List.range 18).map fun i => (UInt64.ofNat (2 * i), decide (i % 3 = 0))) = some c ∧
        c.size = ((List.range 18).map fun i => (UInt64.ofNat (2 * i), decide (i % 3 = 0))).length ∧
        (c.begin .int64 ColumnAlg.deltaDelta.instance).bind (ColumnIterator.collect .int64
            (((List.range 18).map fun i => (UInt64.ofNat (2 * i), decide (i % 3 = 0))).length + 1)) =
          some ((((List.range 18).map fun i => (UInt64.ofNat (2 * i), decide (i % 3 = 0))).map
            Prod.fst).zipIdx.map Prod.swap) ∧
        (∀ i (hi : i < ((List.range 18).map fun i => (UInt64.ofNat (2 * i), decide (i % 3 = 0))).length),
          (c.atIndex .int64 ColumnAlg.deltaDelta.instance i).bind ColumnIterator.deref =
            some ((List.range 18).map fun i => (UInt64.ofNat (2 * i), decide (i % 3 = 0)))[i].1) ∧
        (∀ i, ((List.range 18).map fun i => (UInt64.ofNat (2 * i), decide (i % 3 = 0))).length ≤ i →
          c.atIndex .int64 ColumnAlg.deltaDelta.instance i = some ColumnIterator.endIter) ∧
        c.lastValue =
          (((List.range 18).map fun i => (UInt64.ofNat (2 * i), decide (i % 3 = 0))).map Prod.fst).getLast? :=
  ⟨by decide, by decide, by decide,
    deltafor_column_sequence .int64 .deltaDelta 16 (by decide) (by decide) _ (by decide)⟩

/-- An `int64_t` `delta_delta` column (`max_frame_size` `0x400`, as
    `segment_meta_cstore`'s) given `INT64_MIN` and then fifteen zeros, a
    non-decreasing sequence: the sixteenth `append` hands the row to the
    tail, whose `row[i] - p` overflows, and the column takes no more. -/
theorem int64_delta_delta_column_jump_not_appended :
    List.IsChain (fun a b => IntType.int64.toInt a ≤ IntType.int64.toInt b)
        (0x8000000000000000 :: List.replicate 15 0) ∧
      (DeltaforColumn.mk []).run .int64 ColumnAlg.deltaDelta.instance 0x400
        ((0x8000000000000000 :: List.replicate 15 0).map fun v => (v, false)) = none := by
  decide

end DeltaFor
