import Redpanda.Utils.DeltaForSequence

/-! # Abandoning a transaction of `deltafor_column`

    `deltafor_column::append_tx` takes one of three paths, and the comment
    above it says that destroying the transaction it returns aborts the
    append:

    * when the column needs a new frame, the frame goes into the
      transaction and the column is left as it was
      (`appendTx_of_needsFrame`): destroying it is an abort;
    * when the value does not complete a row, the last frame takes it at
      once and there is no transaction;
    * when the value completes a row, `deltafor_frame::append_tx` has
      already bumped the frame's size and written the head
      (`DeltaforFrame.appendTx_spec`); only the row's encoding waits in the
      transaction.  Destroying it leaves a column with one more value
      (`size_appendTx_of_frame`) whose tail lacks the row.

    `abandoned_append_tx_keeps_value` runs the third path on fifteen values
    of an `int64_t` `delta_delta` column: the abandoned column has sixteen
    values, and the next `append` overwrites the first value of the row
    the tail never received. -/

namespace DeltaFor

variable (ty : IntType) (delta : DeltaStep) (maxFrameSize : Nat)

/-- `deltafor_frame::append_tx` changes the head and the size on every
    path, before any transaction is made. -/
theorem DeltaforFrame.appendTx_spec {f f' : DeltaforFrame} {v : UInt64}
    {tx : Option FrameTx} (h : f.appendTx ty delta v = some (f', tx)) :
    f'.size = f.size + 1 ∧ f'.head = f.head.set (indexMask &&& f.size) v := by
  unfold DeltaforFrame.appendTx at h
  dsimp only at h
  split at h
  · obtain ⟨_, _, hres⟩ := Option.map_eq_some_iff.mp h
    simp only [Prod.mk.injEq] at hres
    rw [← hres.1]
    exact ⟨rfl, rfl⟩
  · simp only [Option.some.injEq, Prod.mk.injEq] at h
    rw [← h.1]
    exact ⟨rfl, rfl⟩

namespace DeltaforColumn

variable {ty delta maxFrameSize} {c c' : DeltaforColumn} {v : UInt64}

/-- On the new-frame path the column is left as it was, and the new frame
    waits in the transaction: destroying it is an abort. -/
theorem appendTx_of_needsFrame {tx : Option ColumnTx}
    (h : c.appendTx ty delta maxFrameSize v = some (c', tx)) (hneeds : needsFrame maxFrameSize c = true) :
    c' = c ∧ ∃ f, DeltaforFrame.empty.append ty delta v = some f ∧ tx = some (.frames [f]) := by
  unfold appendTx at h
  rw [if_pos hneeds] at h
  obtain ⟨f, hf, hres⟩ := Option.map_eq_some_iff.mp h
  simp only [Prod.mk.injEq] at hres
  exact ⟨hres.1.symm, f, hf, hres.2.symm⟩

/-- When `append_tx` returns the last frame's transaction, the column it
    leaves already counts the value. -/
theorem size_appendTx_of_frame {tx : FrameTx}
    (h : c.appendTx ty delta maxFrameSize v = some (c', some (.frame tx))) :
    c'.size = c.size + 1 := by
  unfold appendTx at h
  split at h
  · -- the new-frame path returns the frames, not a frame's transaction
    obtain ⟨_, _, hres⟩ := Option.map_eq_some_iff.mp h
    simp only [Prod.mk.injEq] at hres
    cases hres.2
  · split at h
    · cases h
    · rename_i back hback
      obtain ⟨res, hres, heq⟩ := Option.map_eq_some_iff.mp h
      simp only [Prod.mk.injEq] at heq
      have hsize := (DeltaforFrame.appendTx_spec ty delta hres).1
      have hframes : c.frames = c.frames.dropLast ++ [back] :=
        (List.dropLast_append_getLast? back hback).symm
      rw [← heq.1]
      simp only [size, List.map_append, List.sum_append, List.map_singleton, List.sum_singleton]
      conv_rhs => rw [hframes]
      simp only [List.map_append, List.sum_append, List.map_singleton, List.sum_singleton]
      omega

end DeltaforColumn

/-- Fifteen values `0, …, 14` of an `int64_t` `delta_delta` column with
    `segment_meta_cstore`'s `max_frame_size`: one frame, whose row the next
    value completes. -/
def fifteenValues : Option DeltaforColumn :=
  (DeltaforColumn.mk []).appendAll .int64 ColumnAlg.deltaDelta.instance 0x400
    ((List.range 15).map UInt64.ofNat)

/-- `append_tx(15)` on the fifteen values returns a transaction; destroyed
    without `commit`, it leaves a column of sixteen values whose last value
    is `15`, and `append(16)` after it iterates `16, 1, …, 15, 16`: the
    value `0` is lost.  From the column without the `append_tx`, the same
    `append(16)` iterates `0, …, 14, 16`. -/
theorem abandoned_append_tx_keeps_value :
    (fifteenValues.bind fun c =>
        (c.appendTx .int64 ColumnAlg.deltaDelta.instance 0x400 15).map fun r =>
          (c.size, r.1.size, r.2.isSome, r.1.lastValue)) = some (15, 16, true, some 15) ∧
      (fifteenValues.bind fun c =>
        (c.appendTx .int64 ColumnAlg.deltaDelta.instance 0x400 15).bind fun r =>
          (r.1.append .int64 ColumnAlg.deltaDelta.instance 0x400 16).bind fun c' =>
            (c'.begin .int64 ColumnAlg.deltaDelta.instance).bind
              (ColumnIterator.collect .int64 20)) =
        some ((16 :: (List.range 15).map (fun i => UInt64.ofNat (i + 1)) ++ [16]).zipIdx.map
          Prod.swap) ∧
      (fifteenValues.bind fun c =>
        (c.append .int64 ColumnAlg.deltaDelta.instance 0x400 16).bind fun c' =>
          (c'.begin .int64 ColumnAlg.deltaDelta.instance).bind
            (ColumnIterator.collect .int64 20)) =
        some (((List.range 15).map UInt64.ofNat ++ [16]).zipIdx.map Prod.swap) := by
  decide

end DeltaFor
