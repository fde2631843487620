import Redpanda.Bytes.Iobuf
import Redpanda.Utils.Vint

/-! # `iobuf_parser`: varints read across fragments

    Model of `read_varlong` and `read_unsigned_varint` of
    `bytes/iobuf_parser.h`, over `details::io_iterator_consumer` and
    `details::io_byte_iterator`.  A `const char*` is an allocation and an
    offset in it, `nullptr` is `none`.

    A consumer sits at an offset of its first fragment, or past the last
    fragment with both pointers `nullptr` (`ReadsAt`).  When the offset is
    not the end of the fragment, `begin()` reads every byte left, stepping
    over empty fragments after it (`ReadsAt.yields_begin`), and `skip(n)`
    moves the consumer `n` bytes on (`ReadsAt.skip`).  `read_varlong` then
    reads `vint::deserialize` of the bytes left (`ReadsAt.readVarlong`).

    Neither the consumer's constructor nor its `begin()` steps over an empty
    fragment, as the byte iterator's own constructor does.  At an empty
    first fragment `begin()` reads the byte that the fragment's view points
    at, which is no byte of the iobuf
    (`read_varlong_reads_empty_fragment_view`). -/

namespace Bytes

open SharedMemory

/-- A `const char*`: an allocation and an offset, `none` for `nullptr`. -/
abbrev Pointer := Option (Nat × Nat)

/-- `get()`. -/
def IoFragment.get (f : IoFragment) : Nat × Nat := (f.buf.alloc, f.buf.start)

/-- `get() + size()`. -/
def IoFragment.getEnd (f : IoFragment) : Nat × Nat := (f.buf.alloc, f.buf.start + f.usedBytes)

/-! ## `io_byte_iterator` -/

/-- `details::io_byte_iterator`: the fragments from `_frag` to `_frag_end`,
    `_frag_index` and `_frag_index_end`. -/
structure IoByteIterator where
  frags : List IoFragment
  fragIndex : Pointer
  fragIndexEnd : Pointer
deriving DecidableEq, Repr

namespace IoByteIterator

/-- `next_fragment()`, from the fragment after `++_frag`: the first one that
    is not empty, or `nullptr` past the last. -/
def nextFragment : List IoFragment → IoByteIterator
  | [] => ⟨[], none, none⟩
  | f :: fs => if f.get = f.getEnd then nextFragment fs else ⟨f :: fs, some f.get, some f.getEnd⟩

/-- `operator*`: the byte at `_frag_index`.  The range loop never reads
    through `nullptr`, nor past an allocation on the inputs proved about. -/
def deref (mem : Heap) (it : IoByteIterator) : UInt8 :=
  match it.fragIndex with
  | none => 0
  | some (a, p) => (cells mem a).getD p 0

/-- `operator++`: on to the next fragment when the pointer reaches
    `_frag_index_end`. -/
def increment (it : IoByteIterator) : IoByteIterator :=
  match it.fragIndex with
  | none => it
  | some (a, p) =>
      if some (a, p + 1) = it.fragIndexEnd then nextFragment it.frags.tail
      else { it with fragIndex := some (a, p + 1) }

/-- A turn of the range loop: the byte and the iterator after it, or
    `none` at `end()`, whose `_frag_index` is `nullptr`. -/
def next (mem : Heap) (it : IoByteIterator) : Option (UInt8 × IoByteIterator) :=
  if it.fragIndex = none then none else some (it.deref mem, it.increment)

end IoByteIterator

/-! ## `io_iterator_consumer` -/

/-- `details::io_iterator_consumer`: the fragments from `_frag` to
    `_frag_end`, `_frag_index`, `_frag_index_end` and `_bytes_consumed`. -/
structure IoIteratorConsumer where
  frags : List IoFragment
  fragIndex : Pointer
  fragIndexEnd : Pointer
  bytesConsumed : Nat
deriving DecidableEq, Repr

namespace IoIteratorConsumer

/-- `io_iterator_consumer(begin, end)`: the first fragment, empty or not. -/
def create : List IoFragment → IoIteratorConsumer
  | [] => ⟨[], none, none, 0⟩
  | f :: fs => ⟨f :: fs, some f.get, some f.getEnd, 0⟩

/-- `begin()`: a byte iterator from the consumer's pointers, as they are. -/
def begin (c : IoIteratorConsumer) : IoByteIterator := ⟨c.frags, c.fragIndex, c.fragIndexEnd⟩

/-- `segment_bytes_left()`: `_frag_index_end - _frag_index`. -/
def segmentBytesLeft (c : IoIteratorConsumer) : Nat :=
  match c.fragIndex, c.fragIndexEnd with
  | some (_, p), some (_, e) => e - p
  | _, _ => 0

/-- `++_frag`, with the pointers of the fragment it reaches unless that is
    the end. -/
def toNextFragment (c : IoIteratorConsumer) : IoIteratorConsumer :=
  match c.frags.tail with
  | [] => { c with frags := [] }
  | f :: fs => { c with frags := f :: fs, fragIndex := some f.get, fragIndexEnd := some f.getEnd }

/-- The fix-up after `consume`'s loop: at the end of a fragment, on to the
    next one, or `nullptr` past the last. -/
def fixup (c : IoIteratorConsumer) : IoIteratorConsumer :=
  if c.fragIndex = c.fragIndexEnd then
    match c.frags with
    | [] => { c with fragIndex := none, fragIndexEnd := none }
    | [_] => { c with frags := [], fragIndex := none, fragIndexEnd := none }
    | _ :: f :: fs => { c with frags := f :: fs, fragIndex := some f.get, fragIndexEnd := some f.getEnd }
  else c

theorem frags_toNextFragment (c : IoIteratorConsumer) : c.toNextFragment.frags = c.frags.tail := by
  unfold toNextFragment
  split <;> simp_all

/-- The loop of `consume(n, f)` for an `f` that never stops it, `i` bytes
    in: past the last fragment it returns at once, without the fix-up. -/
def consumeLoop (n i : Nat) (c : IoIteratorConsumer) : Nat × IoIteratorConsumer :=
  if _hi : i < n then
    match _hfr : c.frags with
    | [] => (i, c)
    | _ :: _ =>
        if _hleft : c.segmentBytesLeft = 0 then consumeLoop n i c.toNextFragment
        else
          let step := min (n - i) c.segmentBytesLeft
          consumeLoop n (i + step)
            { c with
              fragIndex := c.fragIndex.map fun p => (p.1, p.2 + step)
              bytesConsumed := c.bytesConsumed + step }
  else (i, c.fixup)
termination_by c.frags.length + (n - i)
decreasing_by
  · rw [frags_toNextFragment, _hfr, List.tail_cons, List.length_cons]
    omega
  · show c.frags.length + (n - (i + min (n - i) c.segmentBytesLeft)) < c.frags.length + (n - i)
    omega

/-- `skip(n)`: `std::out_of_range` (`none`) when fewer than `n` bytes are
    left. -/
def skip (c : IoIteratorConsumer) (n : Nat) : Option IoIteratorConsumer :=
  let r := consumeLoop n 0 c
  if r.1 = n then some r.2 else none

end IoIteratorConsumer

/-! ## `iobuf_parser` -/

/-- `iobuf_parser_base`: `_in` and `_original_size`. -/
structure IobufParser where
  input : IoIteratorConsumer
  originalSize : Nat
deriving DecidableEq, Repr

namespace IobufParser

/-- `iobuf_parser(iobuf)`. -/
def create (b : Iobuf) : IobufParser := ⟨IoIteratorConsumer.create b.frags, b.size⟩

/-- `bytes_consumed()`. -/
def bytesConsumed (p : IobufParser) : Nat := p.input.bytesConsumed

/-- `bytes_left()`. -/
def bytesLeft (p : IobufParser) : Nat := p.originalSize - p.input.bytesConsumed

/-- `read_varlong`: `vint::deserialize(_in)` over the range from `begin()`,
    then `skip` of the bytes it read; the length comes back as `uint8_t`. -/
def readVarlong (mem : Heap) (p : IobufParser) : Option ((Int64 × UInt8) × IobufParser) :=
  let (val, lengthSize) := Vint.deserializeRange (IoByteIterator.next mem) p.input.begin
  (p.input.skip lengthSize).map fun input => ((val, UInt8.ofNat lengthSize), { p with input })

/-- `read_unsigned_varint`. -/
def readUnsignedVarint (mem : Heap) (p : IobufParser) : Option ((UInt32 × UInt8) × IobufParser) :=
  let (val, lengthSize) := UnsignedVint.deserializeRange (IoByteIterator.next mem) p.input.begin
  (p.input.skip lengthSize).map fun input => ((UInt32.ofNat val, UInt8.ofNat lengthSize), { p with input })

end IobufParser

/-! ## Reading a fragment -/

namespace IoFragment

variable {mem : Heap} {f : IoFragment}

/-- Byte `j` of a fragment's used bytes is the allocation's byte at
    `get() + j`. -/
theorem getElem?_content (hv : f.Valid mem) {j : Nat} (hj : j < f.usedBytes) :
    (f.content mem)[j]? = some ((cells mem f.buf.alloc).getD (f.buf.start + j) 0) := by
  have hlt : f.buf.start + j < (cells mem f.buf.alloc).length := by
    have := hv.1
    have := hv.2
    omega
  rw [IoFragment.content, SharedMemory.read, List.getElem?_take_of_lt hj, List.getElem?_drop,
    List.getElem?_eq_getElem hlt, List.getElem_eq_getD 0]

theorem drop_content_eq_cons (hv : f.Valid mem) {j : Nat} (hj : j < f.usedBytes) :
    (f.content mem).drop j =
      (cells mem f.buf.alloc).getD (f.buf.start + j) 0 :: (f.content mem).drop (j + 1) := by
  have hlen : j < (f.content mem).length := by rw [length_content hv]; exact hj
  have hget := getElem?_content hv hj
  rw [List.getElem?_eq_getElem hlen] at hget
  rw [List.drop_eq_getElem_cons hlen, Option.some.inj hget]

/-- A fragment whose pointers meet has no used bytes. -/
theorem content_of_get_eq (h : f.get = f.getEnd) : f.content mem = [] := by
  have hused : f.usedBytes = 0 := by
    simp only [get, getEnd, Prod.mk.injEq] at h
    omega
  rw [content, hused, SharedMemory.read, List.take_zero]

end IoFragment

/-! ## The bytes a byte iterator reads -/

namespace IoByteIterator

/-- The range `[it, end())` reads `bytes`: each in turn, then `end()`. -/
def Yields (mem : Heap) : IoByteIterator → List UInt8 → Prop
  | it, [] => it.fragIndex = none
  | it, byte :: bytes => it.fragIndex ≠ none ∧ it.deref mem = byte ∧ Yields mem it.increment bytes

variable {mem : Heap}

theorem yields_nil {it : IoByteIterator} : Yields mem it [] ↔ it.fragIndex = none := Iff.rfl

theorem yields_cons {it : IoByteIterator} {byte : UInt8} {bytes : List UInt8} :
    Yields mem it (byte :: bytes) ↔
      it.fragIndex ≠ none ∧ it.deref mem = byte ∧ Yields mem it.increment bytes := Iff.rfl

/-- Over a range that reads `bytes`, the loop of `detail::deserialize` is
    its loop over `bytes`. -/
theorem deserializeLoop_of_yields (limit : Nat) {bytes : List UInt8} :
    ∀ {it : IoByteIterator} (d : UnsignedVint.VarDecoder), Yields mem it bytes →
      UnsignedVint.deserializeLoop (next mem) limit it d =
        UnsignedVint.deserializeLoop UnsignedVint.listNext limit bytes d := by
  induction bytes with
  | nil =>
      intro it d h
      have hnext : it.next mem = none := by rw [next, if_pos (yields_nil.mp h)]
      rw [UnsignedVint.deserializeLoop_none d hnext, UnsignedVint.deserializeLoop_nil]
  | cons byte bytes ih =>
      intro it d h
      obtain ⟨hne, hderef, hrest⟩ := yields_cons.mp h
      have hnext : it.next mem = some (byte, it.increment) := by rw [next, if_neg hne, hderef]
      rw [UnsignedVint.deserializeLoop_some d hnext, UnsignedVint.deserializeLoop_cons, ih _ hrest]

theorem Yields.vint_deserializeRange {it : IoByteIterator} {bytes : List UInt8}
    (h : Yields mem it bytes) : Vint.deserializeRange (next mem) it = Vint.deserialize bytes := by
  rw [← Vint.deserializeRange_listNext]
  simp only [Vint.deserializeRange, UnsignedVint.detailDeserializeRange, deserializeLoop_of_yields _ _ h]

theorem Yields.unsignedVint_deserializeRange {it : IoByteIterator} {bytes : List UInt8}
    (h : Yields mem it bytes) :
    UnsignedVint.deserializeRange (next mem) it = UnsignedVint.deserialize bytes := by
  rw [← UnsignedVint.deserializeRange_listNext]
  simp only [UnsignedVint.deserializeRange, UnsignedVint.detailDeserializeRange,
    deserializeLoop_of_yields _ _ h]

theorem increment_inside (f : IoFragment) (fs : List IoFragment) (j : Nat) :
    (⟨f :: fs, some (f.buf.alloc, f.buf.start + j), some f.getEnd⟩ : IoByteIterator).increment =
      if j + 1 = f.usedBytes then nextFragment fs
      else ⟨f :: fs, some (f.buf.alloc, f.buf.start + (j + 1)), some f.getEnd⟩ := by
  by_cases hj : j + 1 = f.usedBytes
  · rw [if_pos hj, increment]
    dsimp only
    rw [if_pos (by rw [IoFragment.getEnd, ← hj, Nat.add_assoc]), List.tail_cons]
  · rw [if_neg hj, increment]
    dsimp only
    rw [if_neg (by simp only [IoFragment.getEnd, Option.some.injEq, Prod.mk.injEq, true_and]; omega),
      Nat.add_assoc]

/-- From offset `j` of a fragment, the range reads the rest of the fragment
    and then what `next_fragment()` reaches. -/
theorem yields_inside {f : IoFragment} {fs : List IoFragment} (hf : f.Valid mem)
    (hrest : Yields mem (nextFragment fs) (fs.flatMap (·.content mem))) (k : Nat) :
    ∀ j, j + k + 1 = f.usedBytes →
      Yields mem ⟨f :: fs, some (f.buf.alloc, f.buf.start + j), some f.getEnd⟩
        ((f.content mem).drop j ++ fs.flatMap (·.content mem)) := by
  -- induction on the bytes of the fragment after offset `j`
  induction k with
  | zero =>
      intro j hj
      rw [IoFragment.drop_content_eq_cons hf (by omega), List.cons_append]
      refine yields_cons.mpr ⟨Option.some_ne_none _, rfl, ?_⟩
      rw [increment_inside, if_pos (by omega),
        List.drop_eq_nil_of_le (by rw [IoFragment.length_content hf]; omega), List.nil_append]
      exact hrest
  | succ k ih =>
      intro j hj
      rw [IoFragment.drop_content_eq_cons hf (by omega), List.cons_append]
      refine yields_cons.mpr ⟨Option.some_ne_none _, rfl, ?_⟩
      rw [increment_inside, if_neg (by omega)]
      exact ih (j + 1) (by omega)

/-- `next_fragment()` reads the bytes of the fragments, stepping over the
    empty ones. -/
theorem yields_nextFragment : ∀ {fs : List IoFragment}, (∀ f ∈ fs, f.Valid mem) →
    Yields mem (nextFragment fs) (fs.flatMap (·.content mem))
  | [], _ => yields_nil.mpr rfl
  | f :: fs, hv => by
      have hrest := yields_nextFragment fun g hg => hv g (List.mem_cons_of_mem f hg)
      rw [List.flatMap_cons, nextFragment]
      by_cases hempty : f.get = f.getEnd
      · -- an empty fragment is stepped over
        rw [if_pos hempty, IoFragment.content_of_get_eq hempty, List.nil_append]
        exact hrest
      · rw [if_neg hempty]
        have hused : 0 < f.usedBytes := Nat.pos_of_ne_zero fun h0 =>
          hempty (by rw [IoFragment.get, IoFragment.getEnd, h0, Nat.add_zero])
        have h := yields_inside (hv f List.mem_cons_self) hrest (f.usedBytes - 1) 0 (by omega)
        rw [List.drop_zero] at h
        exact h

end IoByteIterator

/-! ## Where a consumer reads -/

namespace IoIteratorConsumer

variable {n i : Nat} {c : IoIteratorConsumer}

theorem consumeLoop_of_not_lt (h : ¬i < n) : c.consumeLoop n i = (i, c.fixup) := by
  rw [consumeLoop, dif_neg h]

theorem consumeLoop_of_nil (h : i < n) (hfr : c.frags = []) : c.consumeLoop n i = (i, c) := by
  rw [consumeLoop, dif_pos h]
  split
  · rfl
  · simp_all

theorem consumeLoop_of_empty_segment {f : IoFragment} {fs : List IoFragment} (h : i < n)
    (hfr : c.frags = f :: fs) (hleft : c.segmentBytesLeft = 0) :
    c.consumeLoop n i = c.toNextFragment.consumeLoop n i := by
  rw [consumeLoop, dif_pos h]
  split
  · simp_all
  · rw [dif_pos hleft]

theorem consumeLoop_of_segment {f : IoFragment} {fs : List IoFragment} (h : i < n)
    (hfr : c.frags = f :: fs) (hleft : c.segmentBytesLeft ≠ 0) :
    c.consumeLoop n i =
      consumeLoop n (i + min (n - i) c.segmentBytesLeft)
        { c with
          fragIndex := c.fragIndex.map fun p => (p.1, p.2 + min (n - i) c.segmentBytesLeft)
          bytesConsumed := c.bytesConsumed + min (n - i) c.segmentBytesLeft } := by
  rw [consumeLoop, dif_pos h]
  split
  · simp_all
  · rw [dif_neg hleft]

end IoIteratorConsumer

/-- The consumer reads `bytes`: from offset `j` of its first fragment, or,
    past the last fragment with `_frag_index` `nullptr`, nothing. -/
inductive ReadsAt (mem : Heap) : IoIteratorConsumer → List UInt8 → Prop
  | past (c : IoIteratorConsumer) (hfrags : c.frags = []) (hindex : c.fragIndex = none) :
      ReadsAt mem c []
  | inside (c : IoIteratorConsumer) (f : IoFragment) (fs : List IoFragment) (j : Nat)
      (hfrags : c.frags = f :: fs) (hvalid : ∀ g ∈ f :: fs, g.Valid mem) (hj : j ≤ f.usedBytes)
      (hindex : c.fragIndex = some (f.buf.alloc, f.buf.start + j))
      (hend : c.fragIndexEnd = some f.getEnd) :
      ReadsAt mem c ((f.content mem).drop j ++ fs.flatMap (·.content mem))

namespace ReadsAt

variable {mem : Heap} {c : IoIteratorConsumer} {bytes : List UInt8}

/-- A new consumer reads the whole iobuf. -/
theorem create {b : Iobuf} (hv : b.Valid mem) :
    ReadsAt mem (IoIteratorConsumer.create b.frags) (b.content mem) := by
  rw [Iobuf.content]
  cases hfr : b.frags with
  | nil => exact .past _ rfl rfl
  | cons f fs =>
      have h := @ReadsAt.inside mem (IoIteratorConsumer.create (f :: fs)) f fs 0 rfl
        (fun g hg => hv.frags_valid g (by rw [hfr]; exact hg)) (Nat.zero_le _) rfl rfl
      rw [List.drop_zero] at h
      exact h

/-- The first fragment at offset `j` has `used - j` bytes left. -/
theorem segmentBytesLeft_inside {f : IoFragment} {j : Nat}
    (hindex : c.fragIndex = some (f.buf.alloc, f.buf.start + j))
    (hend : c.fragIndexEnd = some f.getEnd) : c.segmentBytesLeft = f.usedBytes - j := by
  simp only [IoIteratorConsumer.segmentBytesLeft, hindex, hend, IoFragment.getEnd]
  omega

/-- Unless it is at the end of a fragment, `begin()` reads every byte left. -/
theorem yields_begin (h : ReadsAt mem c bytes) (hready : c.frags = [] ∨ 0 < c.segmentBytesLeft) :
    IoByteIterator.Yields mem c.begin bytes := by
  cases h with
  | past _ hindex => exact IoByteIterator.yields_nil.mpr hindex
  | inside f fs j hfrags hvalid _ hindex hend =>
      have hleft := segmentBytesLeft_inside hindex hend
      have hlt : j < f.usedBytes := by
        rcases hready with hnil | hpos
        · rw [hfrags] at hnil
          cases hnil
        · omega
      have hbegin : c.begin = ⟨f :: fs, some (f.buf.alloc, f.buf.start + j), some f.getEnd⟩ := by
        rw [IoIteratorConsumer.begin, hfrags, hindex, hend]
      rw [hbegin]
      exact IoByteIterator.yields_inside (hvalid f List.mem_cons_self)
        (IoByteIterator.yields_nextFragment fun g hg => hvalid g (List.mem_cons_of_mem f hg))
        (f.usedBytes - j - 1) j (by omega)

/-- The fix-up after `consume`'s loop keeps what the consumer reads. -/
theorem fixup (h : ReadsAt mem c bytes) :
    ReadsAt mem c.fixup bytes ∧ c.fixup.bytesConsumed = c.bytesConsumed := by
  cases h with
  | past hfrags hindex =>
      unfold IoIteratorConsumer.fixup
      split
      · rw [hfrags]
        exact ⟨.past _ rfl rfl, rfl⟩
      · exact ⟨.past _ hfrags hindex, rfl⟩
  | inside f fs j hfrags hvalid hj hindex hend =>
      unfold IoIteratorConsumer.fixup
      by_cases hat : j = f.usedBytes
      · -- at the end of the fragment: on to the next one, or past the last
        have hdrop : (f.content mem).drop j = [] :=
          List.drop_eq_nil_of_le (by rw [IoFragment.length_content (hvalid f List.mem_cons_self)]; omega)
        rw [if_pos (by rw [hindex, hend, IoFragment.getEnd, hat]), hfrags, hdrop, List.nil_append]
        cases fs with
        | nil => exact ⟨.past _ rfl rfl, rfl⟩
        | cons g gs =>
            have hg := @ReadsAt.inside mem ⟨g :: gs, some g.get, some g.getEnd, c.bytesConsumed⟩ g gs 0 rfl
              (fun g' hg' => hvalid g' (List.mem_cons_of_mem f hg')) (Nat.zero_le _) rfl rfl
            rw [List.drop_zero] at hg
            exact ⟨hg, rfl⟩
      · have hne : c.fragIndex ≠ c.fragIndexEnd := by
          rw [hindex, hend, IoFragment.getEnd]
          simp only [ne_eq, Option.some.injEq, Prod.mk.injEq, true_and]
          omega
        rw [if_neg hne]
        exact ⟨.inside _ f fs j hfrags hvalid hj hindex hend, rfl⟩

/-- `consume`'s loop from `i` of `n` bytes moves the consumer the `n - i`
    bytes on when they are there. -/
theorem consumeLoop {n i : Nat} (h : ReadsAt mem c bytes) (hi : i ≤ n) (hn : n - i ≤ bytes.length) :
    (c.consumeLoop n i).1 = n ∧ (c.consumeLoop n i).2.bytesConsumed = c.bytesConsumed + (n - i) ∧
      ReadsAt mem (c.consumeLoop n i).2 (bytes.drop (n - i)) := by
  induction i, c using IoIteratorConsumer.consumeLoop.induct n generalizing bytes with
  | case1 i c hlt hnil =>
      -- past the last fragment no byte is left
      cases h with
      | past => simp at hn; omega
      | inside f fs j hfrags => rw [hfrags] at hnil; cases hnil
  | case2 i c hlt f fs hfr hleft ih =>
      -- an exhausted fragment: on to the next one
      rw [IoIteratorConsumer.consumeLoop_of_empty_segment hlt hfr hleft]
      cases h with
      | past hfrags => rw [hfrags] at hfr; cases hfr
      | inside g gs j hfrags hvalid hj hindex hend =>
          rw [hfr, List.cons.injEq] at hfrags
          obtain ⟨rfl, rfl⟩ := hfrags
          have hat : j = f.usedBytes := by
            have := segmentBytesLeft_inside hindex hend
            omega
          have hdrop : (f.content mem).drop j = [] :=
            List.drop_eq_nil_of_le (by rw [IoFragment.length_content (hvalid f List.mem_cons_self)]; omega)
          rw [hdrop, List.nil_append] at hn ⊢
          cases fs with
          | nil => simp at hn; omega
          | cons g gs =>
              have hnext : c.toNextFragment = ⟨g :: gs, some g.get, some g.getEnd, c.bytesConsumed⟩ := by
                rw [IoIteratorConsumer.toNextFragment, hfr]
                rfl
              have h' := @ReadsAt.inside mem c.toNextFragment g gs 0 (by rw [hnext])
                (fun g' hg' => hvalid g' (List.mem_cons_of_mem f hg')) (Nat.zero_le _)
                (by rw [hnext]; rfl) (by rw [hnext])
              rw [List.drop_zero, ← List.flatMap_cons] at h'
              obtain ⟨h1, h2, h3⟩ := ih h' hi hn
              exact ⟨h1, by rw [h2, hnext], h3⟩
  | case3 i c hlt f fs hfr hleft step =>
      -- a step through the current fragment
      rename_i ih
      rw [IoIteratorConsumer.consumeLoop_of_segment hlt hfr hleft]
      have hstepdef : step = min (n - i) c.segmentBytesLeft := rfl
      rw [← hstepdef]
      cases h with
      | past hfrags => rw [hfrags] at hfr; cases hfr
      | inside g gs j hfrags hvalid hj hindex hend =>
          rw [hfr, List.cons.injEq] at hfrags
          obtain ⟨rfl, rfl⟩ := hfrags
          have hseg := segmentBytesLeft_inside hindex hend
          have hlen := IoFragment.length_content (hvalid f List.mem_cons_self)
          have hstep : step ≤ f.usedBytes - j ∧ step ≤ n - i ∧ 0 < step := by omega
          -- the consumer `step` bytes on reads the bytes after them
          have h' : ReadsAt mem ⟨c.frags, c.fragIndex.map fun p => (p.1, p.2 + step), c.fragIndexEnd,
              c.bytesConsumed + step⟩ (((f.content mem).drop j ++ fs.flatMap (·.content mem)).drop step) := by
            have hmid := @ReadsAt.inside mem ⟨c.frags, c.fragIndex.map fun p => (p.1, p.2 + step),
                c.fragIndexEnd, c.bytesConsumed + step⟩ f fs (j + step) hfr hvalid (by omega)
                (by rw [hindex, Option.map_some, Nat.add_assoc]) hend
            rw [List.drop_append_of_le_length (by rw [List.length_drop]; omega), List.drop_drop]
            exact hmid
          obtain ⟨h1, h2, h3⟩ := ih h' (by omega) (by rw [List.length_drop]; omega)
          refine ⟨h1, by rw [h2]; dsimp only; omega, ?_⟩
          rw [List.drop_drop] at h3
          have hsum : step + (n - (i + step)) = n - i := by omega
          rw [hsum] at h3
          exact h3
  | case4 i c hge =>
      -- the loop is over: the fix-up
      rw [IoIteratorConsumer.consumeLoop_of_not_lt hge]
      have hin : n - i = 0 := by omega
      obtain ⟨hfix, hcons⟩ := h.fixup
      refine ⟨by omega, by rw [hcons, hin, Nat.add_zero], ?_⟩
      rw [hin, List.drop_zero]
      exact hfix

/-- `skip(n)` of at most the bytes left moves the consumer `n` bytes on. -/
theorem skip (h : ReadsAt mem c bytes) {n : Nat} (hn : n ≤ bytes.length) :
    ∃ c', c.skip n = some c' ∧ c'.bytesConsumed = c.bytesConsumed + n ∧ ReadsAt mem c' (bytes.drop n) := by
  obtain ⟨h1, h2, h3⟩ := h.consumeLoop (Nat.zero_le n) (by omega)
  rw [Nat.sub_zero] at h2 h3
  refine ⟨(c.consumeLoop n 0).2, ?_, h2, h3⟩
  simp only [IoIteratorConsumer.skip, h1, if_true]

end ReadsAt

/-! ## `read_varlong` and `read_unsigned_varint` -/

namespace IobufParser

variable {mem : Heap} {p : IobufParser} {bytes : List UInt8}

/-- Unless the parser is at the end of a fragment, `read_varlong` is
    `vint::deserialize` of the bytes left, and moves the parser past the
    bytes it read. -/
theorem readVarlong_of_readsAt (h : ReadsAt mem p.input bytes)
    (hready : p.input.frags = [] ∨ 0 < p.input.segmentBytesLeft) :
    ∃ p', p.readVarlong mem = some (((Vint.deserialize bytes).1, UInt8.ofNat (Vint.deserialize bytes).2), p') ∧
      p'.bytesConsumed = p.bytesConsumed + (Vint.deserialize bytes).2 ∧
      ReadsAt mem p'.input (bytes.drop (Vint.deserialize bytes).2) := by
  have hrange := (h.yields_begin hready).vint_deserializeRange
  have hlen := Vint.bytesRead_deserialize_le_length bytes
  rcases hdes : Vint.deserialize bytes with ⟨val, len⟩
  rw [hdes] at hrange hlen
  obtain ⟨c', hskip, hcons, hreads⟩ := h.skip hlen
  refine ⟨{ p with input := c' }, ?_, hcons, hreads⟩
  rw [readVarlong, hrange]
  simp only [hskip, Option.map_some]

/-- The same for `read_unsigned_varint` and `unsigned_vint::deserialize`. -/
theorem readUnsignedVarint_of_readsAt (h : ReadsAt mem p.input bytes)
    (hready : p.input.frags = [] ∨ 0 < p.input.segmentBytesLeft) :
    ∃ p', p.readUnsignedVarint mem =
        some ((UInt32.ofNat (UnsignedVint.deserialize bytes).1, UInt8.ofNat (UnsignedVint.deserialize bytes).2), p') ∧
      p'.bytesConsumed = p.bytesConsumed + (UnsignedVint.deserialize bytes).2 ∧
      ReadsAt mem p'.input (bytes.drop (UnsignedVint.deserialize bytes).2) := by
  have hrange := (h.yields_begin hready).unsignedVint_deserializeRange
  have hlen := UnsignedVint.bytesRead_deserialize_le_length bytes
  rcases hdes : UnsignedVint.deserialize bytes with ⟨val, len⟩
  rw [hdes] at hrange hlen
  obtain ⟨c', hskip, hcons, hreads⟩ := h.skip hlen
  refine ⟨{ p with input := c' }, ?_, hcons, hreads⟩
  rw [readUnsignedVarint, hrange]
  simp only [hskip, Option.map_some]

theorem bytesConsumed_create (b : Iobuf) : (create b).bytesConsumed = 0 := by
  simp only [bytesConsumed, create]
  cases b.frags <;> rfl

/-- A new parser over an iobuf whose first fragment is not empty reads the
    iobuf's bytes from its first one. -/
theorem create_ready {b : Iobuf} (hfirst : ∀ f ∈ b.frags.head?, 0 < f.usedBytes) :
    (create b).input.frags = [] ∨ 0 < (create b).input.segmentBytesLeft := by
  cases hfr : b.frags with
  | nil =>
      left
      simp only [create, hfr]
      rfl
  | cons f fs =>
      right
      have hpos := hfirst f (by rw [hfr]; rfl)
      simp only [create, hfr, IoIteratorConsumer.create, IoIteratorConsumer.segmentBytesLeft,
        IoFragment.get, IoFragment.getEnd]
      omega

end IobufParser

/-! ## Varints across fragments -/

/-- Every `int64_t` is written in `vint_size` bytes and read back from them
    whatever follows, and so is every `uint32_t` by `unsigned_vint`.  A new
    parser over an iobuf holding those bytes and more, in fragments of
    which the first is not empty, reads the value back with
    `read_varlong` (`read_unsigned_varint`) and consumes exactly those
    bytes.  On every range whatsoever, `vint::deserialize` reads at most
    `max_length` bytes, as does `unsigned_vint::deserialize`. -/
theorem varint_round_trip_and_bounded_read :
    (∀ (x : Int64) (rest : List UInt8),
      (Vint.serialize x).length = Vint.vintSize x ∧
        Vint.deserialize (Vint.serialize x ++ rest) = (x, Vint.vintSize x)) ∧
    (∀ (u : UInt32) (rest : List UInt8),
      (UnsignedVint.serialize u.toNat).length = UnsignedVint.size u.toNat ∧
        UnsignedVint.deserialize (UnsignedVint.serialize u.toNat ++ rest) =
          (u.toNat, UnsignedVint.size u.toNat)) ∧
    (∀ (mem : Heap) (b : Iobuf) (x : Int64) (rest : List UInt8), b.Valid mem →
      (∀ f ∈ b.frags.head?, 0 < f.usedBytes) → b.content mem = Vint.serialize x ++ rest →
      ∃ p, (IobufParser.create b).readVarlong mem = some ((x, UInt8.ofNat (Vint.vintSize x)), p) ∧
        p.bytesConsumed = Vint.vintSize x) ∧
    (∀ (mem : Heap) (b : Iobuf) (u : UInt32) (rest : List UInt8), b.Valid mem →
      (∀ f ∈ b.frags.head?, 0 < f.usedBytes) → b.content mem = UnsignedVint.serialize u.toNat ++ rest →
      ∃ p, (IobufParser.create b).readUnsignedVarint mem =
          some ((u, UInt8.ofNat (UnsignedVint.size u.toNat)), p) ∧
        p.bytesConsumed = UnsignedVint.size u.toNat) ∧
    (∀ (σ : Type) (next : σ → Option (UInt8 × σ)) (s : σ),
      (Vint.deserializeRange next s).2 ≤ Vint.maxLength ∧
        (UnsignedVint.deserializeRange next s).2 ≤ UnsignedVint.maxLength) := by
  refine ⟨?_, ?_, ?_, ?_, ?_⟩
  · intro x rest
    rw [Vint.vintSize_eq_length]
    exact ⟨rfl, Vint.deserialize_serialize x rest⟩
  · intro u rest
    rw [UnsignedVint.size_eq_length]
    exact ⟨rfl, UnsignedVint.deserialize_serialize u.toNat_lt rest⟩
  · -- the parser reads `vint::deserialize` of the iobuf's bytes
    intro mem b x rest hv hfirst hcontent
    have h : ReadsAt mem (IobufParser.create b).input (Vint.serialize x ++ rest) := by
      rw [← hcontent]
      exact ReadsAt.create hv
    obtain ⟨p, hread, hcons, -⟩ := IobufParser.readVarlong_of_readsAt h (IobufParser.create_ready hfirst)
    rw [Vint.deserialize_serialize, ← Vint.vintSize_eq_length] at hread hcons
    exact ⟨p, hread, by rw [hcons, IobufParser.bytesConsumed_create, Nat.zero_add]⟩
  · intro mem b u rest hv hfirst hcontent
    have h : ReadsAt mem (IobufParser.create b).input (UnsignedVint.serialize u.toNat ++ rest) := by
      rw [← hcontent]
      exact ReadsAt.create hv
    obtain ⟨p, hread, hcons, -⟩ :=
      IobufParser.readUnsignedVarint_of_readsAt h (IobufParser.create_ready hfirst)
    rw [UnsignedVint.deserialize_serialize u.toNat_lt, ← UnsignedVint.size_eq_length] at hread hcons
    rw [UInt32.ofNat_toNat] at hread
    exact ⟨p, hread, by rw [hcons, IobufParser.bytesConsumed_create, Nat.zero_add]⟩
  · intro σ next s
    exact ⟨Vint.bytesRead_deserializeRange_le next s, UnsignedVint.bytesRead_deserializeRange_le next s⟩

/-- An iobuf of two fragments, one byte and two bytes of one allocation. -/
def twoFragments : Iobuf := ⟨[⟨⟨0, 0, 1⟩, 1⟩, ⟨⟨0, 1, 2⟩, 2⟩], 3⟩

/-- `300` and a byte `7` after it, its `vint` bytes split across the two
    fragments; the same with its `unsigned_vint` bytes. -/
theorem varint_round_trip_and_bounded_read_sample :
    (twoFragments.Valid [[0xd8, 0x04, 7]] ∧ (∀ f ∈ twoFragments.frags.head?, 0 < f.usedBytes) ∧
      twoFragments.content [[0xd8, 0x04, 7]] = Vint.serialize 300 ++ [7] ∧
      ∃ p, (IobufParser.create twoFragments).readVarlong [[0xd8, 0x04, 7]] =
          some ((300, UInt8.ofNat (Vint.vintSize 300)), p) ∧ p.bytesConsumed = Vint.vintSize 300) ∧
    (twoFragments.Valid [[0xac, 0x02, 7]] ∧ (∀ f ∈ twoFragments.frags.head?, 0 < f.usedBytes) ∧
      twoFragments.content [[0xac, 0x02, 7]] = UnsignedVint.serialize (300 : UInt32).toNat ++ [7] ∧
      ∃ p, (IobufParser.create twoFragments).readUnsignedVarint [[0xac, 0x02, 7]] =
          some ((300, UInt8.ofNat (UnsignedVint.size (300 : UInt32).toNat)), p) ∧
        p.bytesConsumed = UnsignedVint.size (300 : UInt32).toNat) := by
  have hv₁ : twoFragments.Valid [[0xd8, 0x04, 7]] := ⟨by decide, by decide⟩
  have hv₂ : twoFragments.Valid [[0xac, 0x02, 7]] := ⟨by decide, by decide⟩
  have hfirst : ∀ f ∈ twoFragments.frags.head?, 0 < f.usedBytes := by decide
  have hc₁ : twoFragments.content [[0xd8, 0x04, 7]] = Vint.serialize 300 ++ [7] := by decide
  have hc₂ : twoFragments.content [[0xac, 0x02, 7]] = UnsignedVint.serialize (300 : UInt32).toNat ++ [7] := by
    decide
  exact ⟨⟨hv₁, hfirst, hc₁, varint_round_trip_and_bounded_read.2.2.1 _ _ 300 [7] hv₁ hfirst hc₁⟩,
    ⟨hv₂, hfirst, hc₂, varint_round_trip_and_bounded_read.2.2.2.1 _ _ 300 [7] hv₂ hfirst hc₂⟩⟩

/-- A byte `0x2a` in memory and an iobuf whose one fragment is an empty
    view of it: `append(std::unique_ptr<fragment>)` of a fragment made of
    `share(0, 0)` of a buffer that holds the byte. -/
def emptyViewFirst : Heap × Iobuf :=
  Iobuf.appendFragment [[0x2a]] Iobuf.empty (IoFragment.ofBuffer ⟨0, 0, 0⟩)

/-- Then `append` of the two bytes of `vint::serialize(300)`, which go to a
    new fragment after the empty one. -/
def emptyViewThen300 : Heap × Iobuf :=
  Iobuf.append emptyViewFirst.1 emptyViewFirst.2 (Vint.serialize 300)

/-- The iobuf holds exactly the bytes of `300`, but `read_varlong` reads the
    byte the empty first fragment points at: it returns `21` (the zigzag
    decoding of `0x2a`) with length `1`, and skips the first byte of `300`. -/
theorem read_varlong_reads_empty_fragment_view :
    emptyViewThen300.2.content emptyViewThen300.1 = Vint.serialize 300 ∧
      emptyViewThen300.2.Valid emptyViewThen300.1 ∧
      ((IobufParser.create emptyViewThen300.2).readVarlong emptyViewThen300.1).map
          (fun r => (r.1, r.2.bytesConsumed)) = some ((21, 1), 1) :=
  ⟨by decide +kernel, ⟨by decide +kernel, by decide +kernel⟩, by decide +kernel⟩

end Bytes
