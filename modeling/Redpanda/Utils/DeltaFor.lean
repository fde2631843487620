import Mathlib
import Redpanda.Lib.ByteCodec

/-! # Delta-FOR encoding

    `utils/delta_for.h`: rows of sixteen 64-bit values are delta encoded
    against the value before them, then bit packed with the fewest bits
    that hold every delta of the row.

    * **`encode`/`decode`** are `details::delta_xor` (each value XOR the one
      before) and `details::delta_delta` (each value minus the one before,
      minus the step), with the two `vassert`s of the latter.  A value is its
      64-bit pattern; `IntType` says how `TVal` reads it, and a signed
      overflow, undefined behaviour, is `none` like a failed `vassert`.
    * **`pack`/`unpack`** are the 65 specialisations `pack<N_BITS>` and
      `unpack<N_BITS>` as one function of `N_BITS`: the words of
      `unsigned_decomposition<N_BITS>` for every value, then the residual
      bits of the sixteen values in one `__uint128_t`.  Bit patterns are
      `Nat`s, and the shifts of a `uint64_t` and of a `__uint128_t` keep
      their widths (`shl64`, `shl128`).
    * **`DeltaforEncoder.add`** writes the `nbits` byte and the packed row;
      **`DeltaforDecoder.read`** reads them back and decodes until it has
      read `_total` rows.

    A row is a `std::array<TVal, 16>`; here it is a list, of length
    `rowWidth` wherever it is built. -/

namespace DeltaFor

open ByteCodec

/-- `details::FOR_buffer_depth`, the `row_width` of the encoder. -/
def rowWidth : Nat := 16

/-- The value type `TVal`. -/
inductive IntType where
  | int64
  | uint64
deriving DecidableEq, Repr

namespace IntType

/-- The value of a 64-bit pattern. -/
def toInt : IntType → UInt64 → Int
  | int64, a => if a.toNat < 2 ^ 63 then a.toNat else a.toNat - 2 ^ 64
  | uint64, a => a.toNat

/-- `std::numeric_limits<TVal>::min()`. -/
def minValue : IntType → Int
  | int64 => -2 ^ 63
  | uint64 => 0

/-- `std::numeric_limits<TVal>::max()`. -/
def maxValue : IntType → Int
  | int64 => 2 ^ 63 - 1
  | uint64 => 2 ^ 64 - 1

/-- `a <= b` on `TVal`. -/
def le (ty : IntType) (a b : UInt64) : Bool := decide (ty.toInt a ≤ ty.toInt b)

/-- A result of arithmetic on `TVal` that is undefined behaviour: signed
    arithmetic out of range.  Unsigned arithmetic wraps. -/
def overflows : IntType → Int → Bool
  | int64, x => x < int64.minValue || int64.maxValue < x
  | uint64, _ => false

/-- `a - b` on `TVal`. -/
def sub (ty : IntType) (a b : UInt64) : Option UInt64 :=
  if ty.overflows (ty.toInt a - ty.toInt b) then none else some (a - b)

/-- `a + b` on `TVal`. -/
def add (ty : IntType) (a b : UInt64) : Option UInt64 :=
  if ty.overflows (ty.toInt a + ty.toInt b) then none else some (a + b)

end IntType

/-- The `DeltaStep` of the encoder: `details::delta_xor`, or
    `details::delta_delta` with its `_step_size`. -/
inductive DeltaStep where
  | xor
  | delta (step : UInt64)
deriving DecidableEq, Repr

/-- `std::bit_width`. -/
def bitWidth (x : UInt64) : Nat := x.toNat.size

/-! ## `delta_xor` and `delta_delta` -/

/-- The loop of `delta_xor::encode` from the previous value `p`: the deltas
    and the OR `agg` of them. -/
def xorEncode : UInt64 → UInt64 → List UInt64 → List UInt64 × UInt64
  | _, agg, [] => ([], agg)
  | p, agg, r :: row =>
      let b := r ^^^ p
      let (buf, agg) := xorEncode r (agg ||| b) row
      (b :: buf, agg)

/-- The loop of `delta_xor::decode`: the values and the last of them. -/
def xorDecode : UInt64 → List UInt64 → List UInt64 × UInt64
  | p, [] => ([], p)
  | p, b :: row =>
      let r := b ^^^ p
      let (row, p) := xorDecode r row
      (r :: row, p)

/-- The loop of `delta_delta::encode`: `vassert(row[i] >= p)`, the delta,
    `vassert(delta >= _step_size)`, and `(row[i] - p) - _step_size`. -/
def deltaEncode (ty : IntType) (step : UInt64) : UInt64 → UInt64 → List UInt64 →
    Option (List UInt64 × UInt64)
  | _, agg, [] => some ([], agg)
  | p, agg, r :: row =>
      if ty.le p r then
        (ty.sub r p).bind fun delta =>
          if ty.le step delta then
            (ty.sub delta step).bind fun b =>
              (deltaEncode ty step r (agg ||| b) row).map fun res => (b :: res.1, res.2)
          else none
      else none

/-- The loop of `delta_delta::decode`: `row[i] + p + _step_size`. -/
def deltaDecode (ty : IntType) (step : UInt64) : UInt64 → List UInt64 →
    Option (List UInt64 × UInt64)
  | p, [] => some ([], p)
  | p, b :: row => do
      let s ← ty.add b p
      let r ← ty.add s step
      let res ← deltaDecode ty step r row
      pure (r :: res.1, res.2)

/-- `DeltaStep::encode`: the deltas of a row after `last` and the bit width
    of their OR. -/
def encode (ty : IntType) : DeltaStep → UInt64 → List UInt64 → Option (List UInt64 × Nat)
  | .xor, last, row => some ((xorEncode last 0 row).1, bitWidth (xorEncode last 0 row).2)
  | .delta step, last, row =>
      (deltaEncode ty step last 0 row).map fun res => (res.1, bitWidth res.2)

/-- `DeltaStep::decode`: the row back from its deltas, and its last value. -/
def decode (ty : IntType) : DeltaStep → UInt64 → List UInt64 → Option (List UInt64 × UInt64)
  | .xor, initial, row => some (xorDecode initial row)
  | .delta step, initial, row => deltaDecode ty step initial row

/-! ## `details::decomp` -/

/-- The loop of `detail_decomp`: each word size is in use when the bits
    left hold it. -/
def detailDecompGo : List Nat → Nat → List (Bool × Nat)
  | [], _ => []
  | sz :: szs, rem =>
      if rem ≥ sz then (true, sz) :: detailDecompGo szs (rem - sz)
      else (false, sz) :: detailDecompGo szs rem

/-- `detail_decomp<N_BITS>`, over the words of `uint64_t` down to
    `uint8_t`. -/
def detailDecomp (n : Nat) : List (Bool × Nat) := detailDecompGo [64, 32, 16, 8] n

/-- The loop of `unsigned_decomposition`, with the bits `acc` before the
    next word. -/
def unsignedDecompositionGo : Nat → List (Bool × Nat) → List (Nat × Nat)
  | _, [] => []
  | acc, (inUse, sz) :: rest =>
      if inUse then (sz / 8, acc) :: unsignedDecompositionGo (acc + sz) rest
      else unsignedDecompositionGo acc rest

/-- `unsigned_decomposition<N_BITS>`: the (bytes to save, bit offset) of
    each word in use. -/
def unsignedDecomposition (n : Nat) : List (Nat × Nat) :=
  unsignedDecompositionGo 0 (detailDecomp n)

example : unsignedDecomposition 41 = [(4, 0), (1, 32)] := by decide

example : unsignedDecomposition 63 = [(4, 0), (2, 32), (1, 48)] := by decide

/-- `whole_bytes<N_BITS>`. -/
def wholeBytes (n : Nat) : Nat := n / 8

/-- `residual_bits<N_BITS>`. -/
def residualBits (n : Nat) : Nat := n % 8

/-- `residual_save_mask<N_BITS>`. -/
def residualSaveMask (n : Nat) : Nat := if n = 64 then 2 ^ 64 - 1 else 2 ^ n - 1

/-- `serialized_size<N_BITS, NUM_ELEMENTS>`. -/
def serializedSize (n numElements : Nat) : Nat :=
  wholeBytes n * numElements + residualBits n * numElements / 8

/-- `x << k` on a `uint64_t`. -/
def shl64 (x k : Nat) : Nat := (x <<< k) % 2 ^ 64

/-- `x << k` on a `__uint128_t`. -/
def shl128 (x k : Nat) : Nat := (x <<< k) % 2 ^ 128

/-! ## `pack` -/

/-- Step 1 of `pack<N_BITS>` for the word of `b` bytes at bit `s`:
    `serialize_little_endian<b>(e >> s)` of every value. -/
def packWord (b s : Nat) (input : List Nat) : List UInt8 :=
  input.flatMap fun e => leBytes b (e >>> s)

/-- Step 2 of `pack<N_BITS>`: the residual bits of value `i`, masked and
    shifted down to zero, at bit `residual * i` of a `__uint128_t`. -/
def residualPack (n : Nat) (input : List Nat) : Nat :=
  (input.zipIdx.map fun p =>
    shl128 ((p.1 &&& residualSaveMask n) >>> (wholeBytes n * 8)) (residualBits n * p.2)).foldr
    (· ||| ·) 0

/-- `pack<N_BITS>` for `N_BITS > 0`: the words, then the residual bits in
    `residual * row_width / 8` bytes. -/
def packBits (n : Nat) (input : List Nat) : List UInt8 :=
  (unsignedDecomposition n).flatMap (fun w => packWord w.1 w.2 input) ++
    if residualBits n > 0 then leBytes (residualBits n * rowWidth / 8) (residualPack n input)
    else []

/-- `pack(input, nbits)`: the switch over `0..64`; `pack<0>` writes
    nothing. -/
def pack (nbits : Nat) (input : List UInt64) : List UInt8 :=
  if 0 < nbits ∧ nbits ≤ 64 then packBits nbits (input.map UInt64.toNat) else []

/-! ## `unpack` -/

/-- Step 1 of `unpack<N_BITS>` for one word: `e |= tmp << s` with `tmp` the
    next `b` bytes. -/
def unpackWord (b s : Nat) : List Nat → List UInt8 → List Nat × List UInt8
  | [], buf => ([], buf)
  | e :: es, buf =>
      let (es, rest) := unpackWord b s es (buf.drop b)
      ((e ||| shl64 (ofLE (buf.take b)) s) :: es, rest)

/-- Step 1 over the words of the decomposition. -/
def unpackWords : List (Nat × Nat) → List Nat → List UInt8 → List Nat × List UInt8
  | [], es, buf => (es, buf)
  | (b, s) :: ws, es, buf =>
      let (es, buf) := unpackWord b s es buf
      unpackWords ws es buf

/-- Step 2 of `unpack<N_BITS>`: `output[i] |= ((bits >> (residual * i)) <<
    prev_saved_bits) & mask`. -/
def residualUnpack (n bits : Nat) (output : List Nat) : List Nat :=
  output.zipIdx.map fun p =>
    p.1 ||| (shl128 (bits >>> (residualBits n * p.2)) (wholeBytes n * 8) &&& residualSaveMask n)

/-- `unpack<N_BITS>` for `N_BITS > 0` over the bytes it consumed. -/
def unpackBits (n : Nat) (output : List Nat) (buf : List UInt8) : List Nat :=
  let (es, rest) := unpackWords (unsignedDecomposition n) output buf
  if residualBits n > 0 then
    residualUnpack n (ofLE (rest.take (residualBits n * rowWidth / 8))) es
  else es

/-- `unpack(output, n)`: the switch over `0..64`.  `unpack<N_BITS>` fills
    the row with zeros, consumes `serialized_size` bytes (the parser throws
    when there are fewer) and puts the bits back; for `n > 64` no case
    matches and the row is left as it was. -/
def unpack (n : Nat) (output : List UInt64) : Decoder (List UInt64) :=
  if n ≤ 64 then
    let zeros := List.replicate rowWidth 0
    if 0 < n then
      (fun buf => (unpackBits n zeros buf).map UInt64.ofNat) <$> take (serializedSize n rowWidth)
    else pure (zeros.map UInt64.ofNat)
  else pure output

/-! ## The encoder and the decoder -/

/-- `deltafor_encoder`: `_initial`, `_last`, `_data`, `_cnt` and
    `_delta`. -/
structure DeltaforEncoder where
  initial : UInt64
  last : UInt64
  data : List UInt8
  cnt : UInt32
  delta : DeltaStep
deriving DecidableEq, Repr

/-- `deltafor_encoder(initial_value, delta)`. -/
def DeltaforEncoder.init (initialValue : UInt64) (delta : DeltaStep) : DeltaforEncoder :=
  ⟨initialValue, initialValue, [], 0, delta⟩

/-- `deltafor_encoder::add`: the `nbits` byte, then the packed deltas. -/
def DeltaforEncoder.add (ty : IntType) (e : DeltaforEncoder) (row : List UInt64) :
    Option DeltaforEncoder :=
  (encode ty e.delta e.last row).map fun res =>
    { e with
      last := row.getLastD e.last
      data := e.data ++ UInt8.ofNat res.2 :: pack res.2 res.1
      cnt := e.cnt + 1 }

/-- `add` of each row in turn. -/
def DeltaforEncoder.addAll (ty : IntType) (e : DeltaforEncoder) : List (List UInt64) →
    Option DeltaforEncoder
  | [] => some e
  | row :: rows => (e.add ty row).bind fun e => e.addAll ty rows

/-- `get_row_count`. -/
def DeltaforEncoder.getRowCount (e : DeltaforEncoder) : UInt32 := e.cnt

/-- `copy`: the encoded bytes. -/
def DeltaforEncoder.copy (e : DeltaforEncoder) : List UInt8 := e.data

/-- `deltafor_decoder`: `_initial`, `_total`, `_pos`, the parser over
    `_data`, and `_delta`. -/
structure DeltaforDecoder where
  initial : UInt64
  total : UInt32
  pos : UInt32
  data : List UInt8
  delta : DeltaStep
deriving DecidableEq, Repr

/-- `deltafor_decoder(initial_value, cnt, data, delta)`. -/
def DeltaforDecoder.init (initialValue : UInt64) (cnt : UInt32) (data : List UInt8)
    (delta : DeltaStep) : DeltaforDecoder :=
  ⟨initialValue, cnt, 0, data, delta⟩

/-- The bytes `read` consumes: `consume_type<uint8_t>()`, then `unpack`. -/
def readRow (row : List UInt64) : Decoder (List UInt64) := do
  let nbits ← readLE 1
  unpack nbits row

/-- `deltafor_decoder::read` into the buffer `row`: `false` once `_total`
    rows are read, and otherwise the row decoded from `_initial`.  A throw
    of the parser and an overflow in `decode` are `none`. -/
def DeltaforDecoder.read (ty : IntType) (d : DeltaforDecoder) (row : List UInt64) :
    Option (Bool × List UInt64 × DeltaforDecoder) :=
  if d.pos = d.total then some (false, row, d)
  else
    ((readRow row).run d.data).bind fun res =>
      (decode ty d.delta d.initial res.1).map fun dec =>
        (true, dec.1, { d with initial := dec.2, pos := d.pos + 1, data := res.2 })

/-- `read` into one buffer until it returns `false`, at most `fuel` times:
    the rows it filled, `none` when the fuel runs out first. -/
def DeltaforDecoder.readAll (ty : IntType) : Nat → DeltaforDecoder → List UInt64 →
    Option (List (List UInt64))
  | 0, _, _ => none
  | fuel + 1, d, row =>
      (d.read ty row).bind fun res =>
        if res.1 then (res.2.1 :: ·) <$> readAll ty fuel res.2.2 res.2.1 else some []

end DeltaFor
