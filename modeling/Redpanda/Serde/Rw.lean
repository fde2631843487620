import Redpanda.Lib.ByteCodec

/-! # Serde: writing and reading envelopes

    `serde::to_iobuf` and `serde::from_iobuf` over the types an envelope is
    built from: integers, `bool`, `float` and `double`, enums, `std::optional`,
    vectors, and nested envelopes and checksum envelopes.  A `named_type<T>`
    is written and read as its `T`, so it is its `T` here.

    * **`write`** is `write_tag`: a scalar's little-endian bytes, an enum as
      an `int32_t`, an optional's `bool` and value, a vector's `uint32_t`
      count and elements, and an envelope's header (version, compat version,
      `uint32_t` size of the fields, the crc32c of the fields for a checksum
      envelope) before its fields.  The throws are `none`.
    * **`read`** is `read_nested` with its `bytes_left_limit`: an envelope
      reads its header (`read_header`, with the two version checks), checks
      the crc, reads each field until the parser reaches the envelope's end,
      keeps the default of every field after it, and skips what is left of
      the envelope.
    * **`cppEq`** is the `operator==` the types default to, with the IEEE
      comparison of floating point values.

    The crc32c is a parameter: any function of the bytes it is computed
    over. -/

namespace Serde

open ByteCodec

/-- The size of a C++ integer type. -/
inductive Width where
  | one | two | four | eight
deriving DecidableEq, Repr

def Width.bytes : Width → Nat
  | one => 1
  | two => 2
  | four => 4
  | eight => 8

/-- A value of a serde type: an integer or an enum by its underlying value,
    a `float` or a `double` by its bits. -/
inductive Value where
  | int (n : Int)
  | bool (b : Bool)
  | float (bits : Nat)
  | optional (v : Option Value)
  | vector (vs : List Value)
  | envelope (fields : List Value)

/-- The serde types.  An envelope lists its fields in order, each with the
    value its default constructor gives it. -/
inductive SerdeType where
  | int (width : Width) (signed : Bool)
  | bool
  | float
  | double
  | enum (width : Width) (signed : Bool)
  | optional (t : SerdeType)
  | vector (t : SerdeType)
  | envelope (version compatVersion : UInt8) (checksum : Bool) (fields : List (SerdeType × Value))

/-- The two's complement bits of `n` in `k` bytes. -/
def toBits (k : Nat) (n : Int) : Nat := (n % 2 ^ (8 * k)).toNat

/-- The integer with these `k`-byte bits, signed or not. -/
def ofBits (k : Nat) (signed : Bool) (b : Nat) : Int :=
  if signed ∧ 2 ^ (8 * k - 1) ≤ b then b - 2 ^ (8 * k) else b

/-- `std::numeric_limits<T>::max()` of an integer type. -/
def maxOf (w : Width) (signed : Bool) : Int :=
  if signed then 2 ^ (8 * w.bytes - 1) - 1 else 2 ^ (8 * w.bytes) - 1

/-- `serde_size_t`. -/
def maxSize : Nat := 2 ^ 32 - 1

/-! ## `write_tag` -/

section Write

variable (crc : List UInt8 → UInt32)

mutual

def write : SerdeType → Value → Option (List UInt8)
  | .int w _, .int n => some (leBytes w.bytes (toBits w.bytes n))
  | .bool, .bool b => some (leBytes 1 (if b then 1 else 0))
  | .float, .float bits => some (leBytes 4 bits)
  | .double, .float bits => some (leBytes 8 bits)
  | .enum _ _, .int n =>
      -- `std::in_range<serde_enum_serialized_t>(val)`
      if n < -2 ^ 31 ∨ 2 ^ 31 ≤ n then none else some (leBytes 4 (toBits 4 n))
  | .optional _, .optional none => some (leBytes 1 0)
  | .optional t, .optional (some v) => (leBytes 1 1 ++ ·) <$> write t v
  | .vector t, .vector vs =>
      if vs.length > maxSize then none
      else (fun parts => leBytes 4 vs.length ++ parts.flatten) <$> vs.mapM (write t)
  | .envelope version compatVersion checksum fields, .envelope xs => do
      let body ← writeFields fields xs
      if body.length > maxSize then none
      else
        some ([version, compatVersion] ++ leBytes 4 body.length ++
          (if checksum then leBytes 4 (crc body).toNat else []) ++ body)
  | _, _ => none

/-- `envelope_for_each_field` with `write`. -/
def writeFields : List (SerdeType × Value) → List Value → Option (List UInt8)
  | [], [] => some []
  | (t, _) :: fields, x :: xs => do
      let a ← write t x
      let b ← writeFields fields xs
      pure (a ++ b)
  | _, _ => none

end

/-- `crc32c::Extend` of google/crc32c, bit by bit: the reflected
    Castagnoli polynomial, with the value inverted before and after. -/
def crc32cExtend (crc : UInt32) (bs : List UInt8) : UInt32 :=
  let step (c : UInt32) : UInt32 := if c &&& 1 = 1 then (c >>> 1) ^^^ 0x82F63B78 else c >>> 1
  ~~~(bs.foldl (fun c b => (List.range 8).foldl (fun c _ => step c) (c ^^^ b.toUInt32)) (~~~crc))

/-- `crc::crc32c` of `hashing/crc32c.h`, extended from `0` over the bytes. -/
def crc32c (bs : List UInt8) : UInt32 := crc32cExtend 0 bs

/-- `serde::to_iobuf`. -/
def toIobuf (t : SerdeType) (v : Value) : Option (List UInt8) := write crc t v

end Write

/-! ## `operator==` -/

/-- The bits of an IEEE NaN with `e` exponent and `m` mantissa bits: every
    exponent bit set and a mantissa other than zero. -/
def isNaN (e m x : Nat) : Bool := (x >>> m) % 2 ^ e == 2 ^ e - 1 && x % 2 ^ m != 0

/-- IEEE equality of two floating point values by their bits: a NaN equals
    nothing, and the two zeros are equal. -/
def ieeeEq (e m : Nat) (a b : Nat) : Bool :=
  let isZero (x : Nat) := x % 2 ^ (e + m) == 0
  !isNaN e m a && !isNaN e m b && (a == b || isZero a && isZero b)

mutual

/-- The defaulted `operator==` of a serde type. -/
def cppEq : SerdeType → Value → Value → Bool
  | .int _ _, .int a, .int b => a == b
  | .enum _ _, .int a, .int b => a == b
  | .bool, .bool a, .bool b => a == b
  | .float, .float a, .float b => ieeeEq 8 23 a b
  | .double, .float a, .float b => ieeeEq 11 52 a b
  | .optional _, .optional none, .optional none => true
  | .optional t, .optional (some a), .optional (some b) => cppEq t a b
  | .vector t, .vector as, .vector bs =>
      as.length == bs.length && (as.zip bs).all fun p => cppEq t p.1 p.2
  | .envelope _ _ _ fields, .envelope xs, .envelope ys => fieldsEq fields xs ys
  | _, _, _ => false

/-- Field by field. -/
def fieldsEq : List (SerdeType × Value) → List Value → List Value → Bool
  | [], [], [] => true
  | (t, _) :: fields, x :: xs, y :: ys => cppEq t x y && fieldsEq fields xs ys
  | _, _, _ => false

end

/-! ## `read_tag` -/

/-- `read_tag` of a scalar of `k` bytes: the limit check, then
    `consume_type`.  `in.bytes_left() - bytes_left_limit` is a `size_t`, so
    the check does not fire once the parser is past the limit. -/
def readScalar (k lim : Nat) : Decoder Nat := do
  let left ← bytesLeft
  if lim ≤ left ∧ left - lim < k then failure else readLE k

/-- `serde::header`. -/
structure Header where
  version : Nat
  compatVersion : Nat
  bytesLeftLimit : Nat
  checksum : Nat

/-- The checksum of a checksum envelope's header; `checksum_t{}` for a plain
    envelope, which has none. -/
def readChecksum (checksum : Bool) (lim : Nat) : Decoder Nat :=
  if checksum then readScalar 4 lim else pure 0

/-- `read_header` of an envelope of this version, compat version and kind. -/
def readHeader (version compatVersion : UInt8) (checksum : Bool) (lim : Nat) : Decoder Header := do
  let v ← readScalar 1 lim
  let c ← readScalar 1 lim
  let size ← readScalar 4 lim
  let sum ← readChecksum checksum lim
  let left ← bytesLeft
  if left < size then failure
  else if left - size < lim then failure
  else if c > version.toNat then failure
  else if v < compatVersion.toNat then failure
  else pure ⟨v, c, left - size, sum⟩

/-- The `if (in.bytes_left() > h._bytes_left_limit)` at the end of an
    envelope: skip the fields this reader does not know. -/
def skipToEnd (limit : Nat) : Decoder Unit := do
  let left ← bytesLeft
  if left > limit then skip (left - limit) else pure ()

section Read

variable (crc : List UInt8 → UInt32)

/-- The crc32c check of a checksum envelope, over the bytes up to its end,
    which it does not consume. -/
def checkCrc (checksum : Bool) (h : Header) : Decoder Unit :=
  if checksum then do
    let left ← bytesLeft
    let body ← peek (left - h.bytesLeftLimit)
    if (crc body).toNat ≠ h.checksum then failure else pure ()
  else pure ()

mutual

/-- `read_nested` with the limit `lim`. -/
def read (lim : Nat) : SerdeType → Decoder Value
  | .int w signed => (fun b => .int (ofBits w.bytes signed b)) <$> readScalar w.bytes lim
  | .bool => (fun b => .bool (b ≠ 0)) <$> readScalar 1 lim
  | .float => .float <$> readScalar 4 lim
  | .double => .float <$> readScalar 8 lim
  | .enum w signed => do
      let val := ofBits 4 true (← readScalar 4 lim)
      if val > maxOf w signed then failure
      else pure (.int (ofBits w.bytes signed (toBits w.bytes val)))
  | .optional t => do
      let present ← readScalar 1 lim
      if present ≠ 0 then (fun v => .optional (some v)) <$> read lim t
      else pure (.optional none)
  | .vector t => do
      let size ← readScalar 4 lim
      .vector <$> many (read lim t) size
  | .envelope version compatVersion checksum fields => do
      let h ← readHeader version compatVersion checksum lim
      checkCrc crc checksum h
      let xs ← readFields lim h.bytesLeftLimit fields
      skipToEnd h.bytesLeftLimit
      pure (.envelope xs)

/-- `envelope_for_each_field` with `read_nested`: a field is read while the
    parser has not reached the envelope's end `limit`, and every field from
    there on keeps its default. -/
def readFields (lim limit : Nat) : List (SerdeType × Value) → Decoder (List Value)
  | [] => pure []
  | (t, default) :: fields => do
      let left ← bytesLeft
      if limit = left then pure (default :: fields.map Prod.snd)
      else if left < limit then failure
      else do
        let x ← read lim t
        let xs ← readFields lim limit fields
        pure (x :: xs)

end

/-- `serde::from_iobuf`: `read_nested` with no limit, then every byte must
    have been read. -/
def fromIobuf (t : SerdeType) (bs : List UInt8) : Option Value :=
  (do
    let v ← read crc 0 t
    let left ← bytesLeft
    if left ≠ 0 then failure else pure v : Decoder Value).run' bs

end Read

end Serde
