import Redpanda.Lib.ByteCodec
import Redpanda.Utils.Vint
import Redpanda.Strings.Utf8

/-! # The Kafka wire primitives

    Model of `kafka::protocol::decoder` and `kafka::protocol::encoder`
    (`kafka/protocol/wire.h`).  The input of a decoder is the bytes that the
    `iobuf_parser` has left, as one sequence: the parser reads through the
    fragments of the `iobuf` in order, so how the bytes are split does not
    show.  A read that throws is a decoder that fails.

    An encoder method appends bytes to the output `iobuf` and returns a
    `uint32_t`; each is modelled as the bytes it appends and the number it
    returns, computed the way the method computes it.  `write_array`,
    `write_flex_array` and `write_tags` measure the buffer before and after,
    so they take the length of the buffer they start from.  A
    `float64_t` is its IEEE 754 bit pattern (`bit_cast` to and from
    `int64_t`); a `ss::sstring` or `bytes` is its byte sequence. -/

namespace Kafka.Protocol

open ByteCodec

/-- `uuid`: its 16 bytes. -/
structure Uuid where
  bytes : List UInt8
  length_bytes : bytes.length = 16
deriving DecidableEq

/-- `tagged_fields`: a `btree_map` from tag id to bytes, so its ids are
    strictly ascending. -/
structure TaggedFields where
  fields : List (UInt32 × List UInt8)
  ascending : fields.Pairwise (fun a b => a.1 < b.1)

namespace TaggedFields

/-- `btree_map::emplace`: the pair goes in its place, unless the id is
    already there. -/
def emplaceList (id : UInt32) (b : List UInt8) :
    List (UInt32 × List UInt8) → List (UInt32 × List UInt8)
  | [] => [(id, b)]
  | (k, v) :: rest =>
      if id < k then (id, b) :: (k, v) :: rest
      else if id = k then (k, v) :: rest
      else (k, v) :: emplaceList id b rest

theorem mem_emplaceList {id : UInt32} {b : List UInt8} {p : UInt32 × List UInt8} :
    ∀ {l : List (UInt32 × List UInt8)}, p ∈ emplaceList id b l → p ∈ l ∨ p = (id, b)
  | [], h => by simpa [emplaceList] using h
  | (k, v) :: rest, h => by
      simp only [emplaceList] at h
      split at h
      · simp only [List.mem_cons] at h
        rcases h with rfl | h
        · exact .inr rfl
        · exact .inl (List.mem_cons.mpr h)
      · split at h
        · exact .inl h
        · rcases List.mem_cons.mp h with rfl | h
          · exact .inl (List.mem_cons_self ..)
          · rcases mem_emplaceList h with h | h
            · exact .inl (List.mem_cons_of_mem _ h)
            · exact .inr h

theorem emplaceList_ascending (id : UInt32) (b : List UInt8) :
    ∀ {l : List (UInt32 × List UInt8)}, l.Pairwise (fun a b => a.1 < b.1) →
      (emplaceList id b l).Pairwise (fun a b => a.1 < b.1)
  | [], _ => List.pairwise_singleton _ _
  | (k, v) :: rest, h => by
      obtain ⟨hk, hrest⟩ := List.pairwise_cons.mp h
      simp only [emplaceList]
      split
      · rename_i hlt
        refine List.Pairwise.cons ?_ h
        intro p hp
        rcases List.mem_cons.mp hp with rfl | hp
        · exact hlt
        · exact UInt32.lt_trans hlt (hk p hp)
      · split
        · exact h
        · rename_i hnlt hne
          refine List.Pairwise.cons ?_ (emplaceList_ascending id b hrest)
          intro p hp
          rcases mem_emplaceList hp with hp | rfl
          · exact hk p hp
          · show k < id
            have : k ≤ id := UInt32.not_lt.mp hnlt
            exact UInt32.lt_of_le_of_ne this (Ne.symm hne)

def emplace (t : TaggedFields) (id : UInt32) (b : List UInt8) : TaggedFields :=
  ⟨emplaceList id b t.fields, emplaceList_ascending id b t.ascending⟩

def empty : TaggedFields := ⟨[], List.Pairwise.nil⟩

end TaggedFields

/-! ## `decoder` -/

/-- `read_bool`: `bool(consume_type<int8_t>())`. -/
def readBool : Decoder Bool := (fun n => decide (n ≠ 0)) <$> readBE 1

/-- `read_int8`: `consume_type<int8_t>`. -/
def readInt8 : Decoder Int8 := (fun n => Int8.ofBitVec (BitVec.ofNat 8 n)) <$> readBE 1

/-- `read_int16`: `consume_be_type<int16_t>`. -/
def readInt16 : Decoder Int16 := (fun n => Int16.ofBitVec (BitVec.ofNat 16 n)) <$> readBE 2

/-- `read_int32`: `consume_be_type<int32_t>`. -/
def readInt32 : Decoder Int32 := (fun n => Int32.ofBitVec (BitVec.ofNat 32 n)) <$> readBE 4

/-- `read_int64`: `consume_be_type<int64_t>`. -/
def readInt64 : Decoder Int64 := (fun n => Int64.ofBitVec (BitVec.ofNat 64 n)) <$> readBE 8

/-- `read_varlong`: `vint::deserialize`, then `skip` of the bytes it took. -/
def readVarlong : Decoder Int64 := fun bytes =>
  let (i, n) := Vint.deserialize bytes
  some (i, bytes.drop n)

/-- `read_varint`: `static_cast<int32_t>(read_varlong())`. -/
def readVarint : Decoder Int32 := Int64.toInt32 <$> readVarlong

/-- `read_unsigned_varint`. -/
def readUnsignedVarint : Decoder UInt32 := fun bytes =>
  let (i, n) := UnsignedVint.deserialize bytes
  some (UInt32.ofNat i, bytes.drop n)

/-- `read_float64`: the bits of `read_int64()`. -/
def readFloat64 : Decoder UInt64 := Int64.toUInt64 <$> readInt64

/-- `read_uuid`: `consume_type<uuid::underlying_t>`. -/
def readUuid : Decoder Uuid := fun bytes =>
  if h : 16 ≤ bytes.length then
    some (⟨bytes.take 16, by rw [List.length_take]; omega⟩, bytes.drop 16)
  else none

/-- `iobuf_parser::read_string`: `len` bytes, which `validate_utf8` must
    accept. -/
def parserReadString (len : Nat) : Decoder (List UInt8) := do
  let str ← take len
  if Utf8.validateUtf8 str then pure str else failure

/-- `do_read_string`. -/
def doReadString (n : Int16) : Decoder (List UInt8) :=
  if n < 0 then failure else parserReadString n.toInt.toNat

/-- `do_read_flex_string`. -/
def doReadFlexString (n : UInt32) : Decoder (List UInt8) :=
  if n = 0 then failure else parserReadString (n.toNat - 1)

/-- `read_string`. -/
def readString : Decoder (List UInt8) := readInt16 >>= doReadString

/-- `read_flex_string`. -/
def readFlexString : Decoder (List UInt8) := readUnsignedVarint >>= doReadFlexString

/-- `read_nullable_string`. -/
def readNullableString : Decoder (Option (List UInt8)) := do
  let n ← readInt16
  if n < 0 then pure none else some <$> doReadString n

/-- `read_nullable_flex_string`. -/
def readNullableFlexString : Decoder (Option (List UInt8)) := do
  let n ← readUnsignedVarint
  if n = 0 then pure none else some <$> doReadFlexString n

/-- The `size_t` that an `int32_t` converts to. -/
def sizeOfInt32 (n : Int32) : Nat := (n.toInt % 2 ^ 64).toNat

/-- `read_bytes`: `_parser.read_bytes(read_int32())`. -/
def readBytes : Decoder (List UInt8) := do
  let n ← readInt32
  take (sizeOfInt32 n)

/-- `read_flex_bytes`. -/
def readFlexBytes : Decoder (List UInt8) := do
  let n ← readUnsignedVarint
  if n = 0 then failure else take (n.toNat - 1)

/-- `read_nullable_iobuf`: the bytes shared, with the length read. -/
def readNullableIobuf : Decoder (List UInt8 × Int32) := do
  let len ← readInt32
  if len < 0 then pure ([], len)
  else do
    let ret ← take (sizeOfInt32 len)
    pure (ret, len)

/-- `read_fragmented_nullable_bytes`. -/
def readFragmentedNullableBytes : Decoder (Option (List UInt8)) := do
  let (io, count) ← readNullableIobuf
  if count < 0 then pure none else pure (some io)

/-- `read_fragmented_nullable_flex_bytes`. -/
def readFragmentedNullableFlexBytes : Decoder (Option (List UInt8)) := do
  let len ← readUnsignedVarint
  if len = 0 then pure none else some <$> take (len.toNat - 1)

variable {α : Type}

/-- `do_read_array`. -/
def doReadArray (len : Int32) (parser : Decoder α) : Decoder (List α) :=
  if len < 0 then failure else many parser len.toInt.toNat

/-- `read_array`. -/
def readArray (parser : Decoder α) : Decoder (List α) := do
  let len ← readInt32
  if len < 0 then failure else doReadArray len parser

/-- `read_flex_array`: the count less one goes to `do_read_array` as an
    `int32_t`. -/
def readFlexArray (parser : Decoder α) : Decoder (List α) := do
  let len ← readUnsignedVarint
  if len = 0 then failure else doReadArray (len - 1).toInt32 parser

/-- `read_nullable_array`. -/
def readNullableArray (parser : Decoder α) : Decoder (Option (List α)) := do
  let len ← readInt32
  if len < 0 then pure none else some <$> doReadArray len parser

/-- `read_nullable_flex_array`. -/
def readNullableFlexArray (parser : Decoder α) : Decoder (Option (List α)) := do
  let len ← readUnsignedVarint
  if len = 0 then pure none else some <$> doReadArray (len - 1).toInt32 parser

/-- The `while` loop of `read_tags`, from the id read last. -/
def readTagsLoop : Nat → Int → TaggedFields → Decoder TaggedFields
  | 0, _, tags => pure tags
  | numTags + 1, prevTagId, tags => do
      let id ← readUnsignedVarint
      if (id.toNat : Int) ≤ prevTagId then failure
      else do
        let size ← readUnsignedVarint
        let tag ← take size.toNat
        readTagsLoop numTags id.toNat (tags.emplace id tag)

/-- `read_tags`. -/
def readTags : Decoder TaggedFields := do
  let numTags ← readUnsignedVarint
  readTagsLoop numTags.toNat (-1) TaggedFields.empty

/-! ## `encoder` -/

/-- `serialize_int<T>`: the `k` bytes of the value converted to `T`,
    big-endian, and `sizeof(T)`. -/
def serializeInt (k : Nat) (bits : Nat) : List UInt8 × UInt32 := (beBytes k bits, UInt32.ofNat k)

/-- `serialize_vint`: the bytes of `vint::to_bytes`, and their count as
    `vint_size` gives it. -/
def serializeVint (val : Int64) : List UInt8 × UInt32 :=
  (Vint.serialize val, UInt32.ofNat (Vint.vintSize val))

/-- `serialize_unsigned_vint`. -/
def serializeUnsignedVint (val : UInt32) : List UInt8 × UInt32 :=
  (UnsignedVint.serialize val.toNat, UInt32.ofNat (UnsignedVint.size val.toNat))

def writeBool (v : Bool) : List UInt8 × UInt32 := serializeInt 1 (if v then 1 else 0)

def writeInt8 (v : Int8) : List UInt8 × UInt32 := serializeInt 1 v.toBitVec.toNat

def writeInt16 (v : Int16) : List UInt8 × UInt32 := serializeInt 2 v.toBitVec.toNat

def writeInt32 (v : Int32) : List UInt8 × UInt32 := serializeInt 4 v.toBitVec.toNat

def writeInt64 (v : Int64) : List UInt8 × UInt32 := serializeInt 8 v.toBitVec.toNat

def writeUInt32 (v : UInt32) : List UInt8 × UInt32 := serializeInt 4 v.toNat

def writeUnsignedVarint (v : UInt32) : List UInt8 × UInt32 := serializeUnsignedVint v

def writeVarint (v : Int32) : List UInt8 × UInt32 := serializeVint v.toInt64

def writeVarlong (v : Int64) : List UInt8 × UInt32 := serializeVint v

/-- `write(float64_t)`: `serialize_int<int64_t>` of the bits. -/
def writeFloat64 (v : UInt64) : List UInt8 × UInt32 := serializeInt 8 v.toNat

/-- `write(uuid)`: the 16 bytes, with no size before them. -/
def writeUuid (v : Uuid) : List UInt8 × UInt32 := (v.bytes, 16)

/-- `write(std::string_view)`: an `int16_t` size, then the bytes. -/
def writeString (v : List UInt8) : List UInt8 × UInt32 :=
  let (size, n) := serializeInt 2 v.length
  (size ++ v, UInt32.ofNat (n.toNat + v.length))

/-- `write_flex(std::string_view)`: an unsigned varint of the size plus
    one, then the bytes. -/
def writeFlexString (v : List UInt8) : List UInt8 × UInt32 :=
  let (size, n) := serializeUnsignedVint (UInt32.ofNat (v.length + 1))
  (size ++ v, UInt32.ofNat (n.toNat + v.length))

/-- `write(std::optional<std::string_view>)`. -/
def writeNullableString : Option (List UInt8) → List UInt8 × UInt32
  | none => serializeInt 2 (2 ^ 16 - 1)
  | some v => writeString v

/-- `write_flex(std::optional<std::string_view>)`. -/
def writeNullableFlexString : Option (List UInt8) → List UInt8 × UInt32
  | none => writeUnsignedVarint 0
  | some v => writeFlexString v

/-- `write(bytes_view)`: an `int32_t` size, then the bytes. -/
def writeBytes (bv : List UInt8) : List UInt8 × UInt32 :=
  let (size, n) := serializeInt 4 bv.length
  (size ++ bv, UInt32.ofNat (n.toNat + bv.length))

/-- `write_flex(bytes_view)`. -/
def writeFlexBytes (bv : List UInt8) : List UInt8 × UInt32 :=
  let (size, n) := writeUnsignedVarint (UInt32.ofNat (bv.length + 1))
  (size ++ bv, UInt32.ofNat (n.toNat + bv.length))

/-- `write(std::optional<iobuf>&&)`. -/
def writeNullableIobuf : Option (List UInt8) → List UInt8 × UInt32
  | none => serializeInt 4 (2 ^ 32 - 1)
  | some data =>
      let (size, n) := serializeInt 4 data.length
      (size ++ data, UInt32.ofNat (n.toNat + data.length))

/-- `write_flex(std::optional<iobuf>&&)`. -/
def writeNullableFlexIobuf : Option (List UInt8) → List UInt8 × UInt32
  | none => writeUnsignedVarint 0
  | some data =>
      let (size, n) := writeUnsignedVarint (UInt32.ofNat (data.length + 1))
      (size ++ data, UInt32.ofNat (n.toNat + data.length))

/-- What `_out->size_bytes() - start_size` returns, for a buffer of `start`
    bytes that grew by `written`: `start_size` is the start length cut to a
    `uint32_t`, the difference a `size_t`, returned as a `uint32_t`. -/
def grownBy (start written : Nat) : UInt32 :=
  UInt32.ofNat (start + written - (UInt32.ofNat start).toNat)

/-- `write_array`: an `int32_t` count, then each element. -/
def writeArray (start : Nat) (v : List α) (writer : α → List UInt8) : List UInt8 × UInt32 :=
  let out := (writeInt32 (Int32.ofNat v.length)).1 ++ v.flatMap writer
  (out, grownBy start out.length)

/-- `write_flex_array`: an unsigned varint of the count plus one, then each
    element. -/
def writeFlexArray (start : Nat) (v : List α) (writer : α → List UInt8) : List UInt8 × UInt32 :=
  let out := (writeUnsignedVarint (UInt32.ofNat (v.length + 1))).1 ++ v.flatMap writer
  (out, grownBy start out.length)

/-- `write_nullable_array`. -/
def writeNullableArray (start : Nat) : Option (List α) → (α → List UInt8) → List UInt8 × UInt32
  | none, _ => writeInt32 (-1)
  | some v, writer => writeArray start v writer

/-- `write_nullable_flex_array`. -/
def writeNullableFlexArray (start : Nat) : Option (List α) → (α → List UInt8) →
    List UInt8 × UInt32
  | none, _ => writeUnsignedVarint 0
  | some v, writer => writeFlexArray start v writer

/-- `write_size_prepended`. -/
def writeSizePrepended (buf : List UInt8) : List UInt8 × UInt32 :=
  let (size, n) := writeUnsignedVarint (UInt32.ofNat buf.length)
  (size ++ buf, UInt32.ofNat (n.toNat + buf.length))

/-- `write_tags`: the number of tags, then each id and its size-prepended
    bytes, in the map's order. -/
def writeTags (start : Nat) (tags : TaggedFields) : List UInt8 × UInt32 :=
  let out := (writeUnsignedVarint (UInt32.ofNat tags.fields.length)).1 ++
    tags.fields.flatMap fun (id, tag) => (writeUnsignedVarint id).1 ++ (writeSizePrepended tag).1
  (out, grownBy start out.length)

end Kafka.Protocol
