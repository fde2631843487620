import Redpanda.Kafka.Wire
import Redpanda.Bytes.IobufParser

/-! # The Kafka wire primitives read back what they write

    For each primitive, the decoder method that matches an encoder method
    reads the bytes the encoder appended as the value written, takes exactly
    those bytes, and leaves what follows; and the `uint32_t` the encoder
    returns is the number of bytes it appended, modulo `2 ^ 32`
    (`wire_round_trip`).

    The values are those the decoder can take back.  A string must be valid
    UTF-8, since `iobuf_parser::read_string` runs `validate_utf8` on what it
    reads (`string_with_invalid_utf8_does_not_read_back`), and a size must
    survive the cast of the encoder: an `int16_t` for a string, an
    `int32_t` for bytes and arrays, a `uint32_t` for a flex size plus one,
    and the `int32_t` to which `read_flex_array` casts its count.  `uint32`
    has an encoder method and no decoder method.

    The decoders above read the bytes the parser has left as one sequence.
    Over the fragments of an `iobuf`, `read_varlong` reads those bytes
    unless the parser stands at the end of a fragment
    (`IobufDecoder.readVarlong_of_readsAt`); a new parser over an iobuf
    whose first fragment is empty does, and reads the byte that fragment
    points at (`decoder_read_varlong_misreads_after_empty_fragment`). -/

namespace Kafka.Protocol

open ByteCodec

variable {α : Type}

/-! ## Sizes the encoder returns -/

/-- `_out->size_bytes() - start_size` is the growth modulo `2 ^ 32`,
    whatever the buffer held before. -/
theorem grownBy_eq (start written : Nat) : grownBy start written = UInt32.ofNat written := by
  apply UInt32.toNat_inj.mp
  simp only [grownBy, UInt32.toNat_ofNat']
  have hmod := Nat.mod_add_div start (2 ^ 32)
  have hle : start % 2 ^ 32 ≤ start := Nat.mod_le _ _
  rw [show start + written - start % 2 ^ 32 = written + 2 ^ 32 * (start / 2 ^ 32) by omega,
    Nat.add_mul_mod_self_left]

/-- A count that a method adds to a byte count it got back as a `uint32_t`. -/
theorem ofNat_toNat_ofNat_add (a b : Nat) :
    UInt32.ofNat ((UInt32.ofNat a).toNat + b) = UInt32.ofNat (a + b) := by
  apply UInt32.toNat_inj.mp
  simp only [UInt32.toNat_ofNat']
  exact Nat.mod_add_mod a _ b

/-- The `uint32_t` an encoder method returns is the number of bytes it
    appended, modulo `2 ^ 32`. -/
def CountsWritten (w : List UInt8 × UInt32) : Prop := w.2 = UInt32.ofNat w.1.length

theorem countsWritten_serializeInt (k bits : Nat) : CountsWritten (serializeInt k bits) := by
  simp [CountsWritten, serializeInt]

/-- A method that writes a size, then the bytes after it, and adds their
    number to the count the size returned. -/
theorem countsWritten_prepend {w : List UInt8 × UInt32} (hw : CountsWritten w)
    (data : List UInt8) : CountsWritten (w.1 ++ data, UInt32.ofNat (w.2.toNat + data.length)) := by
  rw [CountsWritten, hw, ofNat_toNat_ofNat_add, List.length_append]

theorem countsWritten_grownBy (start : Nat) (out : List UInt8) :
    CountsWritten (out, grownBy start out.length) :=
  grownBy_eq start out.length

/-! ## Fixed-width integers -/

theorem decodes_readBE_toNat {k : Nat} (b : BitVec (8 * k)) :
    Decodes (readBE k) (beBytes k b.toNat) b.toNat :=
  decodes_readBE (by simpa [Nat.pow_mul] using b.isLt)

theorem decodes_readBool (v : Bool) : Decodes readBool (writeBool v).1 v := by
  have hread := decodes_map (decodes_readBE (k := 1) (n := if v then 1 else 0)
    (by split <;> decide)) fun n => decide (n ≠ 0)
  cases v <;> exact hread

theorem decodes_readInt8 (v : Int8) : Decodes readInt8 (writeInt8 v).1 v := by
  have hread := decodes_map (decodes_readBE_toNat (k := 1) v.toBitVec)
    fun n => Int8.ofBitVec (BitVec.ofNat 8 n)
  rwa [BitVec.ofNat_toNat, BitVec.setWidth_eq, Int8.ofBitVec_toBitVec] at hread

theorem decodes_readInt16 (v : Int16) : Decodes readInt16 (writeInt16 v).1 v := by
  have hread := decodes_map (decodes_readBE_toNat (k := 2) v.toBitVec)
    fun n => Int16.ofBitVec (BitVec.ofNat 16 n)
  rwa [BitVec.ofNat_toNat, BitVec.setWidth_eq, Int16.ofBitVec_toBitVec] at hread

theorem decodes_readInt32 (v : Int32) : Decodes readInt32 (writeInt32 v).1 v := by
  have hread := decodes_map (decodes_readBE_toNat (k := 4) v.toBitVec)
    fun n => Int32.ofBitVec (BitVec.ofNat 32 n)
  rwa [BitVec.ofNat_toNat, BitVec.setWidth_eq, Int32.ofBitVec_toBitVec] at hread

theorem decodes_readInt64 (v : Int64) : Decodes readInt64 (writeInt64 v).1 v := by
  have hread := decodes_map (decodes_readBE_toNat (k := 8) v.toBitVec)
    fun n => Int64.ofBitVec (BitVec.ofNat 64 n)
  rwa [BitVec.ofNat_toNat, BitVec.setWidth_eq, Int64.ofBitVec_toBitVec] at hread

/-- `read_float64` gives back the bits `write(float64_t)` sent. -/
theorem decodes_readFloat64 (v : UInt64) : Decodes readFloat64 (writeFloat64 v).1 v := by
  have hread := decodes_map (decodes_readInt64 (Int64.ofBitVec v.toBitVec)) Int64.toUInt64
  have hbits : (Int64.ofBitVec v.toBitVec).toUInt64 = v := by
    apply UInt64.toBitVec_inj.mp
    simp
  rw [hbits] at hread
  exact hread

theorem decodes_readUuid (v : Uuid) : Decodes readUuid (writeUuid v).1 v := by
  intro rest
  have hlen : 16 ≤ (v.bytes ++ rest).length := by simp [v.length_bytes]
  show readUuid (v.bytes ++ rest) = some (v, rest)
  rw [readUuid, dif_pos hlen]
  congr 2
  · obtain ⟨bytes, hbytes⟩ := v
    simp only [Uuid.mk.injEq]
    exact List.take_left' hbytes
  · exact List.drop_left' v.length_bytes

theorem countsWritten_writeUuid (v : Uuid) : CountsWritten (writeUuid v) := by
  simp [CountsWritten, writeUuid, v.length_bytes]

/-- A size below `2 ^ 15` sent as an `int16_t` reads back as itself. -/
theorem decodes_readInt16_size {n : Nat} (hn : n < 2 ^ 15) :
    Decodes readInt16 (serializeInt 2 n).1 (Int16.ofNat n) ∧ (Int16.ofNat n).toInt = n := by
  have hbits : (Int16.ofNat n).toBitVec.toNat = n := by
    simp
    omega
  refine ⟨?_, ?_⟩
  · have hread := decodes_readInt16 (Int16.ofNat n)
    simp only [writeInt16, hbits] at hread
    exact hread
  · rw [← Int16.toInt_toBitVec, BitVec.toInt_eq_toNat_cond, hbits, if_pos (by omega)]

/-- A size below `2 ^ 31` sent as an `int32_t` reads back as itself. -/
theorem decodes_readInt32_size {n : Nat} (hn : n < 2 ^ 31) :
    Decodes readInt32 (serializeInt 4 n).1 (Int32.ofNat n) ∧ (Int32.ofNat n).toInt = n := by
  have hbits : (Int32.ofNat n).toBitVec.toNat = n := by
    simp
    omega
  refine ⟨?_, ?_⟩
  · have hread := decodes_readInt32 (Int32.ofNat n)
    simp only [writeInt32, hbits] at hread
    exact hread
  · rw [← Int32.toInt_toBitVec, BitVec.toInt_eq_toNat_cond, hbits, if_pos (by omega)]

/-! ## Varints -/

theorem decodes_readUnsignedVarint (v : UInt32) :
    Decodes readUnsignedVarint (writeUnsignedVarint v).1 v := by
  intro rest
  simp only [writeUnsignedVarint, serializeUnsignedVint, readUnsignedVarint, StateT.run]
  rw [UnsignedVint.deserialize_serialize v.toNat_lt]
  simp

theorem countsWritten_serializeUnsignedVint (v : UInt32) :
    CountsWritten (serializeUnsignedVint v) := by
  simp [CountsWritten, serializeUnsignedVint, UnsignedVint.size_eq_length]

theorem decodes_readVarlong (v : Int64) : Decodes readVarlong (writeVarlong v).1 v := by
  intro rest
  simp only [writeVarlong, serializeVint, readVarlong, StateT.run]
  rw [Vint.deserialize_serialize]
  simp

theorem decodes_readVarint (v : Int32) : Decodes readVarint (writeVarint v).1 v := by
  have hread := decodes_map (decodes_readVarlong v.toInt64) Int64.toInt32
  rwa [Int32.toInt32_toInt64] at hread

theorem countsWritten_serializeVint (v : Int64) : CountsWritten (serializeVint v) := by
  simp [CountsWritten, serializeVint, Vint.vintSize, Vint.serialize, UnsignedVint.size_eq_length]

/-- A flex size, one more than the count, read back. -/
theorem decodes_flex_size {n : Nat} (hn : n + 1 < 2 ^ 32) :
    Decodes readUnsignedVarint (serializeUnsignedVint (UInt32.ofNat (n + 1))).1 (UInt32.ofNat (n + 1)) ∧
      (UInt32.ofNat (n + 1)).toNat = n + 1 :=
  ⟨decodes_readUnsignedVarint _, by simp only [UInt32.toNat_ofNat']; omega⟩

/-! ## Strings and byte sequences -/

theorem not_neg_of_toInt_int16 {n : Int16} (h : 0 ≤ n.toInt) : ¬ n < 0 := by
  rw [Int16.lt_iff_toInt_lt, Int16.toInt_zero]
  omega

theorem not_neg_of_toInt_int32 {n : Int32} (h : 0 ≤ n.toInt) : ¬ n < 0 := by
  rw [Int32.lt_iff_toInt_lt, Int32.toInt_zero]
  omega

theorem decodes_parserReadString {v : List UInt8} (hutf : Utf8.validateUtf8 v = true) :
    Decodes (parserReadString v.length) v v :=
  decodes_bind_last (decodes_take rfl)
    (f := fun str => if Utf8.validateUtf8 str then pure str else failure)
    (by simp only [hutf, if_true]; exact decodes_pure v)

/-- `read_string` reads back a valid UTF-8 string of at most `INT16_MAX`
    bytes. -/
theorem decodes_readString {v : List UInt8} (hlen : v.length < 2 ^ 15)
    (hutf : Utf8.validateUtf8 v = true) : Decodes readString (writeString v).1 v := by
  obtain ⟨hsize, hint⟩ := decodes_readInt16_size hlen
  apply decodes_bind hsize
  show Decodes (doReadString (Int16.ofNat v.length)) v v
  rw [doReadString, if_neg (not_neg_of_toInt_int16 (by omega)), hint, Int.toNat_natCast]
  exact decodes_parserReadString hutf

theorem decodes_readFlexString {v : List UInt8} (hlen : v.length + 1 < 2 ^ 32)
    (hutf : Utf8.validateUtf8 v = true) : Decodes readFlexString (writeFlexString v).1 v := by
  obtain ⟨hsize, hnat⟩ := decodes_flex_size hlen
  apply decodes_bind hsize
  show Decodes (doReadFlexString (UInt32.ofNat (v.length + 1))) v v
  rw [doReadFlexString, if_neg (fun h => by simp [h] at hnat), hnat, Nat.add_sub_cancel]
  exact decodes_parserReadString hutf

theorem decodes_readNullableString {v : Option (List UInt8)}
    (hv : ∀ s, v = some s → s.length < 2 ^ 15 ∧ Utf8.validateUtf8 s = true) :
    Decodes readNullableString (writeNullableString v).1 v := by
  cases v with
  | none =>
      apply decodes_bind_last (decodes_readInt16 (-1))
      rw [if_pos (by decide)]
      exact decodes_pure _
  | some s =>
      obtain ⟨hlen, hutf⟩ := hv s rfl
      obtain ⟨hsize, hint⟩ := decodes_readInt16_size hlen
      apply decodes_bind hsize
      show Decodes (if Int16.ofNat s.length < 0 then pure none else some <$> _) s (some s)
      rw [if_neg (not_neg_of_toInt_int16 (by omega))]
      apply decodes_map
      rw [doReadString, if_neg (not_neg_of_toInt_int16 (by omega)), hint, Int.toNat_natCast]
      exact decodes_parserReadString hutf

theorem decodes_readNullableFlexString {v : Option (List UInt8)}
    (hv : ∀ s, v = some s → s.length + 1 < 2 ^ 32 ∧ Utf8.validateUtf8 s = true) :
    Decodes readNullableFlexString (writeNullableFlexString v).1 v := by
  cases v with
  | none =>
      apply decodes_bind_last (decodes_readUnsignedVarint 0)
      rw [if_pos rfl]
      exact decodes_pure _
  | some s =>
      obtain ⟨hlen, hutf⟩ := hv s rfl
      obtain ⟨hsize, hnat⟩ := decodes_flex_size hlen
      apply decodes_bind hsize
      show Decodes (if UInt32.ofNat (s.length + 1) = 0 then pure none else some <$> _) s (some s)
      have hne : UInt32.ofNat (s.length + 1) ≠ 0 := fun h => by simp [h] at hnat
      rw [if_neg hne]
      apply decodes_map
      rw [doReadFlexString, if_neg hne, hnat, Nat.add_sub_cancel]
      exact decodes_parserReadString hutf

/-- `read_bytes` reads back at most `INT32_MAX` bytes. -/
theorem decodes_readBytes {bv : List UInt8} (hlen : bv.length < 2 ^ 31) :
    Decodes readBytes (writeBytes bv).1 bv := by
  obtain ⟨hsize, hint⟩ := decodes_readInt32_size hlen
  apply decodes_bind hsize
  show Decodes (take (sizeOfInt32 (Int32.ofNat bv.length))) bv bv
  apply decodes_take
  rw [sizeOfInt32, hint]
  omega

theorem decodes_readFlexBytes {bv : List UInt8} (hlen : bv.length + 1 < 2 ^ 32) :
    Decodes readFlexBytes (writeFlexBytes bv).1 bv := by
  obtain ⟨hsize, hnat⟩ := decodes_flex_size hlen
  apply decodes_bind hsize
  show Decodes (if UInt32.ofNat (bv.length + 1) = 0 then failure else take _) bv bv
  rw [if_neg (fun h => by simp [h] at hnat)]
  exact decodes_take (by omega)

theorem decodes_readFragmentedNullableBytes {v : Option (List UInt8)}
    (hv : ∀ data, v = some data → data.length < 2 ^ 31) :
    Decodes readFragmentedNullableBytes (writeNullableIobuf v).1 v := by
  cases v with
  | none =>
      have hiobuf : Decodes readNullableIobuf (writeNullableIobuf none).1 ([], -1) := by
        apply decodes_bind_last (decodes_readInt32 (-1))
        rw [if_pos (by decide)]
        exact decodes_pure _
      apply decodes_bind_last hiobuf
      dsimp only
      rw [if_pos (by decide)]
      exact decodes_pure _
  | some data =>
      have hlen := hv data rfl
      obtain ⟨hsize, hint⟩ := decodes_readInt32_size hlen
      have hiobuf : Decodes readNullableIobuf (writeNullableIobuf (some data)).1
          (data, Int32.ofNat data.length) := by
        apply decodes_bind hsize
        show Decodes (if Int32.ofNat data.length < 0 then _ else _) data _
        rw [if_neg (not_neg_of_toInt_int32 (by omega))]
        apply decodes_bind_last (decodes_take (by rw [sizeOfInt32, hint]; omega))
        exact decodes_pure _
      apply decodes_bind_last hiobuf
      dsimp only
      rw [if_neg (not_neg_of_toInt_int32 (by omega))]
      exact decodes_pure _

theorem decodes_readFragmentedNullableFlexBytes {v : Option (List UInt8)}
    (hv : ∀ data, v = some data → data.length + 1 < 2 ^ 32) :
    Decodes readFragmentedNullableFlexBytes (writeNullableFlexIobuf v).1 v := by
  cases v with
  | none =>
      apply decodes_bind_last (decodes_readUnsignedVarint 0)
      rw [if_pos rfl]
      exact decodes_pure _
  | some data =>
      obtain ⟨hsize, hnat⟩ := decodes_flex_size (hv data rfl)
      apply decodes_bind hsize
      show Decodes (if UInt32.ofNat (data.length + 1) = 0 then pure none else _) data (some data)
      rw [if_neg (fun h => by simp [h] at hnat)]
      exact decodes_map (decodes_take (by omega)) some

theorem countsWritten_writeNullableString (v : Option (List UInt8)) :
    CountsWritten (writeNullableString v) := by
  cases v with
  | none => exact countsWritten_serializeInt ..
  | some s => exact countsWritten_prepend (countsWritten_serializeInt ..) s

theorem countsWritten_writeNullableFlexString (v : Option (List UInt8)) :
    CountsWritten (writeNullableFlexString v) := by
  cases v with
  | none => exact countsWritten_serializeUnsignedVint 0
  | some s => exact countsWritten_prepend (countsWritten_serializeUnsignedVint _) s

theorem countsWritten_writeNullableIobuf (v : Option (List UInt8)) :
    CountsWritten (writeNullableIobuf v) := by
  cases v with
  | none => exact countsWritten_serializeInt ..
  | some data => exact countsWritten_prepend (countsWritten_serializeInt ..) data

theorem countsWritten_writeNullableFlexIobuf (v : Option (List UInt8)) :
    CountsWritten (writeNullableFlexIobuf v) := by
  cases v with
  | none => exact countsWritten_serializeUnsignedVint 0
  | some data => exact countsWritten_prepend (countsWritten_serializeUnsignedVint _) data

/-! ## Arrays -/

section Arrays

variable {parser : Decoder α} {writer : α → List UInt8} {v : List α}

/-- `read_flex_array` casts the count less one to an `int32_t`, which keeps
    every count below `2 ^ 31`. -/
theorem toInt_toInt32_sub_one {n : Nat} (hn : n < 2 ^ 31) :
    ((UInt32.ofNat (n + 1)) - 1).toInt32.toInt = n := by
  have hsub : (UInt32.ofNat (n + 1)) - 1 = UInt32.ofNat n := by
    apply UInt32.toNat_inj.mp
    rw [UInt32.toNat_sub_of_le _ _ (by rw [UInt32.le_iff_toNat_le]; simp; omega)]
    simp
    omega
  rw [hsub, ← Int32.toInt_toBitVec, UInt32.toBitVec_toInt32, BitVec.toInt_eq_toNat_cond]
  simp
  omega

theorem decodes_doReadArray {len : Int32} (hlen : len.toInt = v.length)
    (hp : ∀ a ∈ v, Decodes parser (writer a) a) :
    Decodes (doReadArray len parser) (v.flatMap writer) v := by
  rw [doReadArray, if_neg (not_neg_of_toInt_int32 (by omega)), hlen, Int.toNat_natCast]
  exact decodes_many hp

theorem decodes_readArray (hlen : v.length < 2 ^ 31) (hp : ∀ a ∈ v, Decodes parser (writer a) a)
    (start : Nat) : Decodes (readArray parser) (writeArray start v writer).1 v := by
  have hint := (decodes_readInt32_size hlen).2
  show Decodes _ ((writeInt32 (Int32.ofNat v.length)).1 ++ v.flatMap writer) v
  apply decodes_bind (decodes_readInt32 _)
  show Decodes (if Int32.ofNat v.length < 0 then failure else _) _ v
  rw [if_neg (not_neg_of_toInt_int32 (by omega))]
  exact decodes_doReadArray hint hp

theorem decodes_readFlexArray (hlen : v.length < 2 ^ 31)
    (hp : ∀ a ∈ v, Decodes parser (writer a) a) (start : Nat) :
    Decodes (readFlexArray parser) (writeFlexArray start v writer).1 v := by
  obtain ⟨hsize, hnat⟩ := decodes_flex_size (n := v.length) (by omega)
  apply decodes_bind hsize
  show Decodes (if UInt32.ofNat (v.length + 1) = 0 then failure else _) _ v
  rw [if_neg (fun h => by simp [h] at hnat)]
  exact decodes_doReadArray (toInt_toInt32_sub_one hlen) hp

theorem decodes_readNullableArray {v : Option (List α)}
    (hlen : ∀ l, v = some l → l.length < 2 ^ 31)
    (hp : ∀ l, v = some l → ∀ a ∈ l, Decodes parser (writer a) a) (start : Nat) :
    Decodes (readNullableArray parser) (writeNullableArray start v writer).1 v := by
  cases v with
  | none =>
      apply decodes_bind_last (decodes_readInt32 (-1))
      rw [if_pos (by decide)]
      exact decodes_pure _
  | some l =>
      have hint := (decodes_readInt32_size (hlen l rfl)).2
      show Decodes _ ((writeInt32 (Int32.ofNat l.length)).1 ++ l.flatMap writer) (some l)
      apply decodes_bind (decodes_readInt32 _)
      show Decodes (if Int32.ofNat l.length < 0 then pure none else some <$> _) _ (some l)
      rw [if_neg (not_neg_of_toInt_int32 (by omega))]
      exact decodes_map (decodes_doReadArray hint (hp l rfl)) some

theorem decodes_readNullableFlexArray {v : Option (List α)}
    (hlen : ∀ l, v = some l → l.length < 2 ^ 31)
    (hp : ∀ l, v = some l → ∀ a ∈ l, Decodes parser (writer a) a) (start : Nat) :
    Decodes (readNullableFlexArray parser) (writeNullableFlexArray start v writer).1 v := by
  cases v with
  | none =>
      apply decodes_bind_last (decodes_readUnsignedVarint 0)
      rw [if_pos rfl]
      exact decodes_pure _
  | some l =>
      have hl := hlen l rfl
      obtain ⟨hsize, hnat⟩ := decodes_flex_size (n := l.length) (by omega)
      apply decodes_bind hsize
      show Decodes (if UInt32.ofNat (l.length + 1) = 0 then pure none else some <$> _) _ (some l)
      rw [if_neg (fun h => by simp [h] at hnat)]
      exact decodes_map (decodes_doReadArray (toInt_toInt32_sub_one hl) (hp l rfl)) some

theorem countsWritten_writeNullableArray (start : Nat) (v : Option (List α)) :
    CountsWritten (writeNullableArray start v writer) := by
  cases v with
  | none => exact countsWritten_serializeInt ..
  | some l => exact countsWritten_grownBy ..

theorem countsWritten_writeNullableFlexArray (start : Nat) (v : Option (List α)) :
    CountsWritten (writeNullableFlexArray start v writer) := by
  cases v with
  | none => exact countsWritten_serializeUnsignedVint 0
  | some l => exact countsWritten_grownBy ..

end Arrays

/-! ## Tagged fields -/

namespace TaggedFields

theorem ext_fields {t t' : TaggedFields} (h : t.fields = t'.fields) : t = t' := by
  obtain ⟨fields, _⟩ := t
  obtain ⟨fields', _⟩ := t'
  subst h
  rfl

/-- An id above every id in the map goes at its end. -/
theorem emplaceList_of_lt {id : UInt32} {b : List UInt8} :
    ∀ {l : List (UInt32 × List UInt8)}, (∀ p ∈ l, p.1 < id) → emplaceList id b l = l ++ [(id, b)]
  | [], _ => rfl
  | (k, v) :: rest, h => by
      have hk : k < id := h (k, v) (List.mem_cons_self ..)
      have hrest := emplaceList_of_lt (b := b) fun p hp => h p (List.mem_cons_of_mem _ hp)
      rw [emplaceList, if_neg (UInt32.lt_asymm hk), if_neg (UInt32.ne_of_lt hk).symm, hrest]
      rfl

end TaggedFields

/-- The bytes `write_tags` sends for one tag. -/
theorem tag_bytes (id : UInt32) (tag : List UInt8) :
    (writeUnsignedVarint id).1 ++ (writeSizePrepended tag).1 =
      (writeUnsignedVarint id).1 ++ ((writeUnsignedVarint (UInt32.ofNat tag.length)).1 ++ tag) :=
  rfl

/-- The loop of `read_tags` reads the remaining tags of a map in ascending
    order after the id it read last, and adds each at the end of the map
    built so far. -/
theorem decodes_readTagsLoop (t : TaggedFields) :
    ∀ (fs : List (UInt32 × List UInt8)) (prev : Int) (acc : TaggedFields),
      t.fields = acc.fields ++ fs → (∀ f ∈ fs, prev < f.1.toNat) →
      (∀ f ∈ fs, f.2.length < 2 ^ 32) →
      Decodes (readTagsLoop fs.length prev acc)
        (fs.flatMap fun f => (writeUnsignedVarint f.1).1 ++ (writeSizePrepended f.2).1) t
  | [], _, acc, ht, _, _ => by
      rw [List.append_nil] at ht
      rw [TaggedFields.ext_fields ht]
      exact decodes_pure acc
  | (id, tag) :: fs, prev, acc, ht, hprev, hsizes => by
      -- the map's ascending ids order `acc`, then `id`, then the rest
      have hsorted := t.ascending
      rw [ht, List.pairwise_append, List.pairwise_cons] at hsorted
      obtain ⟨-, ⟨hid, -⟩, hacc⟩ := hsorted
      have hemplace : (acc.emplace id tag).fields = acc.fields ++ [(id, tag)] :=
        TaggedFields.emplaceList_of_lt fun p hp => hacc p hp (id, tag) (List.mem_cons_self ..)
      have hlen : (UInt32.ofNat tag.length).toNat = tag.length := by
        have : tag.length < 2 ^ 32 := hsizes (id, tag) (List.mem_cons_self ..)
        simp only [UInt32.toNat_ofNat']
        omega
      have hrest := decodes_readTagsLoop t fs id.toNat (acc.emplace id tag)
        (by rw [ht, hemplace, List.append_assoc, List.singleton_append])
        (fun f hf => by exact_mod_cast UInt32.lt_iff_toNat_lt.mp (hid f hf))
        (fun f hf => hsizes f (List.mem_cons_of_mem _ hf))
      rw [List.flatMap_cons, tag_bytes, List.append_assoc, List.append_assoc, List.length_cons,
        readTagsLoop]
      apply decodes_bind (decodes_readUnsignedVarint id)
      rw [if_neg (not_le.mpr (hprev (id, tag) (List.mem_cons_self ..)))]
      apply decodes_bind (decodes_readUnsignedVarint _)
      apply decodes_bind (decodes_take hlen.symm)
      exact hrest

/-- `read_tags` reads back a map of fewer than `2 ^ 32` tags, each shorter
    than `2 ^ 32` bytes. -/
theorem decodes_readTags {t : TaggedFields} (hcount : t.fields.length < 2 ^ 32)
    (hsizes : ∀ f ∈ t.fields, f.2.length < 2 ^ 32) (start : Nat) :
    Decodes readTags (writeTags start t).1 t := by
  apply decodes_bind (decodes_readUnsignedVarint _)
  have hnat : (UInt32.ofNat t.fields.length).toNat = t.fields.length := by
    simp only [UInt32.toNat_ofNat']
    omega
  rw [hnat]
  exact decodes_readTagsLoop t t.fields (-1) TaggedFields.empty rfl
    (fun f _ => by omega) hsizes

/-! ## Every primitive -/

/-- The wire types the encoder and the decoder both have methods for; an
    array holds elements of another wire type. -/
inductive WireType where
  | bool | int8 | int16 | int32 | int64 | varint | varlong | unsignedVarint | float64 | uuid
  | string | nullableString | flexString | nullableFlexString
  | bytes | flexBytes | nullableIobuf | nullableFlexIobuf
  | array (elem : WireType) | flexArray (elem : WireType)
  | nullableArray (elem : WireType) | nullableFlexArray (elem : WireType)
  | tags

namespace WireType

/-- The values of a wire type; a `float64_t` by its bits. -/
@[reducible] def Val : WireType → Type
  | bool => Bool
  | int8 => Int8
  | int16 => Int16
  | int32 => Int32
  | int64 => Int64
  | varint => Int32
  | varlong => Int64
  | unsignedVarint => UInt32
  | float64 => UInt64
  | uuid => Uuid
  | string | flexString | bytes | flexBytes => List UInt8
  | nullableString | nullableFlexString | nullableIobuf | nullableFlexIobuf => Option (List UInt8)
  | array elem | flexArray elem => List elem.Val
  | nullableArray elem | nullableFlexArray elem => Option (List elem.Val)
  | tags => TaggedFields

/-- The decoder method for the type. -/
def read : (t : WireType) → Decoder t.Val
  | bool => readBool
  | int8 => readInt8
  | int16 => readInt16
  | int32 => readInt32
  | int64 => readInt64
  | varint => readVarint
  | varlong => readVarlong
  | unsignedVarint => readUnsignedVarint
  | float64 => readFloat64
  | uuid => readUuid
  | string => readString
  | nullableString => readNullableString
  | flexString => readFlexString
  | nullableFlexString => readNullableFlexString
  | bytes => readBytes
  | flexBytes => readFlexBytes
  | nullableIobuf => readFragmentedNullableBytes
  | nullableFlexIobuf => readFragmentedNullableFlexBytes
  | array elem => readArray elem.read
  | flexArray elem => readFlexArray elem.read
  | nullableArray elem => readNullableArray elem.read
  | nullableFlexArray elem => readNullableFlexArray elem.read
  | tags => readTags

/-- The encoder method for the type, into a buffer of `start` bytes; an
    element's bytes do not depend on where it starts. -/
def write : (t : WireType) → Nat → t.Val → List UInt8 × UInt32
  | bool, _, v => writeBool v
  | int8, _, v => writeInt8 v
  | int16, _, v => writeInt16 v
  | int32, _, v => writeInt32 v
  | int64, _, v => writeInt64 v
  | varint, _, v => writeVarint v
  | varlong, _, v => writeVarlong v
  | unsignedVarint, _, v => writeUnsignedVarint v
  | float64, _, v => writeFloat64 v
  | uuid, _, v => writeUuid v
  | string, _, v => writeString v
  | nullableString, _, v => writeNullableString v
  | flexString, _, v => writeFlexString v
  | nullableFlexString, _, v => writeNullableFlexString v
  | bytes, _, v => writeBytes v
  | flexBytes, _, v => writeFlexBytes v
  | nullableIobuf, _, v => writeNullableIobuf v
  | nullableFlexIobuf, _, v => writeNullableFlexIobuf v
  | array elem, start, v => writeArray start v fun a => (elem.write 0 a).1
  | flexArray elem, start, v => writeFlexArray start v fun a => (elem.write 0 a).1
  | nullableArray elem, start, v => writeNullableArray start v fun a => (elem.write 0 a).1
  | nullableFlexArray elem, start, v => writeNullableFlexArray start v fun a => (elem.write 0 a).1
  | tags, start, v => writeTags start v

/-- The values whose sizes survive the casts of the encoder, and whose
    strings are valid UTF-8. -/
def fits : (t : WireType) → t.Val → Bool
  | string, v => decide (v.length < 2 ^ 15) && Utf8.validateUtf8 v
  | nullableString, v => v.all fun s => decide (s.length < 2 ^ 15) && Utf8.validateUtf8 s
  | flexString, v => decide (v.length + 1 < 2 ^ 32) && Utf8.validateUtf8 v
  | nullableFlexString, v => v.all fun s => decide (s.length + 1 < 2 ^ 32) && Utf8.validateUtf8 s
  | bytes, v => decide (v.length < 2 ^ 31)
  | flexBytes, v => decide (v.length + 1 < 2 ^ 32)
  | nullableIobuf, v => v.all fun data => decide (data.length < 2 ^ 31)
  | nullableFlexIobuf, v => v.all fun data => decide (data.length + 1 < 2 ^ 32)
  | array elem, v | flexArray elem, v => decide (v.length < 2 ^ 31) && v.all elem.fits
  | nullableArray elem, v | nullableFlexArray elem, v =>
      v.all fun l => decide (l.length < 2 ^ 31) && l.all elem.fits
  | tags, v => decide (v.fields.length < 2 ^ 32) && v.fields.all fun f => decide (f.2.length < 2 ^ 32)
  | _, _ => true

/-- Every value that fits reads back through the type's decoder method,
    and the encoder method returns the number of bytes it wrote; by
    recursion on the type, an array's elements by the element type's. -/
theorem round_trip : ∀ (t : WireType) (v : t.Val) (start : Nat), t.fits v = true →
    Decodes t.read (t.write start v).1 v ∧ CountsWritten (t.write start v)
  | bool, v, _, _ => ⟨decodes_readBool v, countsWritten_serializeInt ..⟩
  | int8, v, _, _ => ⟨decodes_readInt8 v, countsWritten_serializeInt ..⟩
  | int16, v, _, _ => ⟨decodes_readInt16 v, countsWritten_serializeInt ..⟩
  | int32, v, _, _ => ⟨decodes_readInt32 v, countsWritten_serializeInt ..⟩
  | int64, v, _, _ => ⟨decodes_readInt64 v, countsWritten_serializeInt ..⟩
  | varint, v, _, _ => ⟨decodes_readVarint v, countsWritten_serializeVint _⟩
  | varlong, v, _, _ => ⟨decodes_readVarlong v, countsWritten_serializeVint _⟩
  | unsignedVarint, v, _, _ => ⟨decodes_readUnsignedVarint v, countsWritten_serializeUnsignedVint v⟩
  | float64, v, _, _ => ⟨decodes_readFloat64 v, countsWritten_serializeInt ..⟩
  | uuid, v, _, _ => ⟨decodes_readUuid v, countsWritten_writeUuid v⟩
  | string, v, _, h => by
      simp only [fits, Bool.and_eq_true, decide_eq_true_eq] at h
      exact ⟨decodes_readString h.1 h.2, countsWritten_prepend (countsWritten_serializeInt ..) v⟩
  | nullableString, v, _, h => by
      simp only [fits, Option.all_eq_true, Bool.and_eq_true, decide_eq_true_eq] at h
      exact ⟨decodes_readNullableString h, countsWritten_writeNullableString v⟩
  | flexString, v, _, h => by
      simp only [fits, Bool.and_eq_true, decide_eq_true_eq] at h
      exact ⟨decodes_readFlexString h.1 h.2,
        countsWritten_prepend (countsWritten_serializeUnsignedVint _) v⟩
  | nullableFlexString, v, _, h => by
      simp only [fits, Option.all_eq_true, Bool.and_eq_true, decide_eq_true_eq] at h
      exact ⟨decodes_readNullableFlexString h, countsWritten_writeNullableFlexString v⟩
  | bytes, v, _, h => by
      simp only [fits, decide_eq_true_eq] at h
      exact ⟨decodes_readBytes h, countsWritten_prepend (countsWritten_serializeInt ..) v⟩
  | flexBytes, v, _, h => by
      simp only [fits, decide_eq_true_eq] at h
      exact ⟨decodes_readFlexBytes h, countsWritten_prepend (countsWritten_serializeUnsignedVint _) v⟩
  | nullableIobuf, v, _, h => by
      simp only [fits, Option.all_eq_true, decide_eq_true_eq] at h
      exact ⟨decodes_readFragmentedNullableBytes h, countsWritten_writeNullableIobuf v⟩
  | nullableFlexIobuf, v, _, h => by
      simp only [fits, Option.all_eq_true, decide_eq_true_eq] at h
      exact ⟨decodes_readFragmentedNullableFlexBytes h, countsWritten_writeNullableFlexIobuf v⟩
  | array elem, v, start, h => by
      simp only [fits, Bool.and_eq_true, decide_eq_true_eq, List.all_eq_true] at h
      have helems := fun a ha => (round_trip elem a 0 (h.2 a ha)).1
      exact ⟨decodes_readArray h.1 helems start, countsWritten_grownBy ..⟩
  | flexArray elem, v, start, h => by
      simp only [fits, Bool.and_eq_true, decide_eq_true_eq, List.all_eq_true] at h
      have helems := fun a ha => (round_trip elem a 0 (h.2 a ha)).1
      exact ⟨decodes_readFlexArray h.1 helems start, countsWritten_grownBy ..⟩
  | nullableArray elem, v, start, h => by
      simp only [fits, Option.all_eq_true, Bool.and_eq_true, decide_eq_true_eq,
        List.all_eq_true] at h
      have helems := fun l hl a ha => (round_trip elem a 0 ((h l hl).2 a ha)).1
      exact ⟨decodes_readNullableArray (fun l hl => (h l hl).1) helems start,
        countsWritten_writeNullableArray start v⟩
  | nullableFlexArray elem, v, start, h => by
      simp only [fits, Option.all_eq_true, Bool.and_eq_true, decide_eq_true_eq,
        List.all_eq_true] at h
      have helems := fun l hl a ha => (round_trip elem a 0 ((h l hl).2 a ha)).1
      exact ⟨decodes_readNullableFlexArray (fun l hl => (h l hl).1) helems start,
        countsWritten_writeNullableFlexArray start v⟩
  | tags, v, start, h => by
      simp only [fits, Bool.and_eq_true, decide_eq_true_eq, List.all_eq_true] at h
      exact ⟨decodes_readTags h.1 h.2 start, countsWritten_grownBy ..⟩

end WireType

/-- Each encoder method's bytes read back through the matching decoder
    method, for every value that fits, and the method returns their number
    modulo `2 ^ 32`; for the arrays, of any element type whose decoder
    reads back what its writer writes. -/
theorem wire_round_trip :
    (∀ (t : WireType) (v : t.Val) (start : Nat), t.fits v = true →
      Decodes t.read (t.write start v).1 v ∧ CountsWritten (t.write start v)) ∧
    ∀ {α : Type} (parser : Decoder α) (writer : α → List UInt8) (start : Nat),
      (∀ v : List α, v.length < 2 ^ 31 → (∀ a ∈ v, Decodes parser (writer a) a) →
        Decodes (readArray parser) (writeArray start v writer).1 v ∧
        Decodes (readFlexArray parser) (writeFlexArray start v writer).1 v) ∧
      (∀ v : Option (List α),
        (∀ l, v = some l → l.length < 2 ^ 31 ∧ ∀ a ∈ l, Decodes parser (writer a) a) →
        Decodes (readNullableArray parser) (writeNullableArray start v writer).1 v ∧
        Decodes (readNullableFlexArray parser) (writeNullableFlexArray start v writer).1 v) ∧
      (∀ v : List α,
        CountsWritten (writeArray start v writer) ∧ CountsWritten (writeFlexArray start v writer)) ∧
      ∀ v : Option (List α), CountsWritten (writeNullableArray start v writer) ∧
        CountsWritten (writeNullableFlexArray start v writer) := by
  refine ⟨WireType.round_trip, fun parser writer start => ⟨?_, ?_, ?_, ?_⟩⟩
  · intro v hlen hp
    exact ⟨decodes_readArray hlen hp start, decodes_readFlexArray hlen hp start⟩
  · intro v hv
    have hlen := fun l hl => (hv l hl).1
    have hp := fun l hl => (hv l hl).2
    exact ⟨decodes_readNullableArray hlen hp start, decodes_readNullableFlexArray hlen hp start⟩
  · intro v
    exact ⟨countsWritten_grownBy .., countsWritten_grownBy ..⟩
  · intro v
    exact ⟨countsWritten_writeNullableArray start v, countsWritten_writeNullableFlexArray start v⟩

theorem wire_round_trip_string_array :
    (WireType.array .string).fits [[0x68, 0x69]] = true ∧
      Decodes (WireType.array .string).read ((WireType.array .string).write 0 [[0x68, 0x69]]).1
        [[0x68, 0x69]] ∧
      Decodes (readArray readInt8) (writeArray 0 [1, 2] fun a => (writeInt8 a).1).1 [1, 2] :=
  ⟨by decide, (wire_round_trip.1 _ _ 0 (by decide)).1,
    ((wire_round_trip.2 readInt8 _ 0).1 [1, 2] (by decide)
      fun a _ => decodes_readInt8 a).1⟩

/-- `read_string` throws on the bytes `write` sent for a string that is not
    valid UTF-8. -/
theorem string_with_invalid_utf8_does_not_read_back :
    ¬ Decodes readString (writeString [0xFF]).1 [0xFF] := by
  intro h
  have hrun := h []
  rw [List.append_nil] at hrun
  revert hrun
  decide

/-! ## `read_varlong` over the fragments of an `iobuf` -/

/-- `decoder::read_varlong` over the decoder's `iobuf_parser`: the value
    that `iobuf_parser::read_varlong` reads, and the parser after it. -/
def IobufDecoder.readVarlong (mem : Bytes.Heap) (p : Bytes.IobufParser) :
    Option (Int64 × Bytes.IobufParser) :=
  (p.readVarlong mem).map fun r => (r.1.1, r.2)

/-- Unless the parser stands at the end of a fragment, `read_varlong` over
    the fragments reads what it reads from the bytes they hold, and leaves
    the parser at the bytes after those it took. -/
theorem IobufDecoder.readVarlong_of_readsAt {mem : Bytes.Heap} {p : Bytes.IobufParser}
    {bytes rest : List UInt8} {v : Int64} (h : Bytes.ReadsAt mem p.input bytes)
    (hready : p.input.frags = [] ∨ 0 < p.input.segmentBytesLeft)
    (hflat : Protocol.readVarlong bytes = some (v, rest)) :
    ∃ p', IobufDecoder.readVarlong mem p = some (v, p') ∧ Bytes.ReadsAt mem p'.input rest := by
  obtain ⟨p', hp', -, hreads⟩ := Bytes.IobufParser.readVarlong_of_readsAt h hready
  rcases hdes : Vint.deserialize bytes with ⟨i, n⟩
  simp only [Protocol.readVarlong, hdes, Option.some.injEq, Prod.mk.injEq] at hflat
  obtain ⟨rfl, rfl⟩ := hflat
  rw [hdes] at hp' hreads
  exact ⟨p', by simp [IobufDecoder.readVarlong, hp'], hreads⟩

/-- The encoder writes `300` in two bytes, which an iobuf holds after an
    empty first fragment (`Bytes.emptyViewThen300`); the flat reading gives
    `300` back, but the decoder's `read_varlong` over the fragments returns
    `21`. -/
theorem decoder_read_varlong_misreads_after_empty_fragment :
    Bytes.emptyViewThen300.2.content Bytes.emptyViewThen300.1 = (writeVarlong 300).1 ∧
      readVarlong (writeVarlong 300).1 = some (300, []) ∧
      (IobufDecoder.readVarlong Bytes.emptyViewThen300.1
        (Bytes.IobufParser.create Bytes.emptyViewThen300.2)).map Prod.fst = some 21 :=
  ⟨by decide +kernel, by decide +kernel, by decide +kernel⟩

end Kafka.Protocol
