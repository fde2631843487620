import Mathlib
import Redpanda.Lib.BitFields
import Redpanda.Utils.Vint

/-! # LEB128

    Model of `wasm/parser/leb128.h`, the reader and writer of the numbers of
    a WebAssembly module.  The writer puts seven bits to a byte, least
    significant first, with bit 7 set on every byte but the last; a signed
    value stops once what is left is its sign and bit 6 of the last byte
    repeats it.  The reader collects seven bits a byte while the shift is
    below the type's width and the last byte had bit 7 set, throws
    `decode_exception` when the byte it stopped at still continues the
    number, and sign-extends a signed value whose last byte has bit 6 set.

    The integer types are the four the template admits; a value is an `Int`
    in the type's range, and the reader's accumulator the type's bits, a
    `Nat` below `2 ^ size`.  The stream is the list of bytes left, and
    `consume_type` at its end is the `out_of_range` error. -/

namespace Leb128

/-- The instances of the template: `static_assert` admits 32 and 64 bits,
    signed or not. -/
inductive IntType where
  | int32
  | uint32
  | int64
  | uint64
deriving DecidableEq, Repr

/-- The values of `m` signed bits. -/
def SignedBits (m : Nat) (v : Int) : Prop :=
  -2 ^ (m - 1) ≤ v ∧ v < 2 ^ (m - 1)

instance (m : Nat) (v : Int) : Decidable (SignedBits m v) :=
  inferInstanceAs (Decidable (_ ∧ _))

namespace IntType

/-- `sizeof(int_type) * CHAR_BIT`. -/
def size : IntType → Nat
  | int32 => 32
  | uint32 => 32
  | int64 => 64
  | uint64 => 64

/-- `std::is_signed_v<int_type>`. -/
def signed : IntType → Bool
  | int32 => true
  | uint32 => false
  | int64 => true
  | uint64 => false

/-- The values of the type. -/
def InRange (t : IntType) (v : Int) : Prop :=
  if t.signed then SignedBits t.size v else 0 ≤ v ∧ v < 2 ^ t.size

instance (t : IntType) (v : Int) : Decidable (t.InRange v) :=
  inferInstanceAs (Decidable (if t.signed then _ else _))

/-- The value whose bits are `bits`: two's complement for a signed type. -/
def ofBits (t : IntType) (bits : Nat) : Int :=
  if t.signed ∧ 2 ^ (t.size - 1) ≤ bits then (bits : Int) - 2 ^ t.size else bits

end IntType

/-! ## The writer -/

/-- Bit 6 of a byte is the top bit of its seven-bit group. -/
theorem and_64_eq_zero_iff {b : Nat} (hb : b < 256) : b &&& 0x40 = 0 ↔ b % 128 < 64 :=
  (show ∀ x : Fin 256, (x.val &&& 64 = 0 ↔ x.val % 128 < 64) by decide +kernel) ⟨b, hb⟩

/-- Bit 7 of a byte says whether the number goes on. -/
theorem and_128_ne_zero_iff {b : Nat} (hb : b < 256) : b &&& 0x80 ≠ 0 ↔ 128 ≤ b := by
  constructor
  · intro h
    by_contra hlt
    exact h (UnsignedVint.and_128_of_lt (by omega))
  · exact fun h => UnsignedVint.and_128_of_ge h hb

/-- The writer of a signed value: seven bits a byte, with `value >>= 7`
    shifting the sign in; the last byte is the first after which what is
    left is `0` with bit 6 clear or `-1` with bit 6 set. -/
def encodeSigned (value : Int) : List UInt8 :=
  let byte := (value % 0x80).toNat
  let rest := value >>> (7 : Nat)
  if (rest = 0 ∧ byte &&& 0x40 = 0) ∨ (rest = -1 ∧ byte &&& 0x40 ≠ 0) then [UInt8.ofNat byte]
  else UInt8.ofNat (byte ||| 0x80) :: encodeSigned rest
termination_by value.natAbs
decreasing_by
  have hrest : value >>> (7 : Nat) = value / 128 := Int.shiftRight_eq_div_pow value 7
  have hbit := and_64_eq_zero_iff (b := byte) (by omega)
  omega

/-- The writer of an unsigned value, a `do`-`while` over what is left. -/
def encodeUnsigned (value : Nat) : List UInt8 :=
  let byte := value % 0x80
  let rest := value >>> 7
  if rest ≠ 0 then UInt8.ofNat (byte ||| 0x80) :: encodeUnsigned rest else [UInt8.ofNat byte]
termination_by value
decreasing_by
  rw [Nat.shiftRight_eq_div_pow]
  omega

/-- `encode<int_type>`. -/
def encode (t : IntType) (value : Int) : List UInt8 :=
  if t.signed then encodeSigned value else encodeUnsigned value.toNat

/-! ## The reader -/

/-- What the reader throws: `std::out_of_range` from `consume_type` when no
    byte is left, or `decode_exception`. -/
inductive DecodeError where
  | outOfRange
  | decodeException
deriving DecidableEq, Repr

/-- The loop of `decode` over the bytes left: while `shift < size` and the
    last byte continues the number, read one more and put its seven bits at
    `shift`.  It returns the bits, the shift, the last byte and the bytes
    left. -/
def decodeLoop (size : Nat) (bytes : List UInt8) (result shift : Nat) (byte : UInt8) :
    Except DecodeError (Nat × Nat × UInt8 × List UInt8) :=
  if shift < size ∧ byte.toNat &&& 0x80 ≠ 0 then
    match bytes with
    | [] => .error .outOfRange
    | next :: bytes =>
        decodeLoop size bytes ((result ||| (next.toNat &&& 0x7F) <<< shift) % 2 ^ size) (shift + 7) next
  else .ok (result, shift, byte, bytes)

/-- The value `decode` returns once its loop has stopped at `byte`: the
    bits, with every bit from `shift` up set for a signed type whose last
    byte has bit 6 set below the width (`result |= ~int_type(0) << shift`). -/
def resultValue (t : IntType) (result shift : Nat) (byte : UInt8) : Int :=
  t.ofBits (if t.signed ∧ shift < t.size ∧ byte.toNat &&& 0x40 ≠ 0 then
    result ||| ((2 ^ t.size - 1) <<< shift) % 2 ^ t.size else result)

/-- `decode<int_type>`: the loop from no bits and a first `byte` of `0x80`,
    then `decode_exception` when the byte it stopped at continues the
    number. -/
def decode (t : IntType) (bytes : List UInt8) : Except DecodeError (Int × List UInt8) :=
  match decodeLoop t.size bytes 0 0 0x80 with
  | .error e => .error e
  | .ok (result, shift, byte, rest) =>
      if byte.toNat &&& 0x80 ≠ 0 then .error .decodeException
      else .ok (resultValue t result shift byte, rest)

/-! ## What the writer writes

    Both writers write a `Chain`, the bytes of one number; the seven-bit
    groups of an unsigned value's bytes are the value, and those of a
    signed value's bytes are its low bits, as many as the bytes hold, which
    are enough to hold its sign. -/

/-- The number whose seven-bit groups, least significant first, are the low
    seven bits of `bytes`. -/
def groups : List UInt8 → Nat
  | [] => 0
  | b :: bs => b.toNat % 128 + 128 * groups bs

/-- The bytes of one number: bit 7 set on every byte but the last. -/
inductive Chain : List UInt8 → Prop
  | last {b : UInt8} (h : b.toNat < 128) : Chain [b]
  | more {b : UInt8} {bs : List UInt8} (h : 128 ≤ b.toNat) (t : Chain bs) : Chain (b :: bs)

theorem Chain.length_pos {bs : List UInt8} (h : Chain bs) : 0 < bs.length := by
  cases h <;> simp

theorem groups_lt (bs : List UInt8) : groups bs < 2 ^ (7 * bs.length) := by
  induction bs with
  | nil => simp [groups]
  | cons b bs ih =>
    have hpow : 2 ^ (7 * (bs.length + 1)) = 128 * 2 ^ (7 * bs.length) := by
      rw [Nat.mul_succ, Nat.pow_add, Nat.mul_comm]
    rw [groups, List.length_cons, hpow]
    omega

/-- A byte the writer puts last. -/
theorem toNat_ofNat_of_lt {b : Nat} (h : b < 256) : (UInt8.ofNat b).toNat = b :=
  UInt8.toNat_ofNat_of_lt' h

theorem encodeUnsigned_of_lt {v : Nat} (h : v < 128) : encodeUnsigned v = [UInt8.ofNat v] := by
  rw [encodeUnsigned, Nat.shiftRight_eq_div_pow]
  simp [Nat.div_eq_of_lt h, Nat.mod_eq_of_lt h]

theorem encodeUnsigned_of_ge {v : Nat} (h : 128 ≤ v) :
    encodeUnsigned v = UInt8.ofNat (v % 128 ||| 0x80) :: encodeUnsigned (v / 128) := by
  rw [encodeUnsigned, Nat.shiftRight_eq_div_pow]
  simp only [Nat.reducePow, ne_eq, ite_not]
  rw [if_neg (by omega)]

theorem chain_encodeUnsigned (v : Nat) : Chain (encodeUnsigned v) := by
  induction v using Nat.strong_induction_on with
  | _ v ih =>
    rcases Nat.lt_or_ge v 128 with h | h
    · rw [encodeUnsigned_of_lt h]
      exact Chain.last (by rw [toNat_ofNat_of_lt (by omega)]; exact h)
    · rw [encodeUnsigned_of_ge h]
      exact Chain.more (by rw [UnsignedVint.toNat_ofNat_or_128]; omega) (ih _ (by omega))

theorem groups_encodeUnsigned (v : Nat) : groups (encodeUnsigned v) = v := by
  induction v using Nat.strong_induction_on with
  | _ v ih =>
    rcases Nat.lt_or_ge v 128 with h | h
    · rw [encodeUnsigned_of_lt h, groups, groups, toNat_ofNat_of_lt (by omega)]
      omega
    · rw [encodeUnsigned_of_ge h, groups, ih _ (by omega), UnsignedVint.toNat_ofNat_or_128]
      omega

/-- A value below `2 ^ (7 (k + 1))` takes at most `k + 1` bytes. -/
theorem length_encodeUnsigned_le : ∀ (k v : Nat), v < 2 ^ (7 * (k + 1)) →
    (encodeUnsigned v).length ≤ k + 1
  | 0, v, hv => by
    rw [encodeUnsigned_of_lt (by simpa using hv)]
    simp
  | k + 1, v, hv => by
    rcases Nat.lt_or_ge v 128 with h | h
    · rw [encodeUnsigned_of_lt h]
      simp
    · have hpow : 2 ^ (7 * (k + 1 + 1)) = 128 * 2 ^ (7 * (k + 1)) := by
        rw [Nat.mul_succ, Nat.pow_add, Nat.mul_comm]
      have hrest := length_encodeUnsigned_le k (v / 128) (by omega)
      rw [encodeUnsigned_of_ge h, List.length_cons]
      omega

/-- The signed writer stops after one byte exactly for the values of seven
    signed bits. -/
theorem encodeSigned_of_small {v : Int} (h1 : -64 ≤ v) (h2 : v < 64) :
    encodeSigned v = [UInt8.ofNat (v % 128).toNat] := by
  have hbit := and_64_eq_zero_iff (b := (v % 128).toNat) (by omega)
  rw [encodeSigned, Int.shiftRight_eq_div_pow]
  simp only [Nat.reducePow, Nat.cast_ofNat]
  rw [if_pos (by omega)]

theorem encodeSigned_of_large {v : Int} (h : v < -64 ∨ 64 ≤ v) :
    encodeSigned v = UInt8.ofNat ((v % 128).toNat ||| 0x80) :: encodeSigned (v / 128) := by
  have hbit := and_64_eq_zero_iff (b := (v % 128).toNat) (by omega)
  rw [encodeSigned, Int.shiftRight_eq_div_pow]
  simp only [Nat.reducePow, Nat.cast_ofNat]
  rw [if_neg (by omega)]

/-- The low `7 (n + 1)` bits of `v` are its low seven and, above them, the
    low `7 n` of `v / 128`. -/
theorem emod_two_pow_succ (v : Int) (n : Nat) :
    v % 2 ^ (7 * (n + 1)) = v % 128 + 128 * (v / 128 % 2 ^ (7 * n)) := by
  have hM : (0 : Int) < 2 ^ (7 * n) := by positivity
  have hpow : (2 : Int) ^ (7 * (n + 1)) = 128 * 2 ^ (7 * n) := by
    rw [Nat.mul_succ, pow_add]
    ring
  have hsplit : v = (v % 128 + 128 * (v / 128 % 2 ^ (7 * n))) +
      128 * 2 ^ (7 * n) * (v / 128 / 2 ^ (7 * n)) := by
    have h1 := Int.emod_add_mul_ediv v 128
    have h2 := Int.emod_add_mul_ediv (v / 128) (2 ^ (7 * n))
    linear_combination -h1 - 128 * h2
  have hlow := Int.emod_nonneg (v / 128) hM.ne'
  have hhigh := Int.emod_lt_of_pos (v / 128) hM
  rw [hpow]
  conv_lhs => rw [hsplit]
  rw [Int.add_mul_emod_self_left, Int.emod_eq_of_lt (by omega) (by omega)]

theorem small_or_large (v : Int) : (-64 ≤ v ∧ v < 64) ∨ (v < -64 ∨ 64 ≤ v) := by
  omega

theorem chain_encodeSigned (v : Int) : Chain (encodeSigned v) := by
  induction hn : v.natAbs using Nat.strong_induction_on generalizing v with
  | _ n ih =>
    rcases small_or_large v with ⟨h1, h2⟩ | h
    · rw [encodeSigned_of_small h1 h2]
      exact Chain.last (by rw [toNat_ofNat_of_lt (by omega)]; omega)
    · rw [encodeSigned_of_large h]
      refine Chain.more ?_ (ih _ ?_ _ rfl)
      · rw [UnsignedVint.toNat_ofNat_or_128]
        omega
      · omega

/-- The groups of a signed value's bytes are its low bits, as many as the
    bytes hold. -/
theorem groups_encodeSigned (v : Int) :
    (groups (encodeSigned v) : Int) = v % 2 ^ (7 * (encodeSigned v).length) := by
  induction hn : v.natAbs using Nat.strong_induction_on generalizing v with
  | _ n ih =>
    rcases small_or_large v with ⟨h1, h2⟩ | h
    · rw [encodeSigned_of_small h1 h2, groups, groups, toNat_ofNat_of_lt (by omega)]
      simp only [List.length_singleton, Nat.mul_one]
      omega
    · have hrest := ih _ (by omega) (v / 128) rfl
      rw [encodeSigned_of_large h, groups, List.length_cons, emod_two_pow_succ, ← hrest,
        UnsignedVint.toNat_ofNat_or_128]
      omega

/-- The bytes of a signed value hold its sign: it is a value of as many
    signed bits as they hold. -/
theorem encodeSigned_range (v : Int) :
    -2 ^ (7 * (encodeSigned v).length - 1) ≤ v ∧ v < 2 ^ (7 * (encodeSigned v).length - 1) := by
  induction hn : v.natAbs using Nat.strong_induction_on generalizing v with
  | _ n ih =>
    rcases small_or_large v with ⟨h1, h2⟩ | h
    · rw [encodeSigned_of_small h1 h2]
      simp only [List.length_singleton, Nat.mul_one, Nat.add_one_sub_one]
      omega
    · obtain ⟨hlo, hhi⟩ := ih _ (by omega) (v / 128) rfl
      have hpos := (chain_encodeSigned (v / 128)).length_pos
      have hpow : (2 : Int) ^ (7 * ((encodeSigned (v / 128)).length + 1) - 1) =
          128 * 2 ^ (7 * (encodeSigned (v / 128)).length - 1) := by
        rw [show 7 * ((encodeSigned (v / 128)).length + 1) - 1 =
          7 + (7 * (encodeSigned (v / 128)).length - 1) by omega, pow_add]
        norm_num
      rw [encodeSigned_of_large h, List.length_cons, hpow]
      omega

/-- A value of `7 (k + 1)` signed bits takes at most `k + 1` bytes. -/
theorem length_encodeSigned_le (k : Nat) : ∀ v : Int, -2 ^ (7 * k + 6) ≤ v →
    v < 2 ^ (7 * k + 6) → (encodeSigned v).length ≤ k + 1 := by
  induction k with
  | zero =>
    intro v h1 h2
    rw [encodeSigned_of_small (by simpa using h1) (by simpa using h2)]
    simp
  | succ k ih =>
    intro v h1 h2
    rcases small_or_large v with ⟨hs1, hs2⟩ | h
    · rw [encodeSigned_of_small hs1 hs2]
      simp
    · have hpow : (2 : Int) ^ (7 * (k + 1) + 6) = 128 * 2 ^ (7 * k + 6) := by
        rw [show 7 * (k + 1) + 6 = 7 + (7 * k + 6) by omega, pow_add]
        norm_num
      have hrest := ih (v / 128) (by omega) (by omega)
      rw [encodeSigned_of_large h, List.length_cons]
      omega

/-! ## What the reader reads

    One turn of the loop puts a byte's seven bits above those read; a
    `Chain` is read to its end when the width holds it
    (`decodeLoop_of_chain`), every run that returns has read bytes whose
    groups are its bits (`decodeLoop_reads`), and bytes that all continue
    the number run the shift past the width (`decodeLoop_of_continues`). -/

section Loop

variable {size : Nat}

theorem decodeLoop_of_stop {bytes : List UInt8} {result shift : Nat} {byte : UInt8}
    (h : ¬ (shift < size ∧ byte.toNat &&& 0x80 ≠ 0)) :
    decodeLoop size bytes result shift byte = .ok (result, shift, byte, bytes) := by
  rw [decodeLoop.eq_def, if_neg h]

theorem decodeLoop_nil {result shift : Nat} {byte : UInt8} (hs : shift < size)
    (hb : 128 ≤ byte.toNat) : decodeLoop size [] result shift byte = .error .outOfRange := by
  rw [decodeLoop, if_pos ⟨hs, (and_128_ne_zero_iff byte.toNat_lt).2 hb⟩]

theorem decodeLoop_cons {next : UInt8} {bytes : List UInt8} {result shift : Nat} {byte : UInt8}
    (hs : shift < size) (hb : 128 ≤ byte.toNat) :
    decodeLoop size (next :: bytes) result shift byte =
      decodeLoop size bytes ((result ||| (next.toNat &&& 0x7F) <<< shift) % 2 ^ size) (shift + 7)
        next := by
  rw [decodeLoop, if_pos ⟨hs, (and_128_ne_zero_iff byte.toNat_lt).2 hb⟩]

/-- One turn puts the byte's seven bits above the `shift` bits read. -/
theorem accumulate {acc shift : Nat} (next : UInt8) (hacc : acc < 2 ^ shift) :
    (acc ||| (next.toNat &&& 0x7F) <<< shift) % 2 ^ size =
      (acc + next.toNat % 128 * 2 ^ shift) % 2 ^ size := by
  rw [BitFields.or_shiftLeft_eq_add _ hacc, UnsignedVint.and_127, Nat.shiftLeft_eq]

theorem accumulate_lt {acc shift : Nat} (next : UInt8) (hacc : acc < 2 ^ shift) :
    (acc + next.toNat % 128 * 2 ^ shift) % 2 ^ size < 2 ^ (shift + 7) := by
  have hgroup : next.toNat % 128 * 2 ^ shift ≤ 127 * 2 ^ shift :=
    Nat.mul_le_mul_right _ (by omega)
  have hpow : 2 ^ (shift + 7) = 128 * 2 ^ shift := by rw [Nat.pow_add, Nat.mul_comm]
  exact Nat.lt_of_le_of_lt (Nat.mod_le _ _) (by omega)

/-- The turn's bits and those read after it are the bits of the byte and
    the bytes after it. -/
theorem accumulate_groups (acc shift : Nat) (b : UInt8) (bs : List UInt8) :
    ((acc + b.toNat % 128 * 2 ^ shift) % 2 ^ size + groups bs * 2 ^ (shift + 7)) % 2 ^ size =
      (acc + groups (b :: bs) * 2 ^ shift) % 2 ^ size := by
  rw [Nat.mod_add_mod, groups, Nat.pow_add]
  congr 1
  ring

/-- A chain of bytes is read to its end, whatever follows it, when the
    width holds all its bytes. -/
theorem decodeLoop_of_chain {bs : List UInt8} (hc : Chain bs) :
    ∀ {acc shift : Nat} {prev : UInt8} (rest : List UInt8), 128 ≤ prev.toNat → acc < 2 ^ shift →
      shift + 7 * (bs.length - 1) < size →
      ∃ last, bs.getLast? = some last ∧ last.toNat < 128 ∧
        decodeLoop size (bs ++ rest) acc shift prev =
          .ok ((acc + groups bs * 2 ^ shift) % 2 ^ size, shift + 7 * bs.length, last, rest) := by
  induction hc with
  | @last b hb =>
    intro acc shift prev rest hprev hacc hfit
    have hstop : ¬ (shift + 7 < size ∧ b.toNat &&& 0x80 ≠ 0) := by
      rw [and_128_ne_zero_iff b.toNat_lt]
      omega
    refine ⟨b, rfl, hb, ?_⟩
    rw [List.singleton_append, decodeLoop_cons (by simpa using hfit) hprev,
      decodeLoop_of_stop hstop, accumulate b hacc]
    simp [groups]
  | @more b bs hb hbs ih =>
    intro acc shift prev rest hprev hacc hfit
    have hpos := hbs.length_pos
    simp only [List.length_cons, Nat.add_one_sub_one] at hfit
    obtain ⟨last, hlast, hlt, hrun⟩ :=
      ih rest hb (accumulate_lt b hacc) (by omega)
    refine ⟨last, ?_, hlt, ?_⟩
    · rw [List.getLast?_cons, hlast, Option.getD_some]
    · rw [List.cons_append, decodeLoop_cons (by omega) hprev, accumulate b hacc, hrun,
        accumulate_groups, List.length_cons]
      congr 3
      ring

/-- Every run that returns has read a run of bytes off the front: their
    groups are the bits it returns, seven bits a byte, and the width held
    every byte but the last read. -/
theorem decodeLoop_reads : ∀ {bytes : List UInt8} {acc shift : Nat} {prev : UInt8}
    {result shift' : Nat} {last : UInt8} {rest : List UInt8},
    decodeLoop size bytes acc shift prev = .ok (result, shift', last, rest) →
    128 ≤ prev.toNat → shift < size → acc < 2 ^ shift →
    ∃ bs, bytes = bs ++ rest ∧ bs.getLast? = some last ∧
      result = (acc + groups bs * 2 ^ shift) % 2 ^ size ∧ shift' = shift + 7 * bs.length ∧
      shift + 7 * (bs.length - 1) < size
  | [], _, _, _, _, _, _, _, h, hprev, hs, _ => by
    rw [decodeLoop_nil hs hprev] at h
    cases h
  | b :: bytes, acc, shift, prev, result, shift', last, rest, h, hprev, hs, hacc => by
    rw [decodeLoop_cons hs hprev, accumulate b hacc] at h
    by_cases hmore : shift + 7 < size ∧ 128 ≤ b.toNat
    · -- the byte continues the number and the width holds the next one
      obtain ⟨bs, rfl, hlast, hres, hshift, hfit⟩ :=
        decodeLoop_reads h hmore.2 hmore.1 (accumulate_lt b hacc)
      have hpos : 0 < bs.length := by
        cases bs with
        | nil => cases hlast
        | cons _ _ => simp
      refine ⟨b :: bs, rfl, ?_, ?_, ?_, ?_⟩
      · rw [List.getLast?_cons, hlast, Option.getD_some]
      · rw [hres, accumulate_groups]
      · rw [hshift, List.length_cons]
        ring
      · rw [List.length_cons]
        omega
    · -- the loop stops after this byte
      have hstop : ¬ (shift + 7 < size ∧ b.toNat &&& 0x80 ≠ 0) := by
        rw [and_128_ne_zero_iff b.toNat_lt]
        exact hmore
      rw [decodeLoop_of_stop hstop] at h
      obtain ⟨rfl, rfl, rfl, rfl⟩ : _ = result ∧ _ = shift' ∧ b = last ∧ bytes = rest := by
        simpa using h
      refine ⟨[b], rfl, rfl, ?_, rfl, by simpa using hs⟩
      simp [groups]

/-- Bytes that all continue the number run the shift to the width: the loop
    stops at a byte that still continues it, after `k` bytes. -/
theorem decodeLoop_of_continues (k : Nat) : ∀ {bytes : List UInt8} {acc shift : Nat}
    {prev : UInt8}, 128 ≤ prev.toNat → size ≤ shift + 7 * k → shift + 7 * k < size + 7 →
    k ≤ bytes.length → (∀ b ∈ bytes.take k, 128 ≤ b.toNat) →
    ∃ result last, 128 ≤ last.toNat ∧
      decodeLoop size bytes acc shift prev = .ok (result, shift + 7 * k, last, bytes.drop k) := by
  induction k with
  | zero =>
    intro bytes acc shift prev hprev hlo _ _ _
    have hstop : ¬ (shift < size ∧ prev.toNat &&& 0x80 ≠ 0) := by omega
    exact ⟨acc, prev, hprev, by rw [decodeLoop_of_stop hstop]; rfl⟩
  | succ k ih =>
    intro bytes acc shift prev hprev hlo hhi hlen hcont
    obtain ⟨b, bytes, rfl⟩ := List.exists_cons_of_length_pos (by omega : 0 < bytes.length)
    rw [List.take_succ_cons] at hcont
    obtain ⟨result, last, hlast, hrun⟩ :=
      @ih bytes ((acc ||| (b.toNat &&& 0x7F) <<< shift) % 2 ^ size) (shift + 7) b
        (hcont b (by simp)) (by omega) (by omega) (by simpa using hlen)
        (fun x hx => hcont x (by simp [hx]))
    refine ⟨result, last, hlast, ?_⟩
    rw [decodeLoop_cons (by omega) hprev, hrun, List.drop_succ_cons]
    congr 3
    omega

end Loop

/-- `decode` once its loop has stopped at a byte with bit 7 clear. -/
theorem decode_of_loop {t : IntType} {bytes rest : List UInt8} {result shift : Nat}
    {last : UInt8} (hloop : decodeLoop t.size bytes 0 0 0x80 = .ok (result, shift, last, rest))
    (hlast : last.toNat < 128) : decode t bytes = .ok (resultValue t result shift last, rest) := by
  have h7 : ¬ (last.toNat &&& 0x80 ≠ 0) := by
    rw [and_128_ne_zero_iff last.toNat_lt]
    omega
  rw [decode, hloop]
  simp only [if_neg h7]

/-- `decode` once its loop has stopped at a byte that still continues the
    number. -/
theorem decode_of_loop_continues {t : IntType} {bytes rest : List UInt8} {result shift : Nat}
    {last : UInt8} (hloop : decodeLoop t.size bytes 0 0 0x80 = .ok (result, shift, last, rest))
    (hlast : 128 ≤ last.toNat) : decode t bytes = .error .decodeException := by
  rw [decode, hloop]
  simp only [if_pos ((and_128_ne_zero_iff last.toNat_lt).2 hlast)]

/-- Every value `decode` returns comes from a loop that stopped at a byte
    with bit 7 clear. -/
theorem decode_eq_ok {t : IntType} {bytes rest : List UInt8} {v : Int}
    (h : decode t bytes = .ok (v, rest)) : ∃ result shift last,
      decodeLoop t.size bytes 0 0 0x80 = .ok (result, shift, last, rest) ∧ last.toNat < 128 ∧
        v = resultValue t result shift last := by
  cases hloop : decodeLoop t.size bytes 0 0 0x80 with
  | error e =>
    rw [decode, hloop] at h
    cases h
  | ok r =>
    obtain ⟨result, shift, last, rest'⟩ := r
    by_cases hl : 128 ≤ last.toNat
    · rw [decode_of_loop_continues hloop hl] at h
      cases h
    · rw [decode_of_loop hloop (by omega)] at h
      obtain ⟨rfl, rfl⟩ : resultValue t result shift last = v ∧ rest' = rest := by simpa using h
      exact ⟨result, shift, last, rfl, by omega, rfl⟩

/-! ## Values

    Two values of `m` signed bits with the same low `m` bits are equal
    (`SignedBits.eq_of_emod`).  The reader's value is one such, of as many
    bits as it read or as the type has, whichever is fewer
    (`signedBits_resultValue`), and so is the value the writer wrote. -/

theorem two_pow_eq_two_mul {n : Nat} (hn : 0 < n) : 2 ^ n = 2 * 2 ^ (n - 1) := by
  obtain ⟨m, rfl⟩ := Nat.exists_eq_succ_of_ne_zero hn.ne'
  rw [Nat.succ_sub_one, Nat.pow_succ']

theorem SignedBits.mono {m m' : Nat} {v : Int} (h : m ≤ m') (hv : SignedBits m v) :
    SignedBits m' v := by
  have hpow : (2 : Int) ^ (m - 1) ≤ 2 ^ (m' - 1) := pow_le_pow_right₀ (by norm_num) (by omega)
  exact ⟨by linarith [hv.1], by linarith [hv.2]⟩

/-- Values of `m` signed bits are told apart by their low `m` bits. -/
theorem SignedBits.eq_of_emod {m : Nat} (hm : 0 < m) {a b : Int} (ha : SignedBits m a)
    (hb : SignedBits m b) (h : a % 2 ^ m = b % 2 ^ m) : a = b := by
  have hpow : (2 : Int) ^ m = 2 * 2 ^ (m - 1) := by exact_mod_cast two_pow_eq_two_mul hm
  have hshift : (a + 2 ^ (m - 1)) % 2 ^ m = (b + 2 ^ (m - 1)) % 2 ^ m :=
    (Int.emod_add_cancel_right _).2 h
  rw [Int.emod_eq_of_lt (by linarith [ha.1]) (by linarith [ha.2]),
    Int.emod_eq_of_lt (by linarith [hb.1]) (by linarith [hb.2])] at hshift
  linarith

namespace IntType

theorem size_pos (t : IntType) : 0 < t.size := by
  cases t <;> decide

theorem ofBits_of_lt {t : IntType} {bits : Nat} (h : bits < 2 ^ (t.size - 1)) :
    t.ofBits bits = bits := by
  rw [ofBits, if_neg (by omega)]

theorem ofBits_unsigned {t : IntType} (ht : t.signed = false) (bits : Nat) :
    t.ofBits bits = bits := by
  rw [ofBits, if_neg (by simp [ht])]

theorem ofBits_of_ge {t : IntType} (ht : t.signed = true) {bits : Nat}
    (h : 2 ^ (t.size - 1) ≤ bits) : t.ofBits bits = bits - 2 ^ t.size := by
  rw [ofBits, if_pos ⟨ht, h⟩]

/-- The value keeps the bits it was made of. -/
theorem ofBits_emod (t : IntType) (bits : Nat) :
    t.ofBits bits % 2 ^ t.size = bits % 2 ^ t.size := by
  unfold ofBits
  split_ifs
  · exact Int.sub_emod_right _ _
  · rfl

/-- The bits of a signed type make a value of the type. -/
theorem signedBits_ofBits {t : IntType} (ht : t.signed = true) {bits : Nat}
    (hb : bits < 2 ^ t.size) : SignedBits t.size (t.ofBits bits) := by
  have hpow := two_pow_eq_two_mul t.size_pos
  have hcast : ((2 ^ t.size : Nat) : Int) = 2 ^ t.size := by norm_cast
  have hcast' : ((2 ^ (t.size - 1) : Nat) : Int) = 2 ^ (t.size - 1) := by norm_cast
  have hb' : (bits : Int) < ((2 ^ t.size : Nat) : Int) := by exact_mod_cast hb
  have hpow' : ((2 ^ t.size : Nat) : Int) = 2 * ((2 ^ (t.size - 1) : Nat) : Int) := by
    exact_mod_cast hpow
  by_cases hge : 2 ^ (t.size - 1) ≤ bits
  · have hge' : ((2 ^ (t.size - 1) : Nat) : Int) ≤ bits := by exact_mod_cast hge
    rw [ofBits_of_ge ht hge, SignedBits, ← hcast, ← hcast']
    omega
  · have hlt' : (bits : Int) < ((2 ^ (t.size - 1) : Nat) : Int) := by exact_mod_cast (by omega)
    rw [ofBits_of_lt (by omega), SignedBits, ← hcast']
    omega

end IntType

/-- `~int_type(0) << shift` cut to the type's width: every bit from `shift`
    up. -/
theorem ones_shiftLeft_mod (m j : Nat) :
    ((2 ^ (m + j) - 1) <<< m) % 2 ^ (m + j) = (2 ^ j - 1) <<< m := by
  rw [BitFields.shiftLeft_mod_two_pow_add]
  congr 1
  have hX : 1 ≤ 2 ^ j := Nat.one_le_two_pow
  have hXY : 2 ^ j ≤ 2 ^ j * 2 ^ m := Nat.le_mul_of_pos_right _ (Nat.two_pow_pos m)
  have hsplit : 2 ^ (m + j) - 1 = (2 ^ j - 1) + 2 ^ j * (2 ^ m - 1) := by
    rw [Nat.mul_sub_one, Nat.pow_add, Nat.mul_comm (2 ^ m)]
    omega
  rw [hsplit, Nat.add_mul_mod_self_left, Nat.mod_eq_of_lt (by omega)]

/-- Setting the bits from `m` up of bits below `m` adds what they are worth. -/
theorem or_ones_shiftLeft {bits m size : Nat} (hb : bits < 2 ^ m) (hm : m ≤ size) :
    bits ||| ((2 ^ size - 1) <<< m) % 2 ^ size = bits + (2 ^ size - 2 ^ m) := by
  obtain ⟨j, rfl⟩ := Nat.exists_eq_add_of_le hm
  rw [ones_shiftLeft_mod, BitFields.or_shiftLeft_eq_add _ hb, Nat.shiftLeft_eq, Nat.sub_mul,
    Nat.one_mul, ← Nat.pow_add, Nat.add_comm j m]

/-- Bit 6 of the last byte is the top bit of the groups. -/
theorem groups_ge_iff : ∀ {bs : List UInt8} {last : UInt8}, bs.getLast? = some last →
    (2 ^ (7 * bs.length - 1) ≤ groups bs ↔ 64 ≤ last.toNat % 128)
  | [], _, h => by cases h
  | [b], last, h => by
    obtain rfl : b = last := by simpa using h
    simp [groups]
  | b :: c :: cs, last, h => by
    have ih := @groups_ge_iff (c :: cs) last (by rwa [List.getLast?_cons_cons] at h)
    have hpow : 2 ^ (7 * ((c :: cs).length + 1) - 1) = 128 * 2 ^ (7 * (c :: cs).length - 1) := by
      rw [show 7 * ((c :: cs).length + 1) - 1 = 7 + (7 * (c :: cs).length - 1) by simp; omega,
        Nat.pow_add]
    rw [groups, List.length_cons, hpow, ← ih]
    omega

theorem resultValue_unsigned {t : IntType} (ht : t.signed = false) (result shift : Nat)
    (last : UInt8) : resultValue t result shift last = result := by
  rw [resultValue, if_neg (by simp [ht]), IntType.ofBits_unsigned ht]

/-- The reader's value from the bytes `bs` it read, sign-extended: the
    value of `7 * bs.length` signed bits whose low bits the bytes hold. -/
theorem signedBits_resultValue_extended {t : IntType} (ht : t.signed = true) {bs : List UInt8}
    (hk : 0 < bs.length) (hlt : 7 * bs.length < t.size)
    (hneg : 2 ^ (7 * bs.length - 1) ≤ groups bs) :
    SignedBits (7 * bs.length)
        (t.ofBits (groups bs ||| ((2 ^ t.size - 1) <<< (7 * bs.length)) % 2 ^ t.size)) ∧
      t.ofBits (groups bs ||| ((2 ^ t.size - 1) <<< (7 * bs.length)) % 2 ^ t.size) %
        2 ^ (7 * bs.length) = (groups bs : Int) % 2 ^ (7 * bs.length) := by
  have hg := groups_lt bs
  have hS := two_pow_eq_two_mul t.size_pos
  have hK := two_pow_eq_two_mul (show 0 < 7 * bs.length by omega)
  have hKS : 2 ^ (7 * bs.length - 1) ≤ 2 ^ (t.size - 1) := Nat.pow_le_pow_right (by omega) (by omega)
  rw [or_ones_shiftLeft hg hlt.le, IntType.ofBits_of_ge ht (by omega)]
  have hvalue : ((groups bs + (2 ^ t.size - 2 ^ (7 * bs.length)) : Nat) : Int) - 2 ^ t.size =
      (groups bs : Int) - 2 ^ (7 * bs.length) := by
    push_cast [Nat.cast_sub (show 2 ^ (7 * bs.length) ≤ 2 ^ t.size by omega)]
    ring
  rw [hvalue, Int.sub_emod_right]
  refine ⟨⟨?_, ?_⟩, rfl⟩
  · have : ((2 ^ (7 * bs.length) : Nat) : Int) ≤ groups bs + 2 ^ (7 * bs.length - 1) := by
      exact_mod_cast (by omega)
    push_cast at this
    linarith
  · have : (groups bs : Int) < ((2 ^ (7 * bs.length) : Nat) : Int) := by exact_mod_cast hg
    push_cast at this
    have hpos : (0 : Int) < 2 ^ (7 * bs.length - 1) := by positivity
    linarith

/-- What the reader makes of the bytes `bs` it read for a signed type: a
    value of as many signed bits as they hold or as the type has, whichever
    is fewer, with the bytes' low bits. -/
theorem signedBits_resultValue {t : IntType} (ht : t.signed = true) {bs : List UInt8}
    {last : UInt8} (hlast : bs.getLast? = some last) :
    SignedBits (min (7 * bs.length) t.size)
        (resultValue t (groups bs % 2 ^ t.size) (7 * bs.length) last) ∧
      resultValue t (groups bs % 2 ^ t.size) (7 * bs.length) last %
        2 ^ (min (7 * bs.length) t.size) = (groups bs : Int) % 2 ^ (min (7 * bs.length) t.size) := by
  have hk : 0 < bs.length := by
    cases bs with
    | nil => cases hlast
    | cons _ _ => simp
  have hbit : last.toNat &&& 0x40 ≠ 0 ↔ 2 ^ (7 * bs.length - 1) ≤ groups bs := by
    rw [ne_eq, and_64_eq_zero_iff last.toNat_lt, groups_ge_iff hlast]
    omega
  have hg := groups_lt bs
  rcases Nat.lt_or_ge (7 * bs.length) t.size with hlt7 | hge7
  · -- the bytes end below the width: the sign is bit 6 of the last one
    have hgS : groups bs % 2 ^ t.size = groups bs :=
      Nat.mod_eq_of_lt (Nat.lt_of_lt_of_le hg (Nat.pow_le_pow_right (by omega) hlt7.le))
    rw [Nat.min_eq_left hlt7.le, resultValue, hgS]
    by_cases hneg : 2 ^ (7 * bs.length - 1) ≤ groups bs
    · rw [if_pos ⟨ht, hlt7, hbit.2 hneg⟩]
      exact signedBits_resultValue_extended ht hk hlt7 hneg
    · have hKS : 2 ^ (7 * bs.length - 1) ≤ 2 ^ (t.size - 1) :=
        Nat.pow_le_pow_right (by omega) (by omega)
      rw [if_neg (fun h => hneg (hbit.1 h.2.2)), IntType.ofBits_of_lt (by omega)]
      refine ⟨⟨?_, ?_⟩, rfl⟩
      · have hpos : (0 : Int) < 2 ^ (7 * bs.length - 1) := by positivity
        have := Int.natCast_nonneg (groups bs)
        linarith
      · exact_mod_cast (by omega : groups bs < 2 ^ (7 * bs.length - 1))
  · -- the width is full: the value is the type's bits
    have hstop : ¬ (t.signed = true ∧ 7 * bs.length < t.size ∧ last.toNat &&& 0x40 ≠ 0) := by
      omega
    rw [Nat.min_eq_right hge7, resultValue, if_neg hstop, IntType.ofBits_emod]
    refine ⟨IntType.signedBits_ofBits ht (Nat.mod_lt _ (by positivity)), ?_⟩
    push_cast
    exact Int.emod_emod _ _

/-! ## The round trip

    The writer's bytes fit the type (`length_encode_le`), the reader reads
    them back and stops after them (`decode_encode`), and no bytes the
    reader reads a value from are fewer than the writer writes for it
    (`length_encode_le_of_decode`).  The reader reads at most
    `⌈size / 7⌉` bytes (`decodeLoop_consumes_le`) and throws when all of
    them continue the number (`decode_of_continues`). -/

/-- The bytes of a value of the type number at most `⌈size / 7⌉`. -/
theorem length_encode_le {t : IntType} {v : Int} (hv : t.InRange v) :
    (encode t v).length ≤ (t.size + 6) / 7 := by
  have hS := t.size_pos
  unfold encode
  unfold IntType.InRange at hv
  cases hs : t.signed
  · -- unsigned: the value is below `2 ^ size ≤ 2 ^ (7 ⌈size / 7⌉)`
    simp only [hs, Bool.false_eq_true, if_false] at hv ⊢
    have hpow : 2 ^ t.size ≤ 2 ^ (7 * ((t.size + 6) / 7 - 1 + 1)) :=
      Nat.pow_le_pow_right (by omega) (by omega)
    have hv' : v.toNat < 2 ^ t.size := by
      have : v < ((2 ^ t.size : Nat) : Int) := by exact_mod_cast hv.2
      omega
    have := length_encodeUnsigned_le _ v.toNat (Nat.lt_of_lt_of_le hv' hpow)
    omega
  · -- signed: the value is one of `size ≤ 7 ⌈size / 7⌉` signed bits
    simp only [hs, if_true] at hv ⊢
    obtain ⟨h1, h2⟩ := hv.mono (show t.size ≤ 7 * ((t.size + 6) / 7 - 1) + 7 by omega)
    rw [show 7 * ((t.size + 6) / 7 - 1) + 7 - 1 = 7 * ((t.size + 6) / 7 - 1) + 6 by omega] at h1 h2
    have := length_encodeSigned_le _ _ h1 h2
    omega

/-- The reader reads a chain that fits the type to its end. -/
theorem decode_of_chain {t : IntType} {bs : List UInt8} (hc : Chain bs)
    (hfit : 7 * (bs.length - 1) < t.size) (rest : List UInt8) :
    ∃ last, bs.getLast? = some last ∧
      decode t (bs ++ rest) = .ok (resultValue t (groups bs % 2 ^ t.size) (7 * bs.length) last, rest) := by
  obtain ⟨last, hlast, hlt, hrun⟩ :=
    @decodeLoop_of_chain t.size bs hc 0 0 0x80 rest (by decide) (by simp) (by simpa using hfit)
  simp only [Nat.pow_zero, Nat.mul_one, Nat.zero_add] at hrun
  exact ⟨last, hlast, decode_of_loop hrun hlt⟩

theorem decode_encodeUnsigned {t : IntType} (ht : t.signed = false) {v : Nat}
    (hv : v < 2 ^ t.size) (rest : List UInt8) :
    decode t (encodeUnsigned v ++ rest) = .ok (v, rest) := by
  have hlen : (encodeUnsigned v).length ≤ (t.size + 6) / 7 := by
    have := @length_encode_le t v (by simp [IntType.InRange, ht]; exact_mod_cast hv)
    simpa [encode, ht] using this
  have hpos := (chain_encodeUnsigned v).length_pos
  obtain ⟨last, -, hdec⟩ := decode_of_chain (t := t) (chain_encodeUnsigned v) (by omega) rest
  rw [hdec, resultValue_unsigned ht, groups_encodeUnsigned, Nat.mod_eq_of_lt hv]

theorem decode_encodeSigned {t : IntType} (ht : t.signed = true) {v : Int}
    (hv : SignedBits t.size v) (rest : List UInt8) :
    decode t (encodeSigned v ++ rest) = .ok (v, rest) := by
  have hlen : (encodeSigned v).length ≤ (t.size + 6) / 7 := by
    have := @length_encode_le t v (by simpa [IntType.InRange, ht] using hv)
    simpa [encode, ht] using this
  have hpos := (chain_encodeSigned v).length_pos
  have hfit : 7 * ((encodeSigned v).length - 1) < t.size := by omega
  obtain ⟨last, hlast, hdec⟩ := decode_of_chain (chain_encodeSigned v) hfit rest
  obtain ⟨hread, hmod⟩ := signedBits_resultValue ht hlast
  rw [hdec]
  congr 2
  -- both values are of `min (7 * length) size` signed bits with the same low bits
  have hm : 0 < min (7 * (encodeSigned v).length) t.size := by
    have := t.size_pos
    omega
  have hwrote : SignedBits (min (7 * (encodeSigned v).length) t.size) v := by
    rcases Nat.le_total (7 * (encodeSigned v).length) t.size with h | h
    · rw [Nat.min_eq_left h]
      exact encodeSigned_range v
    · rw [Nat.min_eq_right h]
      exact hv
  refine SignedBits.eq_of_emod hm hread hwrote ?_
  rw [hmod, groups_encodeSigned, Int.emod_emod_of_dvd _ (pow_dvd_pow 2 (Nat.min_le_left _ _))]

/-- `decode<T>(encode<T>(v))` is `v`, and the reader stops right after the
    writer's bytes. -/
theorem decode_encode {t : IntType} {v : Int} (hv : t.InRange v) (rest : List UInt8) :
    decode t (encode t v ++ rest) = .ok (v, rest) := by
  unfold encode
  unfold IntType.InRange at hv
  cases hs : t.signed
  · simp only [hs, Bool.false_eq_true, if_false] at hv ⊢
    have hv' : v.toNat < 2 ^ t.size := by
      have : v < ((2 ^ t.size : Nat) : Int) := by exact_mod_cast hv.2
      omega
    rw [decode_encodeUnsigned hs hv' rest, Int.toNat_of_nonneg hv.1]
  · simp only [hs, if_true] at hv ⊢
    exact decode_encodeSigned hs hv rest

example : encode .int32 (-123456) = [0xc0, 0xbb, 0x78] ∧
    decode .int32 [0xc0, 0xbb, 0x78, 7] = .ok (-123456, [7]) := by
  decide +kernel

/-- The reader reads every value from at least as many bytes as the writer
    writes for it. -/
theorem length_encode_le_of_decode {t : IntType} {bytes rest : List UInt8} {v : Int}
    (h : decode t bytes = .ok (v, rest)) :
    ∃ read, bytes = read ++ rest ∧ (encode t v).length ≤ read.length := by
  obtain ⟨result, shift, last, hloop, -, rfl⟩ := decode_eq_ok h
  obtain ⟨bs, rfl, hlast, hres, hshift, hfit⟩ :=
    decodeLoop_reads hloop (by decide) t.size_pos (by simp)
  simp only [Nat.pow_zero, Nat.mul_one, Nat.zero_add] at hres hshift hfit
  subst hres hshift
  have hpos : 0 < bs.length := by
    cases bs with
    | nil => cases hlast
    | cons _ _ => simp
  refine ⟨bs, rfl, ?_⟩
  unfold encode
  cases hs : t.signed
  · -- unsigned: the value is the bits read, below `2 ^ (7 * length)`
    rw [if_neg (by simp), resultValue_unsigned hs, Int.toNat_natCast]
    have hread : groups bs % 2 ^ t.size < 2 ^ (7 * (bs.length - 1 + 1)) := by
      rw [Nat.sub_add_cancel hpos]
      exact Nat.lt_of_le_of_lt (Nat.mod_le _ _) (groups_lt bs)
    have := length_encodeUnsigned_le _ _ hread
    omega
  · -- signed: the value is one of `7 * length` signed bits
    rw [if_pos rfl]
    obtain ⟨h1, h2⟩ := (signedBits_resultValue hs hlast).1.mono (Nat.min_le_left _ _)
    rw [show 7 * bs.length - 1 = 7 * (bs.length - 1) + 6 by omega] at h1 h2
    have := length_encodeSigned_le _ _ h1 h2
    omega

/-- The reader's loop reads at most `⌈size / 7⌉` bytes off the front. -/
theorem decodeLoop_consumes_le {t : IntType} {bytes rest : List UInt8} {result shift : Nat}
    {last : UInt8} (h : decodeLoop t.size bytes 0 0 0x80 = .ok (result, shift, last, rest)) :
    ∃ read, bytes = read ++ rest ∧ read.length ≤ (t.size + 6) / 7 := by
  obtain ⟨bs, rfl, hlast, -, -, hfit⟩ := decodeLoop_reads h (by decide) t.size_pos (by simp)
  have hpos : 0 < bs.length := by
    cases bs with
    | nil => cases hlast
    | cons _ _ => simp
  exact ⟨bs, rfl, by omega⟩

/-- When the first `⌈size / 7⌉` bytes all continue the number, the reader
    stops at the last of them and throws `decode_exception`. -/
theorem decode_of_continues {t : IntType} {bytes : List UInt8}
    (hlen : (t.size + 6) / 7 ≤ bytes.length)
    (hcont : ∀ b ∈ bytes.take ((t.size + 6) / 7), 128 ≤ b.toNat) :
    decode t bytes = .error .decodeException := by
  obtain ⟨result, last, hlast, hrun⟩ :=
    @decodeLoop_of_continues t.size ((t.size + 6) / 7) bytes 0 0 0x80 (by decide) (by omega)
      (by omega) hlen hcont
  exact decode_of_loop_continues hrun hlast

/-- The reader reads at most `⌈size / 7⌉` bytes for a value it returns. -/
theorem decode_consumes_le {t : IntType} {bytes rest : List UInt8} {v : Int}
    (h : decode t bytes = .ok (v, rest)) :
    ∃ read, bytes = read ++ rest ∧ read.length ≤ (t.size + 6) / 7 := by
  obtain ⟨result, shift, last, hloop, -, -⟩ := decode_eq_ok h
  exact decodeLoop_consumes_le hloop

theorem leb128_round_trip_minimal_bounded :
    (∀ (t : IntType) (v : Int) (rest : List UInt8), t.InRange v →
      decode t (encode t v ++ rest) = .ok (v, rest) ∧ (encode t v).length ≤ (t.size + 6) / 7) ∧
    (∀ (t : IntType) (bytes rest : List UInt8) (v : Int), decode t bytes = .ok (v, rest) →
      ∃ read, bytes = read ++ rest ∧ (encode t v).length ≤ read.length ∧
        read.length ≤ (t.size + 6) / 7) ∧
    (∀ (t : IntType) (bytes rest : List UInt8) (result shift : Nat) (last : UInt8),
      decodeLoop t.size bytes 0 0 0x80 = .ok (result, shift, last, rest) →
      ∃ read, bytes = read ++ rest ∧ read.length ≤ (t.size + 6) / 7) ∧
    (∀ (t : IntType) (bytes : List UInt8), (t.size + 6) / 7 ≤ bytes.length →
      (∀ b ∈ bytes.take ((t.size + 6) / 7), 128 ≤ b.toNat) →
      decode t bytes = .error .decodeException) := by
  refine ⟨fun _ _ rest hv => ⟨decode_encode hv rest, length_encode_le hv⟩, ?_,
    fun _ _ _ _ _ _ h => decodeLoop_consumes_le h, fun _ _ hlen hcont => decode_of_continues hlen hcont⟩
  intro t bytes rest v h
  obtain ⟨read, hread, hmin⟩ := length_encode_le_of_decode h
  obtain ⟨read', hread', hmax⟩ := decode_consumes_le h
  -- both are the bytes in front of `rest`
  obtain rfl : read = read' := List.append_cancel_right (hread.symm.trans hread')
  exact ⟨read, hread, hmin, hmax⟩

theorem leb128_round_trip_int32_min :
    (IntType.int32.InRange (-2147483648) ∧
      decode .int32 (encode .int32 (-2147483648) ++ [7]) = .ok (-2147483648, [7]) ∧
      (encode .int32 (-2147483648)).length ≤ 5) ∧
    (5 ≤ [0x80, 0x80, 0x80, 0x80, 0x80, 0].length ∧
      (∀ b ∈ ([0x80, 0x80, 0x80, 0x80, 0x80, 0] : List UInt8).take 5, 128 ≤ b.toNat) ∧
      decode .int32 [0x80, 0x80, 0x80, 0x80, 0x80, 0] = .error .decodeException) := by
  have hv : IntType.int32.InRange (-2147483648) := by decide
  have hlen : 5 ≤ ([0x80, 0x80, 0x80, 0x80, 0x80, 0] : List UInt8).length := by decide
  have hcont : ∀ b ∈ ([0x80, 0x80, 0x80, 0x80, 0x80, 0] : List UInt8).take 5, 128 ≤ b.toNat := by
    intro b hb
    rw [show ([0x80, 0x80, 0x80, 0x80, 0x80, 0] : List UInt8).take 5 = List.replicate 5 0x80 from rfl] at hb
    rw [List.eq_of_mem_replicate hb]
    decide
  exact ⟨⟨hv, leb128_round_trip_minimal_bounded.1 .int32 _ [7] hv⟩,
    ⟨hlen, hcont, leb128_round_trip_minimal_bounded.2.2.2 .int32 _ hlen hcont⟩⟩

end Leb128
