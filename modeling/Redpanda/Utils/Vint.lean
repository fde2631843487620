import Mathlib

/-! # Variable-length integers

    Model of `utils/vint.h`.  `unsigned_vint` writes seven bits to a byte,
    least significant group first, with bit 7 set on every byte but the
    last; its reader accepts bytes while the shift stays within
    `(max_bytes - 1) * 7`.  `vint` maps a signed value to an unsigned one by
    zigzag first.  A `uint64_t` is a `Nat` below `2 ^ 64` and the reader's
    accumulator is kept modulo `2 ^ 64`; the zigzag maps work on `Int64` and
    `UInt64` as the source does.

    The writer reads back: `deserialize_serialize` for `unsigned_vint`
    (values of a `uint32_t`) and `Vint.deserialize_serialize` for `vint`
    (every `int64_t`), each taking exactly the bytes written, whose number
    `size` and `vint_size` compute apart from the writer. -/

namespace UnsignedVint

/-- `unsigned_vint::max_length`. -/
def maxLength : Nat := 5

/-- The loop of `detail::deserialize`: `var_decoder::accept` on each byte
    until it reports the last one, as (`result`, `bytes_read`). -/
def acceptAll (limit : Nat) : List UInt8 → (result bytesRead shift : Nat) → Nat × Nat
  | [], result, bytesRead, _ => (result, bytesRead)
  | byte :: bytes, result, bytesRead, shift =>
      if shift > limit then (result, bytesRead)
      else if byte.toNat &&& 128 ≠ 0 then
        acceptAll limit bytes ((result ||| (byte.toNat &&& 127) <<< shift) % 2 ^ 64)
          (bytesRead + 1) (shift + 7)
      else ((result ||| byte.toNat <<< shift) % 2 ^ 64, bytesRead + 1)

theorem acceptAll_cons (limit : Nat) (byte : UInt8) (bytes : List UInt8)
    (result bytesRead shift : Nat) :
    acceptAll limit (byte :: bytes) result bytesRead shift =
      if shift > limit then (result, bytesRead)
      else if byte.toNat &&& 128 ≠ 0 then
        acceptAll limit bytes ((result ||| (byte.toNat &&& 127) <<< shift) % 2 ^ 64)
          (bytesRead + 1) (shift + 7)
      else ((result ||| byte.toNat <<< shift) % 2 ^ 64, bytesRead + 1) := rfl

/-- `detail::deserialize`. -/
def detailDeserialize (bytes : List UInt8) (maxBytes : Nat) : Nat × Nat :=
  acceptAll ((maxBytes - 1) * 7) bytes 0 0 0

/-- `unsigned_vint::deserialize`: the value cast to `uint32_t`. -/
def deserialize (bytes : List UInt8) : Nat × Nat :=
  let (result, bytesRead) := detailDeserialize bytes maxLength
  (result % 2 ^ 32, bytesRead)

/-- `unsigned_vint::serialize`: its loop, of which the source writes out the
    first two turns; each turn shifts `value` right by seven bits, so
    `value` itself bounds the turns. -/
def serialize (value : Nat) : List UInt8 := go value value
where
  go : Nat → Nat → List UInt8
    | 0, value => [UInt8.ofNat value]
    | fuel + 1, value =>
        if value < 0x80 then [UInt8.ofNat value]
        else UInt8.ofNat (value ||| 0x80) :: go fuel (value >>> 7)

theorem serialize_go_zero (value : Nat) : serialize.go 0 value = [UInt8.ofNat value] := rfl

/-- `unsigned_vint::size`. -/
def size (v : Nat) : Nat := go v v 1
where
  go : Nat → Nat → Nat → Nat
    | 0, _, len => len
    | fuel + 1, v, len => if v ≥ 128 then go fuel (v >>> 7) (len + 1) else len

theorem size_go_zero (v len : Nat) : size.go 0 v len = len := rfl

theorem size_go_succ (fuel v len : Nat) :
    size.go (fuel + 1) v len = if v ≥ 128 then size.go fuel (v >>> 7) (len + 1) else len := rfl

/-! ## Bytes of the writer -/

theorem byte_or_128 : ∀ x : Fin 256, (x.val ||| 128) = x.val % 128 + 128 := by
  decide +kernel

theorem byte_and_128 : ∀ x : Fin 256, x.val &&& 128 = if x.val < 128 then 0 else 128 := by
  decide +kernel

/-- A byte that continues the number: the low seven bits with bit 7 set. -/
theorem toNat_ofNat_or_128 (v : Nat) : (UInt8.ofNat (v ||| 0x80)).toNat = v % 128 + 128 := by
  have hbyte := byte_or_128 ⟨v % 256, Nat.mod_lt _ (by decide)⟩
  rw [UInt8.toNat_ofNat', show (2 : Nat) ^ 8 = 2 ^ 8 from rfl, Nat.or_mod_two_pow]
  simp only [Nat.reducePow, Nat.reduceMod] at hbyte ⊢
  rw [hbyte, Nat.mod_mod_of_dvd v (by decide)]

theorem and_128_of_lt {b : Nat} (hb : b < 128) : b &&& 128 = 0 := by
  have := byte_and_128 ⟨b, by omega⟩
  simpa [hb] using this

theorem and_128_of_ge {b : Nat} (hb : 128 ≤ b) (hb' : b < 256) : b &&& 128 ≠ 0 := by
  have := byte_and_128 ⟨b, hb'⟩
  simp only [show ¬ b < 128 by omega, if_false] at this
  omega

theorem and_127 (b : Nat) : b &&& 127 = b % 128 :=
  Nat.and_two_pow_sub_one_eq_mod b 7

/-- One turn of the writer's loop. -/
theorem serialize_go_succ (fuel value : Nat) :
    serialize.go (fuel + 1) value =
      if value < 128 then [UInt8.ofNat value]
      else UInt8.ofNat (value % 128 + 128) :: serialize.go fuel (value / 128) := by
  simp only [serialize.go, Nat.shiftRight_eq_div_pow]
  split
  · rfl
  · congr 1
    apply UInt8.toNat_inj.mp
    rw [toNat_ofNat_or_128, UInt8.toNat_ofNat']
    omega

theorem serialize_go_ne_nil (fuel value : Nat) : serialize.go fuel value ≠ [] := by
  cases fuel with
  | zero => simp [serialize_go_zero]
  | succ fuel =>
      rw [serialize_go_succ]
      split <;> simp

/-- The writer emits at most `k + 1` bytes for a value below `2 ^ (7 * (k + 1))`. -/
theorem length_serialize_go_le : ∀ (k fuel value : Nat), value < 2 ^ (7 * (k + 1)) →
    (serialize.go fuel value).length ≤ k + 1 := by
  intro k
  induction k with
  | zero =>
      intro fuel value hv
      cases fuel with
      | zero => simp [serialize_go_zero]
      | succ fuel =>
          rw [serialize_go_succ, if_pos (by omega)]
          simp
  | succ k ih =>
      intro fuel value hv
      cases fuel with
      | zero => simp [serialize_go_zero]
      | succ fuel =>
          rw [serialize_go_succ]
          split
          · simp
          · have hnext : value / 128 < 2 ^ (7 * (k + 1)) := by
              rw [Nat.div_lt_iff_lt_mul (by decide)]
              have : 2 ^ (7 * (k + 1 + 1)) = 2 ^ (7 * (k + 1)) * 128 := by
                rw [show 7 * (k + 1 + 1) = 7 * (k + 1) + 7 by omega, Nat.pow_add]
              omega
            simp only [List.length_cons]
            have := ih fuel (value / 128) hnext
            omega

/-! ## Reading the writer's bytes back -/

/-- Adding a group at a shift above the bits read so far. -/
theorem or_shiftLeft_of_lt {r g s : Nat} (hr : r < 2 ^ s) (hfit : r + g * 2 ^ s < 2 ^ 64) :
    (r ||| g <<< s) % 2 ^ 64 = r + g * 2 ^ s := by
  rw [Nat.or_comm, ← Nat.shiftLeft_add_eq_or_of_lt hr, Nat.shiftLeft_eq]
  omega

/-- **THE READER TAKES THE WRITER'S GROUPS**: started at shift `s` with the
    bits `r` below it, the reader adds the value written at that shift and
    takes exactly its bytes, provided the last group's shift stays within the
    limit and the sum fits in a `uint64_t`. -/
theorem acceptAll_serialize_go (limit : Nat) : ∀ (fuel value : Nat), value ≤ fuel →
    ∀ (r bytesRead s : Nat) (rest : List UInt8), r < 2 ^ s → r + value * 2 ^ s < 2 ^ 64 →
      s + 7 * ((serialize.go fuel value).length - 1) ≤ limit →
      acceptAll limit (serialize.go fuel value ++ rest) r bytesRead s =
        (r + value * 2 ^ s, bytesRead + (serialize.go fuel value).length) := by
  intro fuel
  induction fuel with
  | zero =>
      intro value hv r bytesRead s rest hr hfit hlim
      have hv0 : value = 0 := by omega
      subst hv0
      simp only [serialize_go_zero, List.cons_append, List.nil_append, acceptAll_cons, List.length_cons,
        List.length_nil, UInt8.toNat_ofNat', Nat.zero_mod] at hlim ⊢
      rw [if_neg (by omega), if_neg (by simp), or_shiftLeft_of_lt hr hfit]
  | succ fuel ih =>
      intro value hv r bytesRead s rest hr hfit hlim
      rw [serialize_go_succ] at hlim ⊢
      by_cases hlast : value < 128
      · -- the last byte
        rw [if_pos hlast] at hlim ⊢
        simp only [List.length_cons, List.length_nil] at hlim ⊢
        simp only [List.cons_append, List.nil_append, acceptAll_cons, UInt8.toNat_ofNat']
        rw [if_neg (by omega), Nat.mod_eq_of_lt (show value < 2 ^ 8 by omega),
          if_neg (by simp [and_128_of_lt hlast]), or_shiftLeft_of_lt hr hfit]
      · -- a byte that continues: its group goes in at `s`, the rest at `s + 7`
        rw [if_neg hlast] at hlim ⊢
        have hbyte : (UInt8.ofNat (value % 128 + 128)).toNat = value % 128 + 128 := by
          rw [UInt8.toNat_ofNat']
          omega
        have hsplit : value = value % 128 + value / 128 * 128 := by omega
        have hpow : 2 ^ (s + 7) = 2 ^ s * 128 := by rw [Nat.pow_add]
        have hfit' : r + value % 128 * 2 ^ s < 2 ^ 64 := by
          have : value % 128 * 2 ^ s ≤ value * 2 ^ s := Nat.mul_le_mul_right _ (Nat.mod_le _ _)
          omega
        have hgroup : (r ||| ((value % 128 + 128) % 128) <<< s) % 2 ^ 64 = r + value % 128 * 2 ^ s := by
          rw [show (value % 128 + 128) % 128 = value % 128 by omega]
          exact or_shiftLeft_of_lt hr hfit'
        have hr' : r + value % 128 * 2 ^ s < 2 ^ (s + 7) := by
          have : value % 128 * 2 ^ s ≤ 127 * 2 ^ s := Nat.mul_le_mul_right _ (by omega)
          omega
        have hlen := serialize_go_ne_nil fuel (value / 128)
        have hlen' : 0 < (serialize.go fuel (value / 128)).length := List.length_pos_iff.mpr hlen
        simp only [List.length_cons] at hlim ⊢
        simp only [List.cons_append, acceptAll_cons, hbyte]
        rw [if_neg (by omega), if_pos (and_128_of_ge (by omega) (by omega)), and_127, hgroup]
        rw [ih (value / 128) (by omega) _ _ _ rest hr' (by
            rw [hpow]
            have : value / 128 * (2 ^ s * 128) = value / 128 * 128 * 2 ^ s := by ring
            rw [this]
            calc r + value % 128 * 2 ^ s + value / 128 * 128 * 2 ^ s
                = r + (value % 128 + value / 128 * 128) * 2 ^ s := by ring
              _ = r + value * 2 ^ s := by rw [← hsplit]
              _ < 2 ^ 64 := hfit) (by omega)]
        congr 1
        · rw [hpow]
          calc r + value % 128 * 2 ^ s + value / 128 * (2 ^ s * 128)
              = r + (value % 128 + value / 128 * 128) * 2 ^ s := by ring
            _ = r + value * 2 ^ s := by rw [← hsplit]
        · omega

/-- **UNSIGNED ROUND TRIP**: every `uint32_t` reads back from its bytes,
    and the reader takes exactly them. -/
theorem deserialize_serialize {value : Nat} (hv : value < 2 ^ 32) (rest : List UInt8) :
    deserialize (serialize value ++ rest) = (value, (serialize value).length) := by
  have hlen : (serialize value).length ≤ 5 :=
    length_serialize_go_le 4 value value (by omega)
  have hread := acceptAll_serialize_go ((maxLength - 1) * 7) value value (Nat.le_refl _) 0 0 0 rest
    (by decide) (by omega) (by simp only [maxLength, serialize] at hlen ⊢; omega)
  simp only [deserialize, detailDeserialize, serialize] at hread ⊢
  rw [hread]
  simp only [Nat.pow_zero, Nat.mul_one, Nat.zero_add]
  rw [Nat.mod_eq_of_lt hv]

/-- `size` counts the bytes that `serialize` writes. -/
theorem size_go_eq (fuel v len : Nat) : size.go fuel v len + 1 = len + (serialize.go fuel v).length := by
  induction fuel generalizing v len with
  | zero => simp [size_go_zero, serialize_go_zero]
  | succ fuel ih =>
      rw [serialize_go_succ]
      simp only [size_go_succ, Nat.shiftRight_eq_div_pow, Nat.reducePow]
      by_cases hv : v < 128
      · rw [if_neg (by omega), if_pos hv]
        simp
      · rw [if_pos (by omega), if_neg hv, ih]
        simp only [List.length_cons]
        omega

theorem size_eq_length (v : Nat) : size v = (serialize v).length := by
  have := size_go_eq v v 1
  rw [serialize]
  simp only [size] at this ⊢
  omega

/-! ## Reading a range

    `detail::deserialize` takes any range; `acceptAll` above is its loop
    over a list.  Over a range read by a step function `next` (`none` at
    the end) the loop is `deserializeLoop`; it agrees with `acceptAll` on
    lists (`acceptAll_eq_deserializeLoop`), and on every range it reads at
    most `limit / 7 + 1` bytes (`bytesRead_deserializeLoop_le`): the
    decoder breaks once the shift is past `limit`. -/

/-- `detail::var_decoder`: `result`, `bytes_read` and `shift`. -/
structure VarDecoder where
  result : Nat
  bytesRead : Nat
  shift : Nat
deriving DecidableEq, Repr

/-- `var_decoder::accept`: the decoder after the byte, and whether the loop
    breaks.  The byte reaches `accept` as a `uint64_t` converted from a
    `char`, sign-extended when bit 7 is set; the branch that takes such a
    byte reads only its low seven bits. -/
def VarDecoder.accept (limit : Nat) (d : VarDecoder) (byte : UInt8) : VarDecoder × Bool :=
  if d.shift > limit then (d, true)
  else if byte.toNat &&& 128 ≠ 0 then
    (⟨(d.result ||| (byte.toNat &&& 127) <<< d.shift) % 2 ^ 64, d.bytesRead + 1, d.shift + 7⟩, false)
  else (⟨(d.result ||| byte.toNat <<< d.shift) % 2 ^ 64, d.bytesRead + 1, d.shift⟩, true)

theorem VarDecoder.accept_eq (limit : Nat) (d : VarDecoder) (byte : UInt8) :
    d.accept limit byte =
      if d.shift > limit then (d, true)
      else if byte.toNat &&& 128 ≠ 0 then
        (⟨(d.result ||| (byte.toNat &&& 127) <<< d.shift) % 2 ^ 64, d.bytesRead + 1, d.shift + 7⟩,
          false)
      else (⟨(d.result ||| byte.toNat <<< d.shift) % 2 ^ 64, d.bytesRead + 1, d.shift⟩, true) := rfl

/-- A byte after which the loop goes on moves the shift seven bits on, from
    a shift within the limit. -/
theorem VarDecoder.accept_of_continue {limit : Nat} {d : VarDecoder} {byte : UInt8}
    (h : ¬(d.accept limit byte).2 = true) :
    d.shift ≤ limit ∧ (d.accept limit byte).1 = ⟨(d.result ||| (byte.toNat &&& 127) <<< d.shift) % 2 ^ 64,
      d.bytesRead + 1, d.shift + 7⟩ := by
  rw [VarDecoder.accept_eq] at h ⊢
  by_cases hlim : d.shift > limit
  · rw [if_pos hlim] at h
    exact absurd rfl h
  · rw [if_neg hlim] at h ⊢
    by_cases hbit : byte.toNat &&& 128 ≠ 0
    · rw [if_pos hbit]
      exact ⟨by omega, rfl⟩
    · rw [if_neg hbit] at h
      exact absurd rfl h

/-- The loop of `detail::deserialize` over the range read by `next`:
    `accept` on each byte until it breaks or the range ends. -/
def deserializeLoop {σ : Type} (next : σ → Option (UInt8 × σ)) (limit : Nat) (s : σ)
    (d : VarDecoder) : VarDecoder :=
  match next s with
  | none => d
  | some (byte, s') =>
      if _hbreak : (d.accept limit byte).2 = true then (d.accept limit byte).1
      else deserializeLoop next limit s' (d.accept limit byte).1
termination_by limit + 1 - d.shift
decreasing_by
  obtain ⟨hle, heq⟩ := VarDecoder.accept_of_continue _hbreak
  rw [heq]
  dsimp only
  omega

/-- One turn of the loop. -/
theorem deserializeLoop_eq {σ : Type} (next : σ → Option (UInt8 × σ)) (limit : Nat) (s : σ)
    (d : VarDecoder) :
    deserializeLoop next limit s d =
      match next s with
      | none => d
      | some (byte, s') =>
          if (d.accept limit byte).2 then (d.accept limit byte).1
          else deserializeLoop next limit s' (d.accept limit byte).1 := by
  rw [deserializeLoop]
  cases next s with
  | none => rfl
  | some p => rfl

theorem deserializeLoop_none {σ : Type} {next : σ → Option (UInt8 × σ)} {limit : Nat} {s : σ}
    (d : VarDecoder) (h : next s = none) : deserializeLoop next limit s d = d := by
  rw [deserializeLoop_eq, h]

theorem deserializeLoop_some {σ : Type} {next : σ → Option (UInt8 × σ)} {limit : Nat} {s s' : σ}
    {byte : UInt8} (d : VarDecoder) (h : next s = some (byte, s')) :
    deserializeLoop next limit s d =
      if (d.accept limit byte).2 then (d.accept limit byte).1
      else deserializeLoop next limit s' (d.accept limit byte).1 := by
  rw [deserializeLoop_eq, h]

/-- `detail::deserialize(r, max_bytes)` over the range read by `next`. -/
def detailDeserializeRange {σ : Type} (next : σ → Option (UInt8 × σ)) (s : σ) (maxBytes : Nat) :
    Nat × Nat :=
  let d := deserializeLoop next ((maxBytes - 1) * 7) s ⟨0, 0, 0⟩
  (d.result, d.bytesRead)

/-- `unsigned_vint::deserialize(r)` over the range read by `next`. -/
def deserializeRange {σ : Type} (next : σ → Option (UInt8 × σ)) (s : σ) : Nat × Nat :=
  let (result, bytesRead) := detailDeserializeRange next s maxLength
  (result % 2 ^ 32, bytesRead)

/-- The range of a list of bytes. -/
def listNext : List UInt8 → Option (UInt8 × List UInt8)
  | [] => none
  | byte :: bytes => some (byte, bytes)

theorem deserializeLoop_nil (limit : Nat) (d : VarDecoder) : deserializeLoop listNext limit [] d = d :=
  deserializeLoop_none d rfl

theorem deserializeLoop_cons (limit : Nat) (byte : UInt8) (bytes : List UInt8) (d : VarDecoder) :
    deserializeLoop listNext limit (byte :: bytes) d =
      if (d.accept limit byte).2 then (d.accept limit byte).1
      else deserializeLoop listNext limit bytes (d.accept limit byte).1 :=
  deserializeLoop_some d rfl

/-- Over a list the loop is `acceptAll`. -/
theorem acceptAll_eq_deserializeLoop (limit : Nat) (bytes : List UInt8) (result bytesRead shift : Nat) :
    acceptAll limit bytes result bytesRead shift =
      ((deserializeLoop listNext limit bytes ⟨result, bytesRead, shift⟩).result,
        (deserializeLoop listNext limit bytes ⟨result, bytesRead, shift⟩).bytesRead) := by
  induction bytes generalizing result bytesRead shift with
  | nil => rw [deserializeLoop_nil]; rfl
  | cons byte bytes ih =>
      rw [deserializeLoop_cons]
      by_cases hlim : shift > limit
      · -- the shift is past the limit: the decoder breaks before the byte
        have hacc : VarDecoder.accept limit ⟨result, bytesRead, shift⟩ byte =
            (⟨result, bytesRead, shift⟩, true) := by
          rw [VarDecoder.accept_eq, if_pos hlim]
        rw [hacc, if_pos rfl, acceptAll_cons, if_pos hlim]
      · by_cases hbit : byte.toNat &&& 128 ≠ 0
        · -- a continuation byte
          have hacc : VarDecoder.accept limit ⟨result, bytesRead, shift⟩ byte =
              (⟨(result ||| (byte.toNat &&& 127) <<< shift) % 2 ^ 64, bytesRead + 1, shift + 7⟩,
                false) := by
            rw [VarDecoder.accept_eq, if_neg hlim, if_pos hbit]
          rw [hacc, if_neg Bool.false_ne_true, acceptAll_cons, if_neg hlim, if_pos hbit, ih]
        · -- the last byte
          have hacc : VarDecoder.accept limit ⟨result, bytesRead, shift⟩ byte =
              (⟨(result ||| byte.toNat <<< shift) % 2 ^ 64, bytesRead + 1, shift⟩, true) := by
            rw [VarDecoder.accept_eq, if_neg hlim, if_neg hbit]
          rw [hacc, if_pos rfl, acceptAll_cons, if_neg hlim, if_neg hbit]

/-- The loop over a list reads no byte past its end. -/
theorem acceptAll_bytesRead_le (limit : Nat) (bytes : List UInt8) (result bytesRead shift : Nat) :
    (acceptAll limit bytes result bytesRead shift).2 ≤ bytesRead + bytes.length := by
  induction bytes generalizing result bytesRead shift with
  | nil => exact Nat.le_add_right _ _
  | cons byte bytes ih =>
      rw [acceptAll_cons, List.length_cons]
      by_cases hlim : shift > limit
      · rw [if_pos hlim]
        dsimp only
        omega
      · rw [if_neg hlim]
        by_cases hbit : byte.toNat &&& 128 ≠ 0
        · rw [if_pos hbit]
          have := ih ((result ||| (byte.toNat &&& 127) <<< shift) % 2 ^ 64) (bytesRead + 1) (shift + 7)
          omega
        · rw [if_neg hbit]
          dsimp only
          omega

theorem detailDeserializeRange_listNext (bytes : List UInt8) (maxBytes : Nat) :
    detailDeserializeRange listNext bytes maxBytes = detailDeserialize bytes maxBytes := by
  rw [detailDeserialize, acceptAll_eq_deserializeLoop]
  rfl

theorem deserializeRange_listNext (bytes : List UInt8) :
    deserializeRange listNext bytes = deserialize bytes := by
  rw [deserializeRange, deserialize, detailDeserializeRange_listNext]

/-- `unsigned_vint::deserialize` reads no byte past the end of a list. -/
theorem bytesRead_deserialize_le_length (bytes : List UInt8) : (deserialize bytes).2 ≤ bytes.length := by
  have h : (deserialize bytes).2 = (detailDeserialize bytes maxLength).2 := rfl
  rw [h, detailDeserialize]
  have := acceptAll_bytesRead_le ((maxLength - 1) * 7) bytes 0 0 0
  omega

/-- One byte keeps the count of bytes read within `limit / 7 + 1`, and a
    byte after which the loop goes on keeps the shift at seven bits a byte. -/
theorem VarDecoder.accept_bytesRead {limit : Nat} {d : VarDecoder} (byte : UInt8)
    (hshift : d.shift = 7 * d.bytesRead) (hle : d.bytesRead ≤ limit / 7 + 1) :
    (d.accept limit byte).1.bytesRead ≤ limit / 7 + 1 ∧
      ((d.accept limit byte).2 = false →
        (d.accept limit byte).1.shift = 7 * (d.accept limit byte).1.bytesRead) := by
  rw [VarDecoder.accept_eq]
  by_cases hlim : d.shift > limit
  · rw [if_pos hlim]
    exact ⟨hle, fun h => Bool.noConfusion h⟩
  · -- a byte is read only with the shift within the limit
    rw [if_neg hlim]
    have hread : d.bytesRead ≤ limit / 7 := by omega
    by_cases hbit : byte.toNat &&& 128 ≠ 0
    · rw [if_pos hbit]
      exact ⟨by dsimp only; omega, fun _ => by dsimp only; omega⟩
    · rw [if_neg hbit]
      exact ⟨by dsimp only; omega, fun h => Bool.noConfusion h⟩

/-- **BOUNDED READ**: on every range the loop reads at most `limit / 7 + 1`
    bytes. -/
theorem bytesRead_deserializeLoop_le {σ : Type} (next : σ → Option (UInt8 × σ)) (limit : Nat)
    (s : σ) (d : VarDecoder) (hshift : d.shift = 7 * d.bytesRead) (hle : d.bytesRead ≤ limit / 7 + 1) :
    (deserializeLoop next limit s d).bytesRead ≤ limit / 7 + 1 := by
  induction s, d using deserializeLoop.induct next limit with
  | case1 s d hnone =>
      rw [deserializeLoop_none d hnone]
      exact hle
  | case2 s d byte s' hsome hbreak =>
      rw [deserializeLoop_some d hsome, if_pos hbreak]
      exact (VarDecoder.accept_bytesRead byte hshift hle).1
  | case3 s d byte s' hsome hcont ih =>
      rw [deserializeLoop_some d hsome, if_neg hcont]
      have hstep := VarDecoder.accept_bytesRead byte hshift hle
      exact ih (hstep.2 (Bool.eq_false_iff.mpr hcont)) hstep.1

/-- `unsigned_vint::deserialize` reads at most `max_length` bytes of every
    range. -/
theorem bytesRead_deserializeRange_le {σ : Type} (next : σ → Option (UInt8 × σ)) (s : σ) :
    (deserializeRange next s).2 ≤ maxLength :=
  bytesRead_deserializeLoop_le next _ s ⟨0, 0, 0⟩ rfl (Nat.zero_le _)

end UnsignedVint

namespace Vint

/-- `vint::max_length`. -/
def maxLength : Nat := 10

/-- `vint::encode_zigzag`: the shift left is unsigned, the shift right
    arithmetic. -/
def encodeZigzag (v : Int64) : UInt64 := (v.toUInt64 <<< 1) ^^^ (v >>> 63).toUInt64

/-- `vint::decode_zigzag`. -/
def decodeZigzag (v : UInt64) : Int64 := ((v >>> 1) ^^^ (~~~(v &&& 1) + 1)).toInt64

/-- `vint::vint_size`. -/
def vintSize (value : Int64) : Nat := UnsignedVint.size (encodeZigzag value).toNat

/-- `vint::serialize`. -/
def serialize (x : Int64) : List UInt8 := UnsignedVint.serialize (encodeZigzag x).toNat

/-- `vint::deserialize`. -/
def deserialize (bytes : List UInt8) : Int64 × Nat :=
  let (result, bytesRead) := UnsignedVint.detailDeserialize bytes maxLength
  (decodeZigzag (UInt64.ofNat result), bytesRead)

/-- An arithmetic shift right by 63 spreads the sign bit. -/
theorem sshiftRight_63 (b : BitVec 64) :
    b.sshiftRight 63 = if 2 ^ 63 ≤ b.toNat then BitVec.allOnes 64 else 0#64 := by
  have hmsb := BitVec.msb_eq_decide b
  have hlt := b.isLt
  split
  · rename_i h
    rw [BitVec.sshiftRight_eq_of_msb_true (by rw [hmsb]; simpa using h)]
    apply BitVec.eq_of_toNat_eq
    simp [BitVec.toNat_not, Nat.shiftRight_eq_div_pow]
    omega
  · rename_i h
    rw [BitVec.sshiftRight_eq_of_msb_false (by rw [hmsb]; simpa using h)]
    apply BitVec.eq_of_toNat_eq
    simp [Nat.shiftRight_eq_div_pow]
    omega

theorem toNat_and_one (x : BitVec 64) : (x &&& 1#64).toNat = x.toNat % 2 := by
  rw [BitVec.toNat_and, BitVec.toNat_ofNat]
  exact Nat.and_two_pow_sub_one_eq_mod x.toNat 1

/-- **ZIGZAG ROUND TRIP**: `decode_zigzag` undoes `encode_zigzag` on every
    `int64_t`.  A negative value is sent to the complement of its double, an
    odd number, and the low bit of the encoding chooses the mask back. -/
theorem decodeZigzag_encodeZigzag (v : Int64) : decodeZigzag (encodeZigzag v) = v := by
  apply Int64.toBitVec_inj.mp
  have hsr : (v >>> 63).toBitVec = v.toBitVec.sshiftRight 63 := by
    simp [Int64.toBitVec_shiftRight]
  have hone : UInt64.toBitVec 1 = 1#64 := rfl
  have hshift : (1#64 : BitVec 64) % 64 = 1#64 := rfl
  simp only [decodeZigzag, encodeZigzag, UInt64.toBitVec_toInt64, UInt64.toBitVec_xor,
    UInt64.toBitVec_shiftLeft, UInt64.toBitVec_shiftRight, UInt64.toBitVec_and, UInt64.toBitVec_not,
    UInt64.toBitVec_add, Int64.toBitVec_toUInt64, hsr, sshiftRight_63, hone]
  rw [hshift]
  generalize v.toBitVec = b
  have hlt := b.isLt
  split
  · -- a negative value: the encoding is the complement of `b <<< 1`, an odd number
    rw [BitVec.xor_allOnes]
    have hbit : ~~~(b <<< 1#64) &&& 1#64 = 1#64 := by
      apply BitVec.eq_of_toNat_eq
      rw [toNat_and_one]
      simp [BitVec.toNat_not, Nat.shiftLeft_eq]
      omega
    rw [hbit, show ~~~(1#64) + 1#64 = BitVec.allOnes 64 by decide, BitVec.xor_allOnes]
    apply BitVec.eq_of_toNat_eq
    simp [BitVec.toNat_not, Nat.shiftRight_eq_div_pow, Nat.shiftLeft_eq]
    omega
  · -- a non-negative value: the encoding is `b <<< 1`, an even number
    rw [BitVec.xor_zero]
    have hbit : b <<< 1#64 &&& 1#64 = 0#64 := by
      apply BitVec.eq_of_toNat_eq
      rw [toNat_and_one]
      simp [Nat.shiftLeft_eq]
    rw [hbit, show ~~~(0#64) + 1#64 = 0#64 by decide, BitVec.xor_zero]
    apply BitVec.eq_of_toNat_eq
    simp [Nat.shiftRight_eq_div_pow, Nat.shiftLeft_eq]
    omega

/-- **SIGNED ROUND TRIP**: every `int64_t` reads back from its bytes, and
    the reader takes exactly them. -/
theorem deserialize_serialize (x : Int64) (rest : List UInt8) :
    deserialize (serialize x ++ rest) = (x, (serialize x).length) := by
  have hu := (encodeZigzag x).toNat_lt
  have hlen : (serialize x).length ≤ 10 :=
    UnsignedVint.length_serialize_go_le 9 _ _ (by omega)
  have hread := UnsignedVint.acceptAll_serialize_go ((maxLength - 1) * 7) (encodeZigzag x).toNat
    (encodeZigzag x).toNat (Nat.le_refl _) 0 0 0 rest (by decide) (by omega)
    (by simp only [maxLength, serialize, UnsignedVint.serialize] at hlen ⊢; omega)
  simp only [deserialize, UnsignedVint.detailDeserialize, serialize, UnsignedVint.serialize] at hread ⊢
  rw [hread]
  simp [decodeZigzag_encodeZigzag]

/-- `vint_size` counts the bytes that `serialize` writes. -/
theorem vintSize_eq_length (x : Int64) : vintSize x = (serialize x).length :=
  UnsignedVint.size_eq_length _

/-- `vint::deserialize(r)` over the range read by `next`. -/
def deserializeRange {σ : Type} (next : σ → Option (UInt8 × σ)) (s : σ) : Int64 × Nat :=
  let (result, bytesRead) := UnsignedVint.detailDeserializeRange next s maxLength
  (decodeZigzag (UInt64.ofNat result), bytesRead)

theorem deserializeRange_listNext (bytes : List UInt8) :
    deserializeRange UnsignedVint.listNext bytes = deserialize bytes := by
  rw [deserializeRange, deserialize, UnsignedVint.detailDeserializeRange_listNext]

/-- `vint::deserialize` reads no byte past the end of a list. -/
theorem bytesRead_deserialize_le_length (bytes : List UInt8) : (deserialize bytes).2 ≤ bytes.length := by
  have h : (deserialize bytes).2 = (UnsignedVint.detailDeserialize bytes maxLength).2 := rfl
  rw [h, UnsignedVint.detailDeserialize]
  have := UnsignedVint.acceptAll_bytesRead_le ((maxLength - 1) * 7) bytes 0 0 0
  omega

/-- `vint::deserialize` reads at most `max_length` bytes of every range. -/
theorem bytesRead_deserializeRange_le {σ : Type} (next : σ → Option (UInt8 × σ)) (s : σ) :
    (deserializeRange next s).2 ≤ maxLength :=
  UnsignedVint.bytesRead_deserializeLoop_le next _ s ⟨0, 0, 0⟩ rfl (Nat.zero_le _)

end Vint
