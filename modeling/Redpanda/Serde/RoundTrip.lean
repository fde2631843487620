import Redpanda.Serde.Rw

/-! # Serde round trips and version compatibility

    * **`serde_round_trip`** — `from_iobuf` gives back every value that
      `to_iobuf` writes, bit for bit, and reads every byte; `operator==`
      then holds of the two unless a `float` or `double` in the value is a
      NaN (`nan_double_round_trip_not_equal`).  The values are those that
      `fits`: in their types' ranges, with vectors and envelopes that the
      writer's `uint32_t` sizes can count.  The types are `wellDeclared`:
      an envelope whose compat version is above its version refuses its own
      header.
    * **`envelope_version_compat`** — an envelope type and its extension by
      trailing fields read each other's data: the older reader skips the
      new fields, the newer one keeps their defaults; and a reader refuses a
      header whose versions it cannot read.  The nested envelope types of
      the shared fields are `wellDeclared`, as for the round trip.

    The proofs read a value above a byte limit (`ByteCodec.DecodesAbove`):
    `read_nested` checks each scalar against the limit of the envelope it
    is in, which every encoding keeps after it. -/

namespace Serde

open ByteCodec

/-- `std::numeric_limits<T>::min()` of an integer type. -/
def minOf (w : Width) (signed : Bool) : Int := if signed then -2 ^ (8 * w.bytes - 1) else 0

section Fits

variable (crc : List UInt8 → UInt32)

mutual

/-- The values of a type that `to_iobuf` writes without throwing: integers
    in their type's range, an enum's value also in `int32_t`, a float's bits
    in its width, vectors of at most `2 ^ 32 - 1` elements, and envelopes
    whose fields take at most `2 ^ 32 - 1` bytes. -/
def fits : SerdeType → Value → Bool
  | .int w signed, .int n => decide (minOf w signed ≤ n ∧ n ≤ maxOf w signed)
  | .bool, .bool _ => true
  | .float, .float bits => decide (bits < 2 ^ 32)
  | .double, .float bits => decide (bits < 2 ^ 64)
  | .enum w signed, .int n =>
      decide (minOf w signed ≤ n ∧ n ≤ maxOf w signed ∧ -2 ^ 31 ≤ n ∧ n < 2 ^ 31)
  | .optional _, .optional none => true
  | .optional t, .optional (some v) => fits t v
  | .vector t, .vector vs => decide (vs.length ≤ maxSize) && vs.all (fits t)
  | .envelope _ _ _ fields, .envelope xs =>
      fieldsFit fields xs && (writeFields crc fields xs).all fun body => decide (body.length ≤ maxSize)
  | _, _ => false

def fieldsFit : List (SerdeType × Value) → List Value → Bool
  | [], [] => true
  | (t, _) :: fields, x :: xs => fits t x && fieldsFit fields xs
  | _, _ => false

end

end Fits

mutual

/-- Every envelope type in the type has a compat version at most its
    version, so that its own reader accepts its header. -/
def wellDeclared : SerdeType → Bool
  | .optional t => wellDeclared t
  | .vector t => wellDeclared t
  | .envelope version compatVersion _ fields =>
      decide (compatVersion ≤ version) && fieldsWellDeclared fields
  | _ => true

def fieldsWellDeclared : List (SerdeType × Value) → Bool
  | [] => true
  | (t, _) :: fields => wellDeclared t && fieldsWellDeclared fields

end

/-! ## Scalars -/

theorem toBits_lt (k : Nat) (n : Int) : toBits k n < 256 ^ k := by
  have hpos : (0 : Int) < 2 ^ (8 * k) := Int.pow_pos (by decide)
  have hlt := Int.emod_lt_of_pos n hpos
  have hnn := Int.emod_nonneg n (Int.ne_of_gt hpos)
  rw [toBits, show (256 : Nat) ^ k = 2 ^ (8 * k) by rw [Nat.pow_mul], Int.toNat_lt hnn]
  exact_mod_cast hlt

/-- An integer in its type's range reads back from its bits. -/
theorem ofBits_toBits {w : Width} {signed : Bool} {n : Int}
    (h : minOf w signed ≤ n ∧ n ≤ maxOf w signed) :
    ofBits w.bytes signed (toBits w.bytes n) = n := by
  cases w <;> cases signed <;> simp [minOf, maxOf, ofBits, toBits, Width.bytes] at h ⊢ <;> omega

theorem leBytes_one_toNat (b : UInt8) : leBytes 1 b.toNat = [b] := by
  simp [leBytes]

section Scalars

variable {lim : Nat}

/-- A scalar reads back above any limit that the bytes after it keep. -/
theorem decodesAbove_readScalar {k b : Nat} (hb : b < 256 ^ k) :
    DecodesAbove lim (readScalar k lim) (leBytes k b) b := by
  intro rest hrest
  rw [readScalar, bytesLeft_bind_run, List.length_append, length_leBytes,
    if_neg (by omega)]
  exact decodes_readLE hb rest

theorem decodesAbove_readByte (b : UInt8) : DecodesAbove lim (readScalar 1 lim) [b] b.toNat := by
  have hread : DecodesAbove lim (readScalar 1 lim) (leBytes 1 b.toNat) b.toNat :=
    decodesAbove_readScalar b.toNat_lt
  rwa [leBytes_one_toNat] at hread

/-- The checksum slot of a header: four bytes in a checksum envelope,
    none in a plain one. -/
theorem decodesAbove_readChecksum (checksum : Bool) {sum : Nat} (hsum : sum < 2 ^ 32) :
    DecodesAbove lim (readChecksum checksum lim)
      (if checksum then leBytes 4 sum else []) (if checksum then sum else 0) := by
  cases checksum with
  | true => exact decodesAbove_readScalar (by simpa using hsum)
  | false => exact decodesAbove_pure 0

end Scalars

/-! ## The envelope's frame -/

section Frame

variable {lim : Nat} {version compatVersion : UInt8} {checksum : Bool}

/-- `read_header` reads a header whose size is that of the bytes after it
    and whose versions the type can read; the envelope ends where the bytes
    after it start. -/
theorem readHeader_run (version compatVersion : UInt8) (checksum : Bool) (lim : Nat) (v c : UInt8)
    (body rest : List UInt8) {sum : Nat} (hsum : sum < 2 ^ 32)
    (hsize : body.length < 2 ^ 32) (hlim : lim ≤ rest.length)
    (hc : c.toNat ≤ version.toNat) (hv : compatVersion.toNat ≤ v.toNat) :
    (readHeader version compatVersion checksum lim).run
        ([v, c] ++ leBytes 4 body.length ++ (if checksum then leBytes 4 sum else []) ++ body ++ rest) =
      some (⟨v.toNat, c.toNat, rest.length, if checksum then sum else 0⟩, body ++ rest) := by
  have hv' : DecodesAbove lim (readScalar 1 lim) [v] v.toNat := decodesAbove_readByte v
  have hc' : DecodesAbove lim (readScalar 1 lim) [c] c.toNat := decodesAbove_readByte c
  have hsize' : DecodesAbove lim (readScalar 4 lim) (leBytes 4 body.length) body.length :=
    decodesAbove_readScalar (by simpa using hsize)
  have hsum' : DecodesAbove lim (readChecksum checksum lim) _ _ := decodesAbove_readChecksum checksum hsum
  rw [show [v, c] ++ leBytes 4 body.length ++ (if checksum then leBytes 4 sum else []) ++ body ++ rest
      = [v] ++ ([c] ++ (leBytes 4 body.length ++ ((if checksum then leBytes 4 sum else []) ++
        (body ++ rest)))) by simp, readHeader,
    hv'.bind_run _ (by simp only [List.length_append]; omega),
    hc'.bind_run _ (by simp only [List.length_append]; omega),
    hsize'.bind_run _ (by simp only [List.length_append]; omega),
    hsum'.bind_run _ (by simp only [List.length_append]; omega), bytesLeft_bind_run]
  have hleft : (body ++ rest).length - body.length = rest.length := by simp
  rw [if_neg (by simp), if_neg (by rw [hleft]; omega), if_neg (by omega), if_neg (by omega), hleft]
  rfl

/-- The crc a checksum envelope stores is the one its reader computes over
    the same bytes. -/
theorem checkCrc_run (crc : List UInt8 → UInt32) (checksum : Bool) (v c : Nat)
    (body rest : List UInt8) :
    (checkCrc crc checksum ⟨v, c, rest.length, if checksum then (crc body).toNat else 0⟩).run
      (body ++ rest) = some ((), body ++ rest) := by
  cases checksum with
  | false => rfl
  | true =>
      have hlen : (body ++ rest).length - rest.length = body.length := by simp
      rw [checkCrc, if_pos rfl, bytesLeft_bind_run, StateT.run_bind, hlen,
        peek_run (by simp), List.take_left]
      simp

/-- The end of an envelope skips what its reader did not read. -/
theorem skipToEnd_run (extra rest : List UInt8) :
    (skipToEnd rest.length).run (extra ++ rest) = some ((), rest) := by
  rw [skipToEnd, bytesLeft_bind_run]
  cases extra with
  | nil => rw [if_neg (by simp)]; rfl
  | cons b bs =>
      rw [if_pos (by simp only [List.cons_append, List.length_cons, List.length_append]; omega),
        List.length_append, Nat.add_sub_cancel]
      exact (decodesAbove_skip rfl : DecodesAbove 0 _ _ _) rest (Nat.zero_le _)

/-- `read_nested` of an envelope: its header, its crc, its fields up to
    its end, and what is left of it skipped. -/
theorem read_envelope_run (crc : List UInt8 → UInt32) {fields : List (SerdeType × Value)}
    {bs bs' extra rest : List UInt8} {h : Header} {xs : List Value}
    (hh : (readHeader version compatVersion checksum lim).run bs = some (h, bs'))
    (hcrc : (checkCrc crc checksum h).run bs' = some ((), bs'))
    (hf : (readFields crc lim h.bytesLeftLimit fields).run bs' = some (xs, extra ++ rest))
    (hend : h.bytesLeftLimit = rest.length) :
    (read crc lim (.envelope version compatVersion checksum fields)).run bs =
      some (.envelope xs, rest) := by
  rw [read, run_bind_of_run hh, run_bind_of_run hcrc, run_bind_of_run hf, hend,
    run_bind_of_run (skipToEnd_run extra rest)]
  rfl

end Frame

/-! ## Every value that fits reads back -/

theorem leBytes_ne_nil {k : Nat} (hk : 0 < k) (b : Nat) : leBytes k b ≠ [] := by
  intro h
  have hlen := congrArg List.length h
  rw [length_leBytes, List.length_nil] at hlen
  omega

theorem Width.bytes_pos (w : Width) : 0 < w.bytes := by
  cases w <;> decide

section RoundTrip

variable (crc : List UInt8 → UInt32) {lim : Nat}

theorem decodesAbove_read_int {w : Width} {signed : Bool} {n : Int}
    (h : minOf w signed ≤ n ∧ n ≤ maxOf w signed) :
    DecodesAbove lim (read crc lim (.int w signed)) (leBytes w.bytes (toBits w.bytes n)) (.int n) := by
  -- the value read is the one whose bits were written
  rw [show Value.int n = (fun b => Value.int (ofBits w.bytes signed b)) (toBits w.bytes n) by
    simp only [ofBits_toBits h]]
  exact decodesAbove_map (decodesAbove_readScalar (toBits_lt w.bytes n)) _

theorem decodesAbove_read_bool (b : Bool) :
    DecodesAbove lim (read crc lim .bool) (leBytes 1 (if b then 1 else 0)) (.bool b) := by
  rw [show Value.bool b = (fun n => Value.bool (n ≠ 0)) (if b then 1 else 0) by cases b <;> rfl]
  exact decodesAbove_map (decodesAbove_readScalar (by split <;> decide)) _

/-- An enum reads back through its `int32_t`. -/
theorem decodesAbove_read_enum {w : Width} {signed : Bool} {n : Int}
    (h : minOf w signed ≤ n ∧ n ≤ maxOf w signed) (h32 : -2 ^ 31 ≤ n ∧ n < 2 ^ 31) :
    DecodesAbove lim (read crc lim (.enum w signed)) (leBytes 4 (toBits 4 n)) (.int n) := by
  have hval : ofBits 4 true (toBits 4 n) = n :=
    @ofBits_toBits .four true n (by simp [minOf, maxOf, Width.bytes]; omega)
  apply decodesAbove_bind_last (decodesAbove_readScalar (toBits_lt 4 n))
  show DecodesAbove lim (if ofBits 4 true (toBits 4 n) > maxOf w signed then failure else _) [] _
  rw [hval, if_neg (by omega), ofBits_toBits h]
  exact decodesAbove_pure _

theorem decodesAbove_read_none (t : SerdeType) :
    DecodesAbove lim (read crc lim (.optional t)) (leBytes 1 0) (.optional none) := by
  apply decodesAbove_bind_last (decodesAbove_readScalar (by decide))
  rw [if_neg (by decide)]
  exact decodesAbove_pure _

theorem decodesAbove_read_some {t : SerdeType} {v : Value} {bs : List UInt8}
    (hv : DecodesAbove lim (read crc lim t) bs v) :
    DecodesAbove lim (read crc lim (.optional t)) (leBytes 1 1 ++ bs) (.optional (some v)) := by
  apply decodesAbove_bind (decodesAbove_readScalar (by decide))
  rw [if_pos (by decide)]
  exact decodesAbove_map hv _

theorem decodesAbove_read_vector {t : SerdeType} {vs : List Value} {parts : List (List UInt8)}
    (hlen : vs.length ≤ maxSize) (hparts : vs.mapM (write crc t) = some parts)
    (hvs : ∀ v ∈ vs, ∀ bs, write crc t v = some bs → DecodesAbove lim (read crc lim t) bs v) :
    DecodesAbove lim (read crc lim (.vector t)) (leBytes 4 vs.length ++ parts.flatten) (.vector vs) := by
  apply decodesAbove_bind (decodesAbove_readScalar (by simp only [maxSize] at hlen; omega))
  exact decodesAbove_map (decodesAbove_many hvs hparts) _

/-- The envelope's frame around fields that its loop reads back. -/
theorem decodesAbove_read_envelope {version compatVersion : UInt8} {checksum : Bool}
    {fields : List (SerdeType × Value)} {xs : List Value} {body : List UInt8}
    (hcompat : compatVersion.toNat ≤ version.toNat) (hsize : body.length ≤ maxSize)
    (hloop : ∀ tail, lim ≤ tail.length →
      (readFields crc lim tail.length fields).run (body ++ tail) = some (xs, tail)) :
    DecodesAbove lim (read crc lim (.envelope version compatVersion checksum fields))
      ([version, compatVersion] ++ leBytes 4 body.length ++
        (if checksum then leBytes 4 (crc body).toNat else []) ++ body) (.envelope xs) := by
  intro rest hrest
  have hh := readHeader_run version compatVersion checksum lim version compatVersion body rest
    (crc body).toNat_lt (by simp only [maxSize] at hsize; omega) hrest hcompat hcompat
  rw [List.append_assoc] at hh
  rw [List.append_assoc]
  have hf : (readFields crc lim rest.length fields).run (body ++ rest) = some (xs, [] ++ rest) := by
    rw [List.nil_append]
    exact hloop rest hrest
  exact read_envelope_run crc hh (checkCrc_run crc checksum _ _ body rest) hf rfl

mutual

/-- `to_iobuf` writes every value that fits; by recursion on the type. -/
theorem exists_write : ∀ (t : SerdeType) (v : Value), fits crc t v = true →
    ∃ bs, write crc t v = some bs
  | .int _ _, v, hfit => by
      cases v with
      | int n => exact ⟨_, rfl⟩
      | bool _ | float _ | optional _ | vector _ | envelope _ => simp [fits] at hfit
  | .bool, v, hfit => by
      cases v with
      | bool b => exact ⟨_, rfl⟩
      | int _ | float _ | optional _ | vector _ | envelope _ => simp [fits] at hfit
  | .float, v, hfit => by
      cases v with
      | float bits => exact ⟨_, rfl⟩
      | int _ | bool _ | optional _ | vector _ | envelope _ => simp [fits] at hfit
  | .double, v, hfit => by
      cases v with
      | float bits => exact ⟨_, rfl⟩
      | int _ | bool _ | optional _ | vector _ | envelope _ => simp [fits] at hfit
  | .enum _ _, v, hfit => by
      cases v with
      | int n =>
          simp only [fits, decide_eq_true_eq] at hfit
          refine ⟨leBytes 4 (toBits 4 n), ?_⟩
          simp only [write]
          rw [if_neg (by omega)]
      | bool _ | float _ | optional _ | vector _ | envelope _ => simp [fits] at hfit
  | .optional t, v, hfit => by
      cases v with
      | optional o =>
          cases o with
          | none => exact ⟨_, rfl⟩
          | some v =>
              obtain ⟨bs, hbs⟩ := exists_write t v hfit
              exact ⟨leBytes 1 1 ++ bs, by simp [write, hbs]⟩
      | int _ | bool _ | float _ | vector _ | envelope _ => simp [fits] at hfit
  | .vector t, v, hfit => by
      cases v with
      | vector vs =>
          simp only [fits, Bool.and_eq_true, decide_eq_true_eq, List.all_eq_true] at hfit
          obtain ⟨parts, hparts⟩ := exists_mapM_eq_some fun v hv => exists_write t v (hfit.2 v hv)
          refine ⟨leBytes 4 vs.length ++ parts.flatten, ?_⟩
          simp only [write]
          rw [if_neg (by omega), hparts]
          rfl
      | int _ | bool _ | float _ | optional _ | envelope _ => simp [fits] at hfit
  | .envelope version compatVersion checksum fields, v, hfit => by
      cases v with
      | envelope xs =>
          simp only [fits, Bool.and_eq_true] at hfit
          obtain ⟨body, hbody⟩ := exists_writeFields fields xs hfit.1
          have hsize := hfit.2
          rw [hbody, Option.all_some, decide_eq_true_eq] at hsize
          refine ⟨[version, compatVersion] ++ leBytes 4 body.length ++
            (if checksum then leBytes 4 (crc body).toNat else []) ++ body, ?_⟩
          simp only [write, hbody, Option.bind_eq_bind, Option.bind_some]
          rw [if_neg (by omega)]
      | int _ | bool _ | float _ | optional _ | vector _ => simp [fits] at hfit

theorem exists_writeFields : ∀ (fields : List (SerdeType × Value)) (xs : List Value),
    fieldsFit crc fields xs = true → ∃ body, writeFields crc fields xs = some body
  | [], [], _ => ⟨[], rfl⟩
  | [], _ :: _, hfit => by simp [fieldsFit] at hfit
  | _ :: _, [], hfit => by simp [fieldsFit] at hfit
  | (t, _) :: fields, x :: xs, hfit => by
      simp only [fieldsFit, Bool.and_eq_true] at hfit
      obtain ⟨a, ha⟩ := exists_write t x hfit.1
      obtain ⟨b, hb⟩ := exists_writeFields fields xs hfit.2
      exact ⟨a ++ b, by simp [writeFields, ha, hb]⟩

end

mutual

/-- What `to_iobuf` wrote of a value that fits a well-declared type reads
    back above any limit that the bytes after it keep; by recursion on the
    type, an envelope's fields by `writeFields_readFields`. -/
theorem write_read : ∀ (t : SerdeType) (v : Value) (bs : List UInt8), fits crc t v = true →
    wellDeclared t = true → write crc t v = some bs →
      bs ≠ [] ∧ ∀ lim, DecodesAbove lim (read crc lim t) bs v
  | .int w signed, v, bs, hfit, _, hbs => by
      cases v with
      | int n =>
          simp only [fits, decide_eq_true_eq] at hfit
          simp only [write, Option.some.injEq] at hbs
          subst hbs
          exact ⟨leBytes_ne_nil w.bytes_pos _, fun _ => decodesAbove_read_int crc hfit⟩
      | bool _ | float _ | optional _ | vector _ | envelope _ => simp [fits] at hfit
  | .bool, v, bs, hfit, _, hbs => by
      cases v with
      | bool b =>
          simp only [write, Option.some.injEq] at hbs
          subst hbs
          exact ⟨leBytes_ne_nil (by decide) _, fun _ => decodesAbove_read_bool crc b⟩
      | int _ | float _ | optional _ | vector _ | envelope _ => simp [fits] at hfit
  | .float, v, bs, hfit, _, hbs => by
      cases v with
      | float bits =>
          simp only [fits, decide_eq_true_eq] at hfit
          simp only [write, Option.some.injEq] at hbs
          subst hbs
          exact ⟨leBytes_ne_nil (by decide) _,
            fun _ => decodesAbove_map (decodesAbove_readScalar (by simpa using hfit)) _⟩
      | int _ | bool _ | optional _ | vector _ | envelope _ => simp [fits] at hfit
  | .double, v, bs, hfit, _, hbs => by
      cases v with
      | float bits =>
          simp only [fits, decide_eq_true_eq] at hfit
          simp only [write, Option.some.injEq] at hbs
          subst hbs
          exact ⟨leBytes_ne_nil (by decide) _,
            fun _ => decodesAbove_map (decodesAbove_readScalar (by simpa using hfit)) _⟩
      | int _ | bool _ | optional _ | vector _ | envelope _ => simp [fits] at hfit
  | .enum w signed, v, bs, hfit, _, hbs => by
      cases v with
      | int n =>
          simp only [fits, decide_eq_true_eq] at hfit
          obtain ⟨hmin, hmax, hlo, hhi⟩ := hfit
          simp only [write] at hbs
          rw [if_neg (by omega), Option.some.injEq] at hbs
          subst hbs
          exact ⟨leBytes_ne_nil (by decide) _,
            fun _ => decodesAbove_read_enum crc ⟨hmin, hmax⟩ ⟨hlo, hhi⟩⟩
      | bool _ | float _ | optional _ | vector _ | envelope _ => simp [fits] at hfit
  | .optional t, v, bs, hfit, hdecl, hbs => by
      cases v with
      | optional o =>
          cases o with
          | none =>
              simp only [write, Option.some.injEq] at hbs
              subst hbs
              exact ⟨leBytes_ne_nil (by decide) _, fun _ => decodesAbove_read_none crc t⟩
          | some v =>
              simp only [write, Option.map_eq_map, Option.map_eq_some_iff] at hbs
              obtain ⟨bs', hbs', rfl⟩ := hbs
              exact ⟨by simp [leBytes],
                fun lim => decodesAbove_read_some crc ((write_read t v bs' hfit hdecl hbs').2 lim)⟩
      | int _ | bool _ | float _ | vector _ | envelope _ => simp [fits] at hfit
  | .vector t, v, bs, hfit, hdecl, hbs => by
      cases v with
      | vector vs =>
          simp only [fits, Bool.and_eq_true, decide_eq_true_eq, List.all_eq_true] at hfit
          obtain ⟨hlen, helems⟩ := hfit
          simp only [write] at hbs
          rw [if_neg (by omega), Option.map_eq_map, Option.map_eq_some_iff] at hbs
          obtain ⟨parts, hparts, rfl⟩ := hbs
          exact ⟨by simp [leBytes], fun lim => decodesAbove_read_vector crc hlen hparts
            fun v hv bs hbs => (write_read t v bs (helems v hv) hdecl hbs).2 lim⟩
      | int _ | bool _ | float _ | optional _ | envelope _ => simp [fits] at hfit
  | .envelope version compatVersion checksum fields, v, bs, hfit, hdecl, hbs => by
      cases v with
      | envelope xs =>
          simp only [fits, Bool.and_eq_true] at hfit
          simp only [wellDeclared, Bool.and_eq_true, decide_eq_true_eq] at hdecl
          obtain ⟨body, hbody⟩ := exists_writeFields crc fields xs hfit.1
          have hsize := hfit.2
          rw [hbody, Option.all_some, decide_eq_true_eq] at hsize
          simp only [write, hbody, Option.bind_eq_bind, Option.bind_some] at hbs
          rw [if_neg (by omega), Option.some.injEq] at hbs
          subst hbs
          refine ⟨by simp, fun lim => decodesAbove_read_envelope crc
            (UInt8.le_iff_toNat_le.mp hdecl.1) hsize fun tail htail => ?_⟩
          have hread := writeFields_readFields fields xs body hfit.1 hdecl.2 hbody lim tail.length []
            tail htail le_rfl
          rw [List.append_nil] at hread
          rw [hread]
          simp [readFields]
      | int _ | bool _ | float _ | optional _ | vector _ => simp [fits] at hfit

/-- The fields of an envelope, written one after the other, read back by
    the field loop whatever fields follow them in the reader's type: the
    loop goes on with those fields on the bytes after. -/
theorem writeFields_readFields : ∀ (fields : List (SerdeType × Value)) (xs : List Value)
    (body : List UInt8), fieldsFit crc fields xs = true → fieldsWellDeclared fields = true →
    writeFields crc fields xs = some body →
      ∀ (lim limit : Nat) (more : List (SerdeType × Value)) (tail : List UInt8),
        lim ≤ limit → limit ≤ tail.length →
        (readFields crc lim limit (fields ++ more)).run (body ++ tail) =
          (fun p => (xs ++ p.1, p.2)) <$> (readFields crc lim limit more).run tail
  | [], [], body, _, _, hbody => by
      simp only [writeFields, Option.some.injEq] at hbody
      subst hbody
      intro lim limit more tail _ _
      simp only [List.nil_append]
      cases (readFields crc lim limit more).run tail <;> rfl
  | [], _ :: _, _, hfit, _, _ => by simp [fieldsFit] at hfit
  | _ :: _, [], _, hfit, _, _ => by simp [fieldsFit] at hfit
  | (t, default) :: fields, x :: xs, body, hfit, hdecl, hbody => by
      simp only [fieldsFit, Bool.and_eq_true] at hfit
      simp only [fieldsWellDeclared, Bool.and_eq_true] at hdecl
      simp only [writeFields, Option.bind_eq_bind, Option.bind_eq_some_iff, Option.pure_def,
        Option.some.injEq] at hbody
      obtain ⟨a, ha, b, hb, rfl⟩ := hbody
      intro lim limit more tail hlim htail
      obtain ⟨hne, hread⟩ := write_read t x a hfit.1 hdecl.1 ha
      have hloop := writeFields_readFields fields xs b hfit.2 hdecl.2 hb lim limit more tail hlim htail
      -- the field's bytes are not empty, so the loop has not reached the end
      have hpos : 0 < a.length := List.length_pos_iff.mpr hne
      have hleft : limit < (a ++ b ++ tail).length := by
        simp only [List.length_append]
        omega
      rw [List.cons_append, readFields, bytesLeft_bind_run, if_neg (Nat.ne_of_lt hleft),
        if_neg (by omega), List.append_assoc,
        (hread lim).bind_run _ (by simp only [List.length_append]; omega), StateT.run_bind, hloop]
      cases (readFields crc lim limit more).run tail <;> rfl

end

/-- `from_iobuf` of a read that leaves no byte. -/
theorem fromIobuf_of_run {t : SerdeType} {v : Value} {bs : List UInt8}
    (hrun : (read crc 0 t).run bs = some (v, [])) : fromIobuf crc t bs = some v := by
  rw [fromIobuf, StateT.run'_eq, run_bind_of_run hrun]
  rfl

/-- `from_iobuf` of what `to_iobuf` wrote. -/
theorem fromIobuf_of_write {t : SerdeType} {v : Value} {bs : List UInt8}
    (hread : DecodesAbove 0 (read crc 0 t) bs v) : fromIobuf crc t bs = some v := by
  have hrun := hread [] le_rfl
  rw [List.append_nil] at hrun
  exact fromIobuf_of_run crc hrun

end RoundTrip

/-! ## `operator==` after the round trip -/

mutual

/-- No `float` or `double` in the value is a NaN. -/
def noNaN : SerdeType → Value → Bool
  | .float, .float bits => !isNaN 8 23 bits
  | .double, .float bits => !isNaN 11 52 bits
  | .optional t, .optional (some v) => noNaN t v
  | .vector t, .vector vs => vs.all (noNaN t)
  | .envelope _ _ _ fields, .envelope xs => fieldsNoNaN fields xs
  | _, _ => true

def fieldsNoNaN : List (SerdeType × Value) → List Value → Bool
  | (t, _) :: fields, x :: xs => noNaN t x && fieldsNoNaN fields xs
  | _, _ => true

end

theorem ieeeEq_self (e m a : Nat) : ieeeEq e m a a = !isNaN e m a := by
  cases h : isNaN e m a <;> simp [ieeeEq, h]

theorem all_zip_self {α : Type} (f : α → α → Bool) :
    ∀ l : List α, (l.zip l).all (fun p => f p.1 p.2) = l.all fun a => f a a
  | [] => rfl
  | a :: l => by simp [all_zip_self f l]

variable (crc : List UInt8 → UInt32) in
mutual

/-- A value that fits and has no NaN equals itself; by recursion on the type. -/
theorem cppEq_self : ∀ (t : SerdeType) (v : Value), fits crc t v = true → noNaN t v = true →
    cppEq t v v = true
  | .int _ _, v, hfit, _ => by
      cases v with
      | int n => simp [cppEq]
      | bool _ | float _ | optional _ | vector _ | envelope _ => simp [fits] at hfit
  | .bool, v, hfit, _ => by
      cases v with
      | bool b => simp [cppEq]
      | int _ | float _ | optional _ | vector _ | envelope _ => simp [fits] at hfit
  | .float, v, hfit, hnan => by
      cases v with
      | float bits => simpa [cppEq, ieeeEq_self, noNaN] using hnan
      | int _ | bool _ | optional _ | vector _ | envelope _ => simp [fits] at hfit
  | .double, v, hfit, hnan => by
      cases v with
      | float bits => simpa [cppEq, ieeeEq_self, noNaN] using hnan
      | int _ | bool _ | optional _ | vector _ | envelope _ => simp [fits] at hfit
  | .enum _ _, v, hfit, _ => by
      cases v with
      | int n => simp [cppEq]
      | bool _ | float _ | optional _ | vector _ | envelope _ => simp [fits] at hfit
  | .optional t, v, hfit, hnan => by
      cases v with
      | optional o =>
          cases o with
          | none => rfl
          | some v => exact cppEq_self t v hfit hnan
      | int _ | bool _ | float _ | vector _ | envelope _ => simp [fits] at hfit
  | .vector t, v, hfit, hnan => by
      cases v with
      | vector vs =>
          simp only [fits, Bool.and_eq_true, List.all_eq_true] at hfit
          simp only [noNaN, List.all_eq_true] at hnan
          simp only [cppEq, beq_self_eq_true, Bool.true_and, all_zip_self, List.all_eq_true]
          exact fun v hv => cppEq_self t v (hfit.2 v hv) (hnan v hv)
      | int _ | bool _ | float _ | optional _ | envelope _ => simp [fits] at hfit
  | .envelope _ _ _ fields, v, hfit, hnan => by
      cases v with
      | envelope xs =>
          simp only [fits, Bool.and_eq_true] at hfit
          exact fieldsEq_self fields xs hfit.1 hnan
      | int _ | bool _ | float _ | optional _ | vector _ => simp [fits] at hfit

theorem fieldsEq_self : ∀ (fields : List (SerdeType × Value)) (xs : List Value),
    fieldsFit crc fields xs = true → fieldsNoNaN fields xs = true → fieldsEq fields xs xs = true
  | [], [], _, _ => rfl
  | [], _ :: _, hfit, _ => by simp [fieldsFit] at hfit
  | _ :: _, [], hfit, _ => by simp [fieldsFit] at hfit
  | (t, _) :: fields, x :: xs, hfit, hnan => by
      simp only [fieldsFit, Bool.and_eq_true] at hfit
      simp only [fieldsNoNaN, Bool.and_eq_true] at hnan
      simp only [fieldsEq, Bool.and_eq_true]
      exact ⟨cppEq_self t x hfit.1 hnan.1, fieldsEq_self fields xs hfit.2 hnan.2⟩

end

/-- `from_iobuf<T>(to_iobuf(v))` is `v` bit for bit and reads every byte,
    for every value that fits its type; it is `== v` when no `float` or
    `double` in it is a NaN. -/
theorem serde_round_trip (crc : List UInt8 → UInt32) (t : SerdeType) (v : Value)
    (hdecl : wellDeclared t = true) (hfit : fits crc t v = true) :
    ∃ bs, toIobuf crc t v = some bs ∧ fromIobuf crc t bs = some v ∧
      (noNaN t v = true → cppEq t v v = true) := by
  obtain ⟨bs, hbs⟩ := exists_write crc t v hfit
  have hread := (write_read crc t v bs hfit hdecl hbs).2 0
  exact ⟨bs, hbs, fromIobuf_of_write crc hread, cppEq_self crc t v hfit⟩

/-- A checksum envelope of an `int32_t`, a vector of `bool` and an optional
    `double`, and a value of it. -/
def sampleEnvelope : SerdeType :=
  .envelope 2 1 true [(.int .four true, .int 0), (.vector .bool, .vector []),
    (.optional .double, .optional none)]

def sampleValue : Value :=
  .envelope [.int (-5), .vector [.bool true], .optional (some (.float 0x3FF0000000000000))]

theorem serde_round_trip_sample :
    wellDeclared sampleEnvelope = true ∧ fits crc32c sampleEnvelope sampleValue = true ∧
      ∃ bs, toIobuf crc32c sampleEnvelope sampleValue = some bs ∧
        fromIobuf crc32c sampleEnvelope bs = some sampleValue ∧
        (noNaN sampleEnvelope sampleValue = true → cppEq sampleEnvelope sampleValue sampleValue = true) :=
  ⟨by decide, by decide, serde_round_trip crc32c sampleEnvelope sampleValue (by decide) (by decide)⟩

/-- A `double` NaN comes back with its bits, and `operator==` says it is
    not the value written. -/
theorem nan_double_round_trip_not_equal :
    ∃ bs w, toIobuf crc32c (.envelope 1 1 false [(.double, .float 0)])
        (.envelope [.float 0x7FF8000000000000]) = some bs ∧
      fromIobuf crc32c (.envelope 1 1 false [(.double, .float 0)]) bs = some w ∧
      cppEq (.envelope 1 1 false [(.double, .float 0)]) w (.envelope [.float 0x7FF8000000000000]) =
        false := by
  obtain ⟨bs, hbs⟩ := exists_write crc32c (.envelope 1 1 false [(.double, .float 0)])
    (.envelope [.float 0x7FF8000000000000]) (by decide)
  have hread := (write_read crc32c _ _ bs (by decide) (by decide) hbs).2 0
  exact ⟨bs, _, hbs, fromIobuf_of_write crc32c hread, by decide⟩

/-! ## Versions -/

section Versions

variable (crc : List UInt8 → UInt32) {lim : Nat}

theorem readScalar_run_eq_some {k : Nat} {s s' : List UInt8} {a : Nat}
    (h : (readScalar k lim).run s = some (a, s')) : a = ofLE (s.take k) ∧ s' = s.drop k := by
  rw [readScalar, bytesLeft_bind_run] at h
  split at h
  · cases h
  · rw [readLE, StateT.run_map, Option.map_eq_map, Option.map_eq_some_iff] at h
    obtain ⟨⟨bs, s''⟩, htake, heq⟩ := h
    obtain ⟨rfl, rfl⟩ := take_run_eq_some htake
    cases heq
    exact ⟨rfl, rfl⟩

/-- A header that `read_header` accepts has versions the reader can read:
    the compat version written is at most the reader's version, and the
    version written at least the reader's compat version. -/
theorem readHeader_run_eq_some {version compatVersion : UInt8} {checksum : Bool}
    {v c : UInt8} {more s' : List UInt8} {h : Header}
    (hrun : (readHeader version compatVersion checksum lim).run (v :: c :: more) = some (h, s')) :
    c.toNat ≤ version.toNat ∧ compatVersion.toNat ≤ v.toNat := by
  obtain ⟨v', s1, hv, hrest⟩ := run_bind_eq_some hrun
  obtain ⟨rfl, rfl⟩ := readScalar_run_eq_some hv
  obtain ⟨c', s2, hc, hrest⟩ := run_bind_eq_some hrest
  obtain ⟨rfl, rfl⟩ := readScalar_run_eq_some hc
  obtain ⟨size, s3, -, hrest⟩ := run_bind_eq_some hrest
  obtain ⟨sum, s4, -, hrest⟩ := run_bind_eq_some hrest
  rw [bytesLeft_bind_run] at hrest
  simp only [List.drop_succ_cons, List.drop_zero, List.take_succ_cons, List.take_zero, ofLE,
    List.foldr, Nat.mul_zero, Nat.add_zero] at hrest
  -- each check that fails is a throw; the version checks are the last two
  split at hrest
  · cases hrest
  split at hrest
  · cases hrest
  split at hrest
  · cases hrest
  split at hrest
  · cases hrest
  rename_i hcv hvc
  exact ⟨Nat.le_of_not_gt hcv, Nat.le_of_not_gt hvc⟩

/-- `from_iobuf` throws on an envelope whose compat version is above the
    reader's version or whose version is below the reader's compat version. -/
theorem fromIobuf_envelope_of_versions {version compatVersion : UInt8} {checksum : Bool}
    {fields : List (SerdeType × Value)} {v c : UInt8} (more : List UInt8)
    (hversions : version.toNat < c.toNat ∨ v.toNat < compatVersion.toNat) :
    fromIobuf crc (.envelope version compatVersion checksum fields) (v :: c :: more) = none := by
  cases hrun : fromIobuf crc (.envelope version compatVersion checksum fields) (v :: c :: more) with
  | none => rfl
  | some w =>
      rw [fromIobuf, StateT.run'_eq, Option.map_eq_map, Option.map_eq_some_iff] at hrun
      obtain ⟨⟨w', s⟩, hrun, -⟩ := hrun
      obtain ⟨_, _, hread, -⟩ := run_bind_eq_some hrun
      obtain ⟨_, _, hheader, -⟩ := run_bind_eq_some hread
      have := readHeader_run_eq_some hheader
      omega

theorem fieldsFit_append {fields more : List (SerdeType × Value)} :
    ∀ {xs : List Value}, fieldsFit crc (fields ++ more) xs = true →
      fieldsFit crc fields (xs.take fields.length) = true ∧
        fieldsFit crc more (xs.drop fields.length) = true := by
  induction fields with
  | nil => exact fun h => ⟨by simp [fieldsFit], h⟩
  | cons f fields ih =>
      intro xs h
      cases xs with
      | nil => simp [fieldsFit] at h
      | cons x xs =>
          simp only [List.cons_append, fieldsFit, Bool.and_eq_true] at h
          obtain ⟨hf, hrest⟩ := ih h.2
          simp only [List.length_cons, List.take_succ_cons, List.drop_succ_cons, fieldsFit,
            Bool.and_eq_true]
          exact ⟨⟨h.1, hf⟩, hrest⟩

/-- The fields of an extended type are written as the old fields, then the
    new ones. -/
theorem writeFields_append {more : List (SerdeType × Value)} {ys : List Value} :
    ∀ {fields : List (SerdeType × Value)} {xs : List Value}, fieldsFit crc fields xs = true →
      writeFields crc (fields ++ more) (xs ++ ys) =
        (writeFields crc fields xs).bind fun a => (writeFields crc more ys).map (a ++ ·)
  | [], [], _ => by
      simp only [List.nil_append, writeFields, Option.bind_some, List.nil_append]
      cases writeFields crc more ys <;> rfl
  | [], _ :: _, h => by simp [fieldsFit] at h
  | _ :: _, [], h => by simp [fieldsFit] at h
  | (t, _) :: fields, x :: xs, h => by
      simp only [fieldsFit, Bool.and_eq_true] at h
      simp only [List.cons_append, writeFields, writeFields_append h.2]
      cases write crc t x <;> cases writeFields crc fields xs <;> cases writeFields crc more ys <;>
        simp

/-- At the envelope's end the field loop keeps every default. -/
theorem readFields_at_end (more : List (SerdeType × Value)) (rest : List UInt8) :
    (readFields crc lim rest.length more).run rest = some (more.map Prod.snd, rest) := by
  cases more with
  | nil => rfl
  | cons f more =>
      obtain ⟨t, default⟩ := f
      rw [readFields, bytesLeft_bind_run, if_pos rfl]
      rfl

/-- An envelope type and its extension by the trailing fields `more`, with
    versions each reader accepts, read each other's data: the older reader
    gets the old fields and skips the new ones, the newer reader gets the
    old fields and the defaults of the new ones, and both read every byte.
    A reader throws on a header whose compat version is above its version
    or whose version is below its compat version. -/
theorem envelope_version_compat (fields more : List (SerdeType × Value)) (checksum : Bool)
    (oldVersion oldCompat newVersion newCompat : UInt8) (hnew : newCompat ≤ oldVersion)
    (hold : oldCompat ≤ newVersion) (hdecl : fieldsWellDeclared fields = true) :
    (∀ zs, fits crc (.envelope newVersion newCompat checksum (fields ++ more)) (.envelope zs) = true →
      ∃ bs, toIobuf crc (.envelope newVersion newCompat checksum (fields ++ more)) (.envelope zs) =
          some bs ∧
        fromIobuf crc (.envelope oldVersion oldCompat checksum fields) bs =
          some (.envelope (zs.take fields.length))) ∧
    (∀ xs, fits crc (.envelope oldVersion oldCompat checksum fields) (.envelope xs) = true →
      ∃ bs, toIobuf crc (.envelope oldVersion oldCompat checksum fields) (.envelope xs) = some bs ∧
        fromIobuf crc (.envelope newVersion newCompat checksum (fields ++ more)) bs =
          some (.envelope (xs ++ more.map Prod.snd))) ∧
    ∀ (version compatVersion : UInt8) (readerFields : List (SerdeType × Value)) (v c : UInt8)
      (rest : List UInt8), version.toNat < c.toNat ∨ v.toNat < compatVersion.toNat →
      fromIobuf crc (.envelope version compatVersion checksum readerFields) (v :: c :: rest) = none := by
  have hnew' := UInt8.le_iff_toNat_le.mp hnew
  have hold' := UInt8.le_iff_toNat_le.mp hold
  refine ⟨fun zs hfit => ?_, fun xs hfit => ?_, fun _ _ _ _ _ _ h => fromIobuf_envelope_of_versions crc _ h⟩
  · -- the newer data, read by the older type
    simp only [fits, Bool.and_eq_true] at hfit
    obtain ⟨hfields, hsize⟩ := hfit
    obtain ⟨hold_fields, hnew_fields⟩ := fieldsFit_append crc hfields
    obtain ⟨bodyOld, hbodyOld⟩ := exists_writeFields crc fields _ hold_fields
    obtain ⟨bodyNew, hbodyNew⟩ := exists_writeFields crc more _ hnew_fields
    have hloop := writeFields_readFields crc fields _ bodyOld hold_fields hdecl hbodyOld
    have hbody : writeFields crc (fields ++ more) zs = some (bodyOld ++ bodyNew) := by
      rw [← List.take_append_drop fields.length zs, writeFields_append crc hold_fields, hbodyOld,
        hbodyNew]
      rfl
    rw [hbody, Option.all_some, decide_eq_true_eq] at hsize
    have hwrite : toIobuf crc (.envelope newVersion newCompat checksum (fields ++ more)) (.envelope zs) =
        some ([newVersion, newCompat] ++ leBytes 4 (bodyOld ++ bodyNew).length ++
          (if checksum then leBytes 4 (crc (bodyOld ++ bodyNew)).toNat else []) ++
          (bodyOld ++ bodyNew)) := by
      simp only [toIobuf, write, hbody, Option.bind_eq_bind, Option.bind_some,
        if_neg (show ¬ (bodyOld ++ bodyNew).length > maxSize by omega)]
    refine ⟨_, hwrite, fromIobuf_of_run crc ?_⟩
    have hh := readHeader_run oldVersion oldCompat checksum 0 newVersion newCompat
      (bodyOld ++ bodyNew) [] (crc (bodyOld ++ bodyNew)).toNat_lt
      (by simp only [maxSize] at hsize; omega) le_rfl hnew' hold'
    have hcrc := checkCrc_run crc checksum newVersion.toNat newCompat.toNat (bodyOld ++ bodyNew) []
    -- the old fields end where the new ones start; the frame skips those
    have hf : (readFields crc 0 0 fields).run (bodyOld ++ bodyNew) =
        some (zs.take fields.length, bodyNew ++ []) := by
      have hrun := hloop 0 0 [] bodyNew le_rfl (Nat.zero_le _)
      rw [List.append_nil] at hrun
      rw [hrun]
      simp [readFields]
    simp only [List.append_nil] at hh hcrc
    exact read_envelope_run crc hh hcrc hf rfl
  · -- the older data, read by the newer type
    simp only [fits, Bool.and_eq_true] at hfit
    obtain ⟨hfields, hsize⟩ := hfit
    obtain ⟨body, hbody⟩ := exists_writeFields crc fields xs hfields
    have hloop := writeFields_readFields crc fields xs body hfields hdecl hbody
    rw [hbody, Option.all_some, decide_eq_true_eq] at hsize
    have hwrite : toIobuf crc (.envelope oldVersion oldCompat checksum fields) (.envelope xs) =
        some ([oldVersion, oldCompat] ++ leBytes 4 body.length ++
          (if checksum then leBytes 4 (crc body).toNat else []) ++ body) := by
      simp only [toIobuf, write, hbody, Option.bind_eq_bind, Option.bind_some,
        if_neg (show ¬ body.length > maxSize by omega)]
    refine ⟨_, hwrite, fromIobuf_of_run crc ?_⟩
    have hh := readHeader_run newVersion newCompat checksum 0 oldVersion oldCompat body []
      (crc body).toNat_lt (by simp only [maxSize] at hsize; omega) le_rfl hold' hnew'
    have hcrc := checkCrc_run crc checksum oldVersion.toNat oldCompat.toNat body []
    -- the loop reaches the envelope's end before the new fields
    have hf : (readFields crc 0 0 (fields ++ more)).run body =
        some (xs ++ more.map Prod.snd, [] ++ []) := by
      have hrun := hloop 0 0 more [] le_rfl le_rfl
      rw [List.append_nil] at hrun
      have hend : (readFields crc 0 0 more).run [] = some (more.map Prod.snd, []) :=
        readFields_at_end crc more []
      rw [hrun, hend]
      rfl
    simp only [List.append_nil] at hh hcrc
    exact read_envelope_run crc hh hcrc hf rfl

theorem envelope_version_compat_added_bool :
    ∃ bs, toIobuf crc32c (.envelope 2 1 false [(.int .four true, .int 0), (.bool, .bool true)])
        (.envelope [.int 7, .bool false]) = some bs ∧
      fromIobuf crc32c (.envelope 1 0 false [(.int .four true, .int 0)]) bs = some (.envelope [.int 7]) :=
  (envelope_version_compat crc32c [(.int .four true, .int 0)] [(.bool, .bool true)] false 1 0 2 1
    (by decide) (by decide) (by decide)).1 [.int 7, .bool false] (by decide)

end Versions

end Serde
