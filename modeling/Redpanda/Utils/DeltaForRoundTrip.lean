import Mathlib
import Redpanda.Utils.DeltaFor
import Redpanda.Lib.BitFields

/-! # Delta-FOR: what the decoder reads back

    * `unpack_run_pack`: for every bit width `n ≤ 64` and every row of
      sixteen values below `2 ^ n`, `unpack<n>` reads back what `pack<n>`
      wrote and consumes exactly its bytes.  The words of
      `unsigned_decomposition<n>` lie side by side up to `whole_bytes * 8`
      (`tiles_unsignedDecomposition`), so ORing them back rebuilds the low
      bits of each value (`unpackWords_packWords`); the residual bits are
      the base-`2 ^ residual` digits of one `__uint128_t`
      (`residualPack_eq`, `residualUnpack_eq`).
    * `encode_spec`: `delta_xor` encodes any row and `delta_delta` every row
      it `Encodes`, with deltas below `2 ^ nbits`, and `decode` inverts it.
    * `addAll_eq` and `DecoderAt.readAll`: the encoder's bytes are the rows'
      encodings one after another, and a decoder over them reads the rows
      back in order and then returns `false`.
    * `deltafor_round_trip`, with `int64_delta_delta_jump_not_encoded`: the
      signed differences of an `int64_t` column must fit in an `int64_t`. -/

namespace DeltaFor

open ByteCodec BitFields

/-! ## Arithmetic on `TVal` -/

namespace IntType

theorem toInt_emod (ty : IntType) (a : UInt64) : ty.toInt a % 2 ^ 64 = a.toNat := by
  have := a.toNat_lt
  cases ty with
  | int64 => simp only [toInt]; split <;> omega
  | uint64 => simp only [toInt]; omega

theorem toInt_range (ty : IntType) (a : UInt64) :
    ty.minValue ≤ ty.toInt a ∧ ty.toInt a ≤ ty.maxValue := by
  have := a.toNat_lt
  cases ty with
  | int64 => simp only [toInt, minValue, maxValue]; split <;> omega
  | uint64 => simp only [toInt, minValue, maxValue]; omega

theorem minValue_nonpos (ty : IntType) : ty.minValue ≤ 0 := by
  cases ty <;> decide

/-- The range of `TVal` is shorter than `2 ^ 64`, so two values in it with
    one pattern are equal. -/
theorem eq_of_emod_eq (ty : IntType) {x y : Int} (hx : ty.minValue ≤ x ∧ x ≤ ty.maxValue)
    (hy : ty.minValue ≤ y ∧ y ≤ ty.maxValue) (h : x % 2 ^ 64 = y % 2 ^ 64) : x = y := by
  cases ty <;> simp only [minValue, maxValue] at hx hy <;> omega

theorem toInt_inj {ty : IntType} {a b : UInt64} (h : ty.toInt a = ty.toInt b) : a = b := by
  have ha := ty.toInt_emod a
  have hb := ty.toInt_emod b
  exact UInt64.toNat_inj.mp (by omega)

theorem toInt_sub {ty : IntType} {a b : UInt64} (hlo : ty.minValue ≤ ty.toInt a - ty.toInt b)
    (hhi : ty.toInt a - ty.toInt b ≤ ty.maxValue) :
    ty.toInt (a - b) = ty.toInt a - ty.toInt b := by
  have hs : (a - b).toNat = (2 ^ 64 - b.toNat + a.toNat) % 2 ^ 64 := UInt64.toNat_sub a b
  have ha := ty.toInt_emod a
  have hb := ty.toInt_emod b
  have hab := ty.toInt_emod (a - b)
  have := b.toNat_lt
  exact ty.eq_of_emod_eq (ty.toInt_range _) ⟨hlo, hhi⟩ (by omega)

theorem toInt_add {ty : IntType} {a b : UInt64} (hlo : ty.minValue ≤ ty.toInt a + ty.toInt b)
    (hhi : ty.toInt a + ty.toInt b ≤ ty.maxValue) :
    ty.toInt (a + b) = ty.toInt a + ty.toInt b := by
  have hs : (a + b).toNat = (a.toNat + b.toNat) % 2 ^ 64 := UInt64.toNat_add a b
  have ha := ty.toInt_emod a
  have hb := ty.toInt_emod b
  have hab := ty.toInt_emod (a + b)
  exact ty.eq_of_emod_eq (ty.toInt_range _) ⟨hlo, hhi⟩ (by omega)

theorem overflows_eq_false {ty : IntType} {x : Int} (hlo : ty.minValue ≤ x)
    (hhi : x ≤ ty.maxValue) : ty.overflows x = false := by
  cases ty with
  | int64 =>
      simp only [minValue, maxValue] at hlo hhi
      simp only [overflows, minValue, maxValue, Bool.or_eq_false_iff]
      exact ⟨decide_eq_false (by omega), decide_eq_false (by omega)⟩
  | uint64 => rfl

/-- A subtraction whose result is in range is defined, and is the
    difference. -/
theorem sub_eq_some {ty : IntType} {a b : UInt64} (hlo : ty.minValue ≤ ty.toInt a - ty.toInt b)
    (hhi : ty.toInt a - ty.toInt b ≤ ty.maxValue) : ty.sub a b = some (a - b) := by
  rw [sub, overflows_eq_false hlo hhi]
  rfl

theorem add_eq_some {ty : IntType} {a b : UInt64} (hlo : ty.minValue ≤ ty.toInt a + ty.toInt b)
    (hhi : ty.toInt a + ty.toInt b ≤ ty.maxValue) : ty.add a b = some (a + b) := by
  rw [add, overflows_eq_false hlo hhi]
  rfl

/-- A subtraction that is defined is the difference, and when it is not
    negative it is at most `TVal`'s maximum: signed, by the overflow check;
    unsigned, as the difference of two values in range. -/
theorem sub_eq_some_le {ty : IntType} {a b d : UInt64} (h : ty.sub a b = some d)
    (hle : ty.toInt b ≤ ty.toInt a) : ty.toInt a - ty.toInt b ≤ ty.maxValue ∧ d = a - b := by
  unfold sub at h
  split at h
  · cases h
  · rename_i hov
    refine ⟨?_, (Option.some.inj h).symm⟩
    cases ty with
    | int64 =>
        simp only [overflows, Bool.or_eq_true, decide_eq_true_eq, not_or, not_lt] at hov
        exact hov.2
    | uint64 =>
        have ha := (toInt_range .uint64 a).2
        have hb := (toInt_range .uint64 b).1
        simp only [minValue] at hb
        omega

/-- `r` may follow `p` in a `delta_delta(step)` row of `TVal`: not below
    it, at least `step` above it, and at most `TVal`'s maximum above it. -/
def DeltaFits (ty : IntType) (step p r : UInt64) : Prop :=
  ty.toInt p ≤ ty.toInt r ∧ ty.toInt step ≤ ty.toInt r - ty.toInt p ∧
    ty.toInt r - ty.toInt p ≤ ty.maxValue

instance (ty : IntType) (step p r : UInt64) : Decidable (ty.DeltaFits step p r) :=
  inferInstanceAs (Decidable (_ ∧ _ ∧ _))

end IntType

/-- The values a delta step encodes after `v0`: any for `delta_xor`; for
    `delta_delta` a step that is not negative and each value fitting after
    the one before. -/
def DeltaStep.Encodes (ty : IntType) : DeltaStep → UInt64 → List UInt64 → Prop
  | .xor, _, _ => True
  | .delta step, v0, values => 0 ≤ ty.toInt step ∧ List.IsChain (ty.DeltaFits step) (v0 :: values)

instance (ty : IntType) (delta : DeltaStep) (v0 : UInt64) (values : List UInt64) :
    Decidable (delta.Encodes ty v0 values) :=
  match delta with
  | .xor => isTrue trivial
  | .delta _ => inferInstanceAs (Decidable (_ ∧ _))

/-- A chain from `p` through `xs ++ ys` is one through `xs`, and one from
    the last of them through `ys`. -/
private theorem isChain_cons_append {α : Type} {R : α → α → Prop} :
    ∀ {p : α} {xs ys : List α}, List.IsChain R (p :: (xs ++ ys)) →
      List.IsChain R (p :: xs) ∧ List.IsChain R (xs.getLastD p :: ys)
  | p, [], _, h => ⟨List.IsChain.singleton p, h⟩
  | p, x :: xs, ys, h => by
      rw [List.cons_append, List.isChain_cons_cons] at h
      obtain ⟨hpx, hrest⟩ := h
      obtain ⟨h1, h2⟩ := isChain_cons_append hrest
      exact ⟨List.isChain_cons_cons.mpr ⟨hpx, h1⟩, by rwa [List.getLastD_cons]⟩

/-- A chain from `p` through `xs`, and one from the last of them through
    `ys`, is one from `p` through `xs ++ ys`. -/
private theorem isChain_cons_append_of {α : Type} {R : α → α → Prop} :
    ∀ {p : α} {xs ys : List α}, List.IsChain R (p :: xs) → List.IsChain R (xs.getLastD p :: ys) →
      List.IsChain R (p :: (xs ++ ys))
  | _, [], _, _, h => h
  | _, x :: xs, _, hxs, hys => by
      rw [List.isChain_cons_cons] at hxs
      rw [List.getLastD_cons] at hys
      rw [List.cons_append, List.isChain_cons_cons]
      exact ⟨hxs.1, isChain_cons_append_of hxs.2 hys⟩

theorem DeltaStep.Encodes.append {ty : IntType} {delta : DeltaStep} {p : UInt64}
    {xs ys : List UInt64} (h : delta.Encodes ty p (xs ++ ys)) :
    delta.Encodes ty p xs ∧ delta.Encodes ty (xs.getLastD p) ys := by
  cases delta with
  | xor => exact ⟨trivial, trivial⟩
  | delta step =>
      obtain ⟨hstep, hchain⟩ := h
      obtain ⟨h1, h2⟩ := isChain_cons_append hchain
      exact ⟨⟨hstep, h1⟩, ⟨hstep, h2⟩⟩

theorem DeltaStep.Encodes.of_append {ty : IntType} {delta : DeltaStep} {p : UInt64}
    {xs ys : List UInt64} (h₁ : delta.Encodes ty p xs) (h₂ : delta.Encodes ty (xs.getLastD p) ys) :
    delta.Encodes ty p (xs ++ ys) := by
  cases delta with
  | xor => trivial
  | delta step => exact ⟨h₁.1, isChain_cons_append_of h₁.2 h₂.2⟩

/-! ## `delta_xor` -/

@[simp] theorem xorEncode_nil (p agg : UInt64) : xorEncode p agg [] = ([], agg) := rfl

@[simp] theorem xorEncode_cons (p agg r : UInt64) (row : List UInt64) :
    xorEncode p agg (r :: row) =
      ((r ^^^ p) :: (xorEncode r (agg ||| (r ^^^ p)) row).1, (xorEncode r (agg ||| (r ^^^ p)) row).2) :=
  rfl

@[simp] theorem xorDecode_nil (p : UInt64) : xorDecode p [] = ([], p) := rfl

@[simp] theorem xorDecode_cons (p b : UInt64) (row : List UInt64) :
    xorDecode p (b :: row) = ((b ^^^ p) :: (xorDecode (b ^^^ p) row).1, (xorDecode (b ^^^ p) row).2) :=
  rfl

theorem length_xorEncode (p agg : UInt64) (row : List UInt64) :
    (xorEncode p agg row).1.length = row.length := by
  induction row generalizing p agg with
  | nil => rfl
  | cons r row ih => simp [ih]

/-- Decoding XORs each delta with the value before it, which gives the
    value back. -/
theorem xorDecode_xorEncode (p agg : UInt64) (row : List UInt64) :
    xorDecode p (xorEncode p agg row).1 = (row, row.getLastD p) := by
  induction row generalizing p agg with
  | nil => rfl
  | cons r row ih =>
      have hr : r ^^^ p ^^^ p = r := by rw [UInt64.xor_assoc, UInt64.xor_self, UInt64.xor_zero]
      simp only [xorEncode_cons, xorDecode_cons, hr, ih, List.getLastD_cons]

/-- The OR of the deltas bounds every delta, and the OR it started from. -/
theorem xorEncode_lt (p agg : UInt64) (row : List UInt64) {k : Nat}
    (h : (xorEncode p agg row).2.toNat < 2 ^ k) :
    agg.toNat < 2 ^ k ∧ ∀ b ∈ (xorEncode p agg row).1, b.toNat < 2 ^ k := by
  induction row generalizing p agg with
  | nil => exact ⟨h, by simp⟩
  | cons r row ih =>
      simp only [xorEncode_cons] at h ⊢
      obtain ⟨hor, hbuf⟩ := ih r (agg ||| (r ^^^ p)) h
      rw [UInt64.toNat_or] at hor
      obtain ⟨hagg, hb⟩ := lt_two_pow_of_or_lt hor
      refine ⟨hagg, ?_⟩
      intro b hb'
      rcases List.mem_cons.mp hb' with rfl | hmem
      · exact hb
      · exact hbuf b hmem

/-! ## `delta_delta` -/

section DeltaDelta

variable {ty : IntType} {step : UInt64}

/-- One value of `delta_delta::encode` that fits after the one before: both
    `vassert`s hold, nothing overflows, and the delta is
    `(row[i] - p) - _step_size`. -/
theorem deltaEncode_cons_of_fits (hstep : 0 ≤ ty.toInt step) {p r : UInt64}
    (hfit : ty.DeltaFits step p r) (agg : UInt64) (row : List UInt64) :
    deltaEncode ty step p agg (r :: row) =
      (deltaEncode ty step r (agg ||| (r - p - step)) row).map
        fun res => ((r - p - step) :: res.1, res.2) := by
  obtain ⟨hle, hstepd, hmax⟩ := hfit
  have hmin := ty.minValue_nonpos
  have hd : ty.toInt (r - p) = ty.toInt r - ty.toInt p := IntType.toInt_sub (by omega) hmax
  have h1 : ty.le p r = true := decide_eq_true hle
  have h2 : ty.le step (r - p) = true := decide_eq_true (by omega)
  have hsub1 : ty.sub r p = some (r - p) := IntType.sub_eq_some (by omega) hmax
  have hsub2 : ty.sub (r - p) step = some (r - p - step) := IntType.sub_eq_some (by omega) (by omega)
  simp only [deltaEncode, if_pos h1, hsub1, Option.bind_some, if_pos h2, hsub2]

/-- One value of `delta_delta::decode`: adding the value before and the step
    back gives the value, with no overflow on the way. -/
theorem deltaDecode_cons_of_fits (hstep : 0 ≤ ty.toInt step) {p r : UInt64}
    (hfit : ty.DeltaFits step p r) (buf : List UInt64) :
    deltaDecode ty step p ((r - p - step) :: buf) =
      (deltaDecode ty step r buf).map fun res => (r :: res.1, res.2) := by
  obtain ⟨hle, hstepd, hmax⟩ := hfit
  have hmin := ty.minValue_nonpos
  have hrange := ty.toInt_range r
  have hprange := ty.toInt_range p
  have hd : ty.toInt (r - p) = ty.toInt r - ty.toInt p := IntType.toInt_sub (by omega) hmax
  have hb : ty.toInt (r - p - step) = ty.toInt (r - p) - ty.toInt step :=
    IntType.toInt_sub (by omega) (by omega)
  have hs : ty.toInt (r - p - step + p) = ty.toInt (r - p - step) + ty.toInt p :=
    IntType.toInt_add (by omega) (by omega)
  have hr : r - p - step + p + step = r := by
    have hsum : ty.toInt (r - p - step + p + step) = ty.toInt (r - p - step + p) + ty.toInt step :=
      IntType.toInt_add (by omega) (by omega)
    exact @IntType.toInt_inj ty _ _ (by omega)
  have hadd1 : ty.add (r - p - step) p = some (r - p - step + p) :=
    IntType.add_eq_some (by omega) (by omega)
  have hadd2 : ty.add (r - p - step + p) step = some (r - p - step + p + step) :=
    IntType.add_eq_some (by omega) (by omega)
  simp only [deltaDecode, hadd1, hadd2, hr, Option.bind_eq_bind, Option.bind_some,
    Option.map_eq_bind]
  rfl

/-- `delta_delta` encodes every row that fits after `p`, and decoding its
    deltas from `p` gives the row back. -/
theorem deltaEncode_spec (hstep : 0 ≤ ty.toInt step) (p agg : UInt64) (row : List UInt64)
    (hrow : List.IsChain (ty.DeltaFits step) (p :: row)) :
    ∃ buf agg', deltaEncode ty step p agg row = some (buf, agg') ∧ buf.length = row.length ∧
      deltaDecode ty step p buf = some (row, row.getLastD p) := by
  induction row generalizing p agg with
  | nil => exact ⟨[], agg, rfl, rfl, rfl⟩
  | cons r row ih =>
      rw [List.isChain_cons_cons] at hrow
      obtain ⟨hfit, hrest⟩ := hrow
      obtain ⟨buf, agg', henc, hlen, hdec⟩ := ih r (agg ||| (r - p - step)) hrest
      refine ⟨(r - p - step) :: buf, agg', ?_, by simp [hlen], ?_⟩
      · rw [deltaEncode_cons_of_fits hstep hfit, henc]
        rfl
      · rw [deltaDecode_cons_of_fits hstep hfit, hdec, List.getLastD_cons]
        rfl

/-- A row that `delta_delta::encode` takes fits after `p`: both `vassert`s
    held and nothing overflowed. -/
theorem fits_of_deltaEncode : ∀ (p agg : UInt64) (row : List UInt64) {res : List UInt64 × UInt64},
    deltaEncode ty step p agg row = some res → List.IsChain (ty.DeltaFits step) (p :: row)
  | p, _, [], _, _ => List.IsChain.singleton p
  | p, agg, r :: row, _, h => by
      simp only [deltaEncode] at h
      split at h
      · rename_i hle
        have hle' : ty.toInt p ≤ ty.toInt r := by simpa [IntType.le] using hle
        cases hsub : ty.sub r p with
        | none =>
            rw [hsub, Option.bind_none] at h
            cases h
        | some d =>
            obtain ⟨hmax, rfl⟩ := IntType.sub_eq_some_le hsub hle'
            rw [hsub, Option.bind_some] at h
            split at h
            · -- the delta is at least the step: the rest of the row fits after `r`
              rename_i hstepd
              have hd : ty.toInt (r - p) = ty.toInt r - ty.toInt p :=
                IntType.toInt_sub (by have := ty.minValue_nonpos; omega) hmax
              have hstep' : ty.toInt step ≤ ty.toInt (r - p) := by simpa [IntType.le] using hstepd
              cases hsub₂ : ty.sub (r - p) step with
              | none =>
                  rw [hsub₂, Option.bind_none] at h
                  cases h
              | some b =>
                  rw [hsub₂, Option.bind_some, Option.map_eq_some_iff] at h
                  obtain ⟨_, hinner, -⟩ := h
                  exact List.IsChain.cons_cons ⟨hle', by omega, hmax⟩ (fits_of_deltaEncode r _ row hinner)
            · cases h
      · cases h

/-- The OR of the deltas bounds every delta, and the OR it started from. -/
theorem deltaEncode_lt (hstep : 0 ≤ ty.toInt step) (p agg : UInt64) (row : List UInt64)
    (hrow : List.IsChain (ty.DeltaFits step) (p :: row)) {buf : List UInt64} {agg' : UInt64}
    (henc : deltaEncode ty step p agg row = some (buf, agg')) {k : Nat}
    (h : agg'.toNat < 2 ^ k) : agg.toNat < 2 ^ k ∧ ∀ b ∈ buf, b.toNat < 2 ^ k := by
  induction row generalizing p agg buf with
  | nil =>
      obtain ⟨rfl, rfl⟩ := Prod.mk.inj (Option.some.inj henc)
      exact ⟨h, by simp⟩
  | cons r row ih =>
      rw [List.isChain_cons_cons] at hrow
      obtain ⟨hfit, hrest⟩ := hrow
      rw [deltaEncode_cons_of_fits hstep hfit, Option.map_eq_some_iff] at henc
      obtain ⟨⟨buf', agg''⟩, hinner, hres⟩ := henc
      obtain ⟨rfl, rfl⟩ := Prod.mk.inj hres
      obtain ⟨hor, hbuf⟩ := ih r (agg ||| (r - p - step)) hrest hinner
      rw [UInt64.toNat_or] at hor
      obtain ⟨hagg, hb⟩ := lt_two_pow_of_or_lt hor
      refine ⟨hagg, ?_⟩
      intro b hb'
      rcases List.mem_cons.mp hb' with rfl | hmem
      · exact hb
      · exact hbuf b hmem

end DeltaDelta

theorem bitWidth_le (x : UInt64) : bitWidth x ≤ 64 := Nat.size_le.mpr x.toNat_lt

theorem lt_two_pow_bitWidth (x : UInt64) : x.toNat < 2 ^ bitWidth x := Nat.lt_size_self _

/-- What `encode` does with a row it encodes: it writes one delta for each
    value, every delta below `2 ^ nbits` with `nbits ≤ 64`, and `decode`
    from the same value gives the row back. -/
theorem encode_spec (ty : IntType) (delta : DeltaStep) (last : UInt64) (row : List UInt64)
    (h : delta.Encodes ty last row) :
    ∃ buf nbits, encode ty delta last row = some (buf, nbits) ∧ nbits ≤ 64 ∧
      buf.length = row.length ∧ (∀ b ∈ buf, b.toNat < 2 ^ nbits) ∧
      decode ty delta last buf = some (row, row.getLastD last) := by
  cases delta with
  | xor =>
      refine ⟨_, _, rfl, bitWidth_le _, length_xorEncode last 0 row, ?_, ?_⟩
      · exact (xorEncode_lt last 0 row (lt_two_pow_bitWidth _)).2
      · exact congrArg some (xorDecode_xorEncode last 0 row)
  | delta step =>
      obtain ⟨hstep, hchain⟩ := h
      obtain ⟨buf, agg, henc, hlen, hdec⟩ := deltaEncode_spec hstep last 0 row hchain
      refine ⟨buf, bitWidth agg, ?_, bitWidth_le _, hlen, ?_, hdec⟩
      · simp only [encode, henc]
        rfl
      · exact (deltaEncode_lt hstep last 0 row hchain henc (lt_two_pow_bitWidth _)).2

/-! ## The words of `unsigned_decomposition` -/

/-- The words `(bytes, offset)` lie side by side from bit `s` to bit `t`. -/
def tiles : List (Nat × Nat) → Nat → Nat → Bool
  | [], s, t => s == t
  | (b, s') :: ws, s, t => s' == s && tiles ws (s + 8 * b) t

theorem tiles_nil (s t : Nat) : tiles [] s t = (s == t) := rfl

/-- The decomposition of every width covers its whole bytes, word after
    word from bit `0`. -/
theorem tiles_unsignedDecomposition :
    ∀ n < 65, tiles (unsignedDecomposition n) 0 (wholeBytes n * 8) = true := by
  decide

theorem tiles_cons {b s' s t : Nat} {ws : List (Nat × Nat)} :
    tiles ((b, s') :: ws) s t = true ↔ s' = s ∧ tiles ws (s + 8 * b) t = true := by
  simp [tiles]

theorem le_of_tiles : ∀ {ws : List (Nat × Nat)} {s t : Nat}, tiles ws s t = true → s ≤ t
  | [], s, t, h => by simp [tiles_nil] at h; omega
  | (b, s') :: ws, s, t, h => by
      have := le_of_tiles (tiles_cons.mp h).2
      omega

@[simp] theorem packWord_nil (b s : Nat) : packWord b s [] = [] := rfl

@[simp] theorem packWord_cons (b s u : Nat) (us : List Nat) :
    packWord b s (u :: us) = leBytes b (u >>> s) ++ packWord b s us := rfl

@[simp] theorem unpackWord_nil (b s : Nat) (buf : List UInt8) : unpackWord b s [] buf = ([], buf) :=
  rfl

@[simp] theorem unpackWord_cons (b s e : Nat) (es : List Nat) (buf : List UInt8) :
    unpackWord b s (e :: es) buf =
      ((e ||| shl64 (ofLE (buf.take b)) s) :: (unpackWord b s es (buf.drop b)).1,
        (unpackWord b s es (buf.drop b)).2) := rfl

theorem unpackWords_cons (b s : Nat) (ws : List (Nat × Nat)) (es : List Nat) (buf : List UInt8) :
    unpackWords ((b, s) :: ws) es buf =
      unpackWords ws (unpackWord b s es buf).1 (unpackWord b s es buf).2 := rfl

theorem length_packWord (b s : Nat) (us : List Nat) : (packWord b s us).length = b * us.length := by
  induction us with
  | nil => rfl
  | cons u us ih => simp [ih, Nat.mul_succ, Nat.add_comm]

/-- The word of `b` bytes at bit `s`, ORed back above the bits below `s`,
    gives the bits below `s + 8 * b`. -/
theorem mod_or_shl64 (u : Nat) {b s : Nat} (hs : s + 8 * b ≤ 64) :
    u % 2 ^ s ||| shl64 ((u >>> s) % 256 ^ b) s = u % 2 ^ (s + 8 * b) := by
  have h256 : (256 : Nat) ^ b = 2 ^ (8 * b) := by rw [Nat.pow_mul]
  have hword : (u >>> s) % 2 ^ (8 * b) < 2 ^ (8 * b) := Nat.mod_lt _ (Nat.two_pow_pos _)
  have hfits : ((u >>> s) % 2 ^ (8 * b)) <<< s < 2 ^ 64 :=
    Nat.lt_of_lt_of_le (shiftLeft_lt_two_pow s hword) (Nat.pow_le_pow_right (by decide) hs)
  rw [h256, shl64, Nat.mod_eq_of_lt hfits, or_shiftLeft_eq_add _ (Nat.mod_lt _ (Nat.two_pow_pos s)),
    mod_two_pow_add]

/-- `unpack` of one word reads what `pack` wrote for it. -/
theorem unpackWord_packWord {b s : Nat} (hs : s + 8 * b ≤ 64) (us : List Nat) (rest : List UInt8) :
    unpackWord b s (us.map (· % 2 ^ s)) (packWord b s us ++ rest) =
      (us.map (· % 2 ^ (s + 8 * b)), rest) := by
  induction us with
  | nil => rfl
  | cons u us ih =>
      have hlen : (leBytes b (u >>> s)).length = b := length_leBytes b _
      simp only [List.map_cons, packWord_cons, List.append_assoc, unpackWord_cons,
        List.take_left' hlen, List.drop_left' hlen, ih, ofLE_leBytes, mod_or_shl64 u hs]

/-- `unpack` of the words side by side from `s` to `t` reads what `pack`
    wrote for them. -/
theorem unpackWords_packWords (us : List Nat) (rest : List UInt8) :
    ∀ (ws : List (Nat × Nat)) (s t : Nat), tiles ws s t = true → t ≤ 64 →
      unpackWords ws (us.map (· % 2 ^ s)) (ws.flatMap (fun w => packWord w.1 w.2 us) ++ rest) =
        (us.map (· % 2 ^ t), rest)
  | [], s, t, h, _ => by
      have hst : s = t := by simpa [tiles_nil] using h
      subst hst
      rfl
  | (b, s') :: ws, s, t, h, ht => by
      obtain ⟨rfl, hws⟩ := tiles_cons.mp h
      have hle := le_of_tiles hws
      rw [List.flatMap_cons, List.append_assoc, unpackWords_cons,
        unpackWord_packWord (by omega)]
      exact unpackWords_packWords us rest ws (s' + 8 * b) t hws ht

theorem length_packWords {us : List Nat} (hlen : us.length = rowWidth) :
    ∀ (ws : List (Nat × Nat)) (s t : Nat), tiles ws s t = true →
      (ws.flatMap fun w => packWord w.1 w.2 us).length = 2 * (t - s)
  | [], s, t, h => by
      have hst : s = t := by simpa [tiles_nil] using h
      simp [hst]
  | (b, s') :: ws, s, t, h => by
      obtain ⟨rfl, hws⟩ := tiles_cons.mp h
      have hle := le_of_tiles hws
      rw [List.flatMap_cons, List.length_append, length_packWord, hlen,
        length_packWords hlen ws (s' + 8 * b) t hws]
      simp only [rowWidth]
      omega

/-! ## The residual bits -/

theorem wholeBytes_add_residualBits (n : Nat) : wholeBytes n * 8 + residualBits n = n := by
  simp only [wholeBytes, residualBits]
  omega

theorem residualBits_lt (n : Nat) : residualBits n < 8 := Nat.mod_lt n (by decide)

/-- The mask keeps the low `n` bits, for `n = 64` as for the others. -/
theorem and_residualSaveMask {n : Nat} (hn : n ≤ 64) (u : Nat) :
    u &&& residualSaveMask n = u % 2 ^ n := by
  have hmask : residualSaveMask n = 2 ^ n - 1 := by
    unfold residualSaveMask
    split
    · subst n
      rfl
    · rfl
  rw [hmask, Nat.and_two_pow_sub_one_eq_mod]

/-- The bits of a value of `n` bits above its whole bytes fit in the
    residual. -/
theorem shiftRight_wholeBytes_lt {n u : Nat} (hu : u < 2 ^ n) :
    u >>> (wholeBytes n * 8) < 2 ^ residualBits n := by
  have hpow : (2 : Nat) ^ n = 2 ^ (wholeBytes n * 8) * 2 ^ residualBits n := by
    rw [← Nat.pow_add, wholeBytes_add_residualBits]
  rw [Nat.shiftRight_eq_div_pow, Nat.div_lt_iff_lt_mul (Nat.two_pow_pos _), Nat.mul_comm]
  rwa [← hpow]

/-- No residual field of a row overflows the `__uint128_t`. -/
theorem shl128_residual {n f i : Nat} (hf : f < 2 ^ residualBits n) (hi : i < rowWidth) :
    shl128 f (residualBits n * i) = f <<< (residualBits n * i) := by
  have hbits : residualBits n * i + residualBits n ≤ 128 := by
    have hw : rowWidth = 16 := rfl
    have := Nat.mul_le_mul (Nat.le_of_lt_succ (residualBits_lt n)) (hi : i + 1 ≤ rowWidth)
    rw [Nat.mul_succ, hw] at this
    omega
  exact Nat.mod_eq_of_lt
    (Nat.lt_of_lt_of_le (shiftLeft_lt_two_pow _ hf) (Nat.pow_le_pow_right (by decide) hbits))

/-- Step 2 of `pack` packs the residual bits of the row as base-`2 ^ r`
    digits. -/
theorem residualPack_eq {n : Nat} (hn : n ≤ 64) {us : List Nat} (hlen : us.length ≤ rowWidth)
    (hus : ∀ u ∈ us, u < 2 ^ n) :
    residualPack n us = Nat.ofDigits (2 ^ residualBits n) (us.map (· >>> (wholeBytes n * 8))) := by
  have hfields : ∀ f ∈ us.map (· >>> (wholeBytes n * 8)), f < 2 ^ residualBits n := by
    simp only [List.mem_map]
    rintro f ⟨u, hu, rfl⟩
    exact shiftRight_wholeBytes_lt (hus u hu)
  have hor := foldr_or_shiftLeft hfields 0
  rw [Nat.mul_zero, Nat.shiftLeft_zero, List.zipIdx_map, List.map_map] at hor
  rw [← hor, residualPack]
  congr 1
  apply List.map_congr_left
  rintro ⟨u, i⟩ hmem
  obtain ⟨-, hi, hu⟩ := List.mem_zipIdx hmem
  have hmem' : u ∈ us := by
    rw [hu]
    exact List.getElem_mem _
  have hlt := hus u hmem'
  simp only [Function.comp_apply, Prod.map_fst, Prod.map_snd, id_eq]
  rw [and_residualSaveMask hn, Nat.mod_eq_of_lt hlt]
  exact shl128_residual (shiftRight_wholeBytes_lt hlt) (by omega)

/-- Step 2 of `unpack` puts each value's residual digit back above its
    whole bytes, which gives the value. -/
theorem residualUnpack_eq {n : Nat} (hn : n ≤ 64) {us : List Nat}
    (hus : ∀ u ∈ us, u < 2 ^ n) :
    residualUnpack n (Nat.ofDigits (2 ^ residualBits n) (us.map (· >>> (wholeBytes n * 8))))
      (us.map (· % 2 ^ (wholeBytes n * 8))) = us := by
  have hfields : ∀ f ∈ us.map (· >>> (wholeBytes n * 8)), f < 2 ^ residualBits n := by
    simp only [List.mem_map]
    rintro f ⟨u, hu, rfl⟩
    exact shiftRight_wholeBytes_lt (hus u hu)
  have hpow : (2 : Nat) ^ n = 2 ^ (wholeBytes n * 8 + residualBits n) := by
    rw [wholeBytes_add_residualBits]
  apply List.ext_getElem (by simp [residualUnpack])
  intro i h1 h2
  simp only [residualUnpack, List.getElem_map, List.getElem_zipIdx, Nat.zero_add]
  have hi : i < us.length := by simpa [residualUnpack] using h1
  have hlt : us[i] < 2 ^ n := hus _ (List.getElem_mem hi)
  have hhigh : us[i] >>> (wholeBytes n * 8) < 2 ^ residualBits n := shiftRight_wholeBytes_lt hlt
  -- the residual digit of value `i`, shifted back above its whole bytes
  have hdigit : (Nat.ofDigits (2 ^ residualBits n) (us.map (· >>> (wholeBytes n * 8))) >>>
      (residualBits n * i)) % 2 ^ residualBits n = us[i] >>> (wholeBytes n * 8) := by
    rw [ofDigits_shiftRight_mod hfields i (by simpa using hi), List.getElem_map]
  have hfield : shl128 (Nat.ofDigits (2 ^ residualBits n) (us.map (· >>> (wholeBytes n * 8))) >>>
      (residualBits n * i)) (wholeBytes n * 8) &&& residualSaveMask n =
        (us[i] >>> (wholeBytes n * 8)) <<< (wholeBytes n * 8) := by
    rw [and_residualSaveMask hn, shl128, Nat.mod_mod_of_dvd _ (Nat.pow_dvd_pow 2 (by omega)), hpow,
      shiftLeft_mod_two_pow_add, hdigit]
  rw [hfield, or_shiftLeft_eq_add _ (Nat.mod_lt _ (Nat.two_pow_pos _)),
    ← Nat.mod_eq_of_lt hhigh, ← mod_two_pow_add, ← hpow, Nat.mod_eq_of_lt hlt]

/-- The residual bits of a row fit in the `residual * row_width / 8` bytes
    saved for them. -/
theorem ofDigits_residual_lt {n : Nat} (hr : 0 < residualBits n) {us : List Nat}
    (hlen : us.length ≤ rowWidth) (hus : ∀ u ∈ us, u < 2 ^ n) :
    Nat.ofDigits (2 ^ residualBits n) (us.map (· >>> (wholeBytes n * 8))) <
      256 ^ (residualBits n * rowWidth / 8) := by
  have hfields : ∀ f ∈ us.map (· >>> (wholeBytes n * 8)), f < 2 ^ residualBits n := by
    simp only [List.mem_map]
    rintro f ⟨u, hu, rfl⟩
    exact shiftRight_wholeBytes_lt (hus u hu)
  have hbase : 1 < 2 ^ residualBits n := Nat.one_lt_two_pow (by omega)
  have hbytes : (256 : Nat) ^ (residualBits n * rowWidth / 8) = (2 ^ residualBits n) ^ rowWidth := by
    rw [show (256 : Nat) = 2 ^ 8 from rfl, ← Nat.pow_mul, ← Nat.pow_mul]
    congr 1
    simp only [rowWidth]
    omega
  calc Nat.ofDigits (2 ^ residualBits n) (us.map (· >>> (wholeBytes n * 8)))
      < (2 ^ residualBits n) ^ (us.map (· >>> (wholeBytes n * 8))).length :=
        Nat.ofDigits_lt_base_pow_length hbase hfields
    _ ≤ (2 ^ residualBits n) ^ rowWidth :=
        Nat.pow_le_pow_right (by omega) (by simpa using hlen)
    _ = 256 ^ (residualBits n * rowWidth / 8) := hbytes.symm

/-! ## `pack<N_BITS>` and `unpack<N_BITS>` -/

section Bits

variable {n : Nat} {us : List Nat}

/-- `pack<N_BITS>` fills the whole `serialized_size` buffer. -/
theorem length_packBits (hn : n ≤ 64) (hlen : us.length = rowWidth) :
    (packBits n us).length = serializedSize n rowWidth := by
  have hwords := length_packWords hlen _ 0 _ (tiles_unsignedDecomposition n (by omega))
  simp only [packBits, List.length_append, hwords, serializedSize]
  split
  · rw [length_leBytes]
    simp only [rowWidth]
    omega
  · have hr : residualBits n = 0 := by omega
    simp only [hr, rowWidth, List.length_nil]
    omega

/-- `unpack<N_BITS>` from a zeroed row reads back the row `pack<N_BITS>`
    wrote, for every width from `1` to `64`. -/
theorem unpackBits_packBits (hn : n ≤ 64) (hlen : us.length = rowWidth) (hus : ∀ u ∈ us, u < 2 ^ n) :
    unpackBits n (List.replicate rowWidth 0) (packBits n us) = us := by
  have hzeros : List.replicate rowWidth 0 = us.map (· % 2 ^ 0) := by
    rw [← hlen]
    simp only [Nat.pow_zero, Nat.mod_one, List.map_const']
  have hwords := unpackWords_packWords us
    (if residualBits n > 0 then leBytes (residualBits n * rowWidth / 8) (residualPack n us) else [])
    _ 0 _ (tiles_unsignedDecomposition n (by omega)) (by simp only [wholeBytes]; omega)
  simp only [unpackBits, packBits, hzeros, hwords]
  split
  · rename_i hr
    have hbits := ofDigits_residual_lt hr (Nat.le_of_eq hlen) hus
    rw [List.take_of_length_le (by simp), ofLE_leBytes, residualPack_eq hn (Nat.le_of_eq hlen) hus,
      Nat.mod_eq_of_lt hbits]
    exact residualUnpack_eq hn hus
  · -- no residual: the whole bytes are all `n` bits
    have hr : wholeBytes n * 8 = n := by
      have := wholeBytes_add_residualBits n
      omega
    rw [hr]
    calc us.map (· % 2 ^ n) = us.map id := List.map_congr_left fun u hu => Nat.mod_eq_of_lt (hus u hu)
      _ = us := List.map_id us

end Bits

/-- `unpack(row, n)` reads back the row `pack(row, n)` wrote, and exactly
    its bytes, for every width `n ≤ 64` and every row whose deltas fit in
    `n` bits; what the buffer held before does not matter. -/
theorem decodes_unpack {n : Nat} (hn : n ≤ 64) {buf : List UInt64} (hlen : buf.length = rowWidth)
    (hbits : ∀ b ∈ buf, b.toNat < 2 ^ n) (row : List UInt64) :
    Decodes (unpack n row) (pack n buf) buf := by
  have hus : ∀ u ∈ buf.map UInt64.toNat, u < 2 ^ n := by simpa using hbits
  have hlen' : (buf.map UInt64.toNat).length = rowWidth := by simpa using hlen
  have hback : (buf.map UInt64.toNat).map UInt64.ofNat = buf := by
    rw [List.map_map]
    calc buf.map (UInt64.ofNat ∘ UInt64.toNat) = buf.map id :=
          List.map_congr_left fun _ _ => UInt64.ofNat_toNat
      _ = buf := List.map_id buf
  dsimp only [unpack, pack]
  rw [if_pos hn]
  by_cases h0 : 0 < n
  · rw [if_pos h0, if_pos ⟨h0, hn⟩]
    have hread := decodes_map (decodes_take (length_packBits hn hlen'))
      fun bs => (unpackBits n (List.replicate rowWidth 0) bs).map UInt64.ofNat
    rwa [unpackBits_packBits hn hlen' hus, hback] at hread
  · -- width `0`: every delta is zero and nothing was written
    rw [if_neg h0, if_neg fun h => h0 h.1]
    have hzero : buf = List.replicate rowWidth 0 := by
      rw [List.eq_replicate_iff]
      refine ⟨hlen, fun b hb => ?_⟩
      have := hbits b hb
      rw [show n = 0 by omega] at this
      exact UInt64.toNat_inj.mp (by simpa using this)
    rw [hzero, List.map_replicate]
    exact decodes_pure _

/-- `read` consumes the `nbits` byte and the packed row after it. -/
theorem decodes_readRow {nbits : Nat} (hn : nbits ≤ 64) {buf : List UInt64}
    (hlen : buf.length = rowWidth) (hbits : ∀ b ∈ buf, b.toNat < 2 ^ nbits) (row : List UInt64) :
    Decodes (readRow row) (UInt8.ofNat nbits :: pack nbits buf) buf := by
  have hbyte : leBytes 1 nbits = [UInt8.ofNat nbits] := by
    simp [leBytes, Nat.mod_eq_of_lt (by omega : nbits < 256)]
  show Decodes (readLE 1 >>= fun nbits => unpack nbits row) _ buf
  rw [← List.singleton_append, ← hbyte]
  exact decodes_bind (decodes_readLE (by omega)) (decodes_unpack hn hlen hbits row)

/-- A `read` before the end that finds a row's bytes returns it decoded. -/
theorem read_of_decodes (ty : IntType) {d : DeltaforDecoder} {row buf row' : List UInt64}
    {bytes rest : List UInt8} {last : UInt64} (hpos : d.pos ≠ d.total)
    (hread : Decodes (readRow row) bytes buf) (hdata : d.data = bytes ++ rest)
    (hdec : decode ty d.delta d.initial buf = some (row', last)) :
    d.read ty row = some (true, row', { d with initial := last, pos := d.pos + 1, data := rest }) := by
  rw [DeltaforDecoder.read, if_neg hpos, hdata, hread rest, Option.bind_some, hdec]
  rfl

/-! ## Whole runs -/

/-- The bytes `add` writes for `rows` after `last`, row after row. -/
def encodeRows (ty : IntType) (delta : DeltaStep) : UInt64 → List (List UInt64) → Option (List UInt8)
  | _, [] => some []
  | last, row :: rows =>
      (encode ty delta last row).bind fun res =>
        (encodeRows ty delta (row.getLastD last) rows).map fun bs =>
          (UInt8.ofNat res.2 :: pack res.2 res.1) ++ bs

theorem encodeRows_nil (ty : IntType) (delta : DeltaStep) (last : UInt64) :
    encodeRows ty delta last [] = some [] := rfl

theorem encodeRows_cons (ty : IntType) (delta : DeltaStep) (last : UInt64) (row : List UInt64)
    (rows : List (List UInt64)) :
    encodeRows ty delta last (row :: rows) =
      (encode ty delta last row).bind fun res =>
        (encodeRows ty delta (row.getLastD last) rows).map fun bs =>
          (UInt8.ofNat res.2 :: pack res.2 res.1) ++ bs := rfl

theorem getLastD_append {α : Type} (xs ys : List α) (d : α) :
    (xs ++ ys).getLastD d = ys.getLastD (xs.getLastD d) := by
  induction xs generalizing d with
  | nil => rfl
  | cons x xs ih => simp only [List.cons_append, List.getLastD_cons, ih]

/-- `add` of each row appends the rows' encodings to the data, counts them
    and keeps the last value. -/
theorem addAll_eq (ty : IntType) :
    ∀ (rows : List (List UInt64)) (e : DeltaforEncoder),
      e.addAll ty rows = (encodeRows ty e.delta e.last rows).map fun bs =>
        { e with
          last := rows.flatten.getLastD e.last
          data := e.data ++ bs
          cnt := e.cnt + UInt32.ofNat rows.length }
  | [], e => by
      have hzero : UInt32.ofNat 0 = 0 := rfl
      simp only [DeltaforEncoder.addAll, encodeRows_nil, Option.map_some, List.flatten_nil,
        List.getLastD_nil, List.append_nil, List.length_nil, hzero, add_zero]
  | row :: rows, e => by
      cases hres : encode ty e.delta e.last row with
      | none => simp [DeltaforEncoder.addAll, DeltaforEncoder.add, encodeRows_cons, hres]
      | some res =>
          simp only [DeltaforEncoder.addAll, DeltaforEncoder.add, encodeRows_cons, hres, Option.map_some,
            Option.bind_some, addAll_eq ty rows, Option.map_map]
          congr 1
          funext bs
          simp only [Function.comp_apply, List.flatten_cons, getLastD_append, List.append_assoc,
            List.length_cons, DeltaforEncoder.mk.injEq, true_and, and_true]
          -- one more row counted: `_cnt++` before the rest
          have hone : UInt32.ofNat 1 = 1 := rfl
          rw [UInt32.ofNat_add, hone, UInt32.add_assoc, UInt32.add_comm 1]

/-- Every row sequence a delta step `Encodes` is encoded. -/
theorem exists_encodeRows (ty : IntType) (delta : DeltaStep) :
    ∀ (rows : List (List UInt64)) (last : UInt64), delta.Encodes ty last rows.flatten →
      ∃ bs, encodeRows ty delta last rows = some bs
  | [], _, _ => ⟨[], rfl⟩
  | row :: rows, last, h => by
      rw [List.flatten_cons] at h
      obtain ⟨hrow, hrows⟩ := h.append
      obtain ⟨buf, nbits, henc, -⟩ := encode_spec ty delta last row hrow
      obtain ⟨bs, hbs⟩ := exists_encodeRows ty delta rows (row.getLastD last) hrows
      exact ⟨_, by rw [encodeRows_cons, henc, Option.bind_some, hbs, Option.map_some]⟩

/-- The rows `encodeRows` encodes with a step that is not negative are rows
    the step `Encodes`. -/
theorem encodes_of_encodeRows {ty : IntType} {step : UInt64} (hstep : 0 ≤ ty.toInt step) :
    ∀ (rows : List (List UInt64)) (last : UInt64) {bs : List UInt8},
      encodeRows ty (.delta step) last rows = some bs → (DeltaStep.delta step).Encodes ty last rows.flatten
  | [], last, _, _ => ⟨hstep, List.IsChain.singleton last⟩
  | row :: rows, last, _, h => by
      rw [encodeRows_cons, Option.bind_eq_some_iff] at h
      obtain ⟨res, henc, hrest⟩ := h
      obtain ⟨bs', hbs', -⟩ := Option.map_eq_some_iff.mp hrest
      obtain ⟨res', hres', -⟩ := Option.map_eq_some_iff.mp henc
      rw [List.flatten_cons]
      exact DeltaStep.Encodes.of_append ⟨hstep, fits_of_deltaEncode last 0 row hres'⟩
        (encodes_of_encodeRows hstep rows (row.getLastD last) hbs')

/-- A decoder about to read `rows`: what it has left is their encoding
    from its initial value, and it has as many rows to go. -/
structure DecoderAt (ty : IntType) (d : DeltaforDecoder) (rows : List (List UInt64)) : Prop where
  width : ∀ r ∈ rows, r.length = rowWidth
  encodes : d.delta.Encodes ty d.initial rows.flatten
  data_eq : encodeRows ty d.delta d.initial rows = some d.data
  count : d.pos.toNat + rows.length = d.total.toNat

namespace DecoderAt

variable {ty : IntType} {d : DeltaforDecoder}

/-- With no row to go, `read` returns `false` and changes nothing. -/
theorem read_nil (h : DecoderAt ty d []) (row : List UInt64) : d.read ty row = some (false, row, d) := by
  have hend : d.pos = d.total := UInt32.toNat_inj.mp (by simpa using h.count)
  exact if_pos hend

/-- With rows to go, `read` returns the first and moves on to the rest. -/
theorem read_cons {r : List UInt64} {rows : List (List UInt64)} (h : DecoderAt ty d (r :: rows))
    (row : List UInt64) :
    ∃ d', d.read ty row = some (true, r, d') ∧ DecoderAt ty d' rows ∧ d'.delta = d.delta := by
  have hvalid := h.encodes
  rw [List.flatten_cons] at hvalid
  obtain ⟨hr, hrows⟩ := hvalid.append
  obtain ⟨buf, nbits, hcode, hn, hlen, hbits, hdec⟩ := encode_spec ty d.delta d.initial r hr
  have henc := h.data_eq
  rw [encodeRows_cons, hcode, Option.bind_some, Option.map_eq_some_iff] at henc
  obtain ⟨bs', hbs', hdata⟩ := henc
  have hpos := h.count
  simp only [List.length_cons] at hpos
  have hne : d.pos ≠ d.total := fun heq => by
    rw [heq] at hpos
    omega
  have hlen' : buf.length = rowWidth := by rw [hlen, h.width r List.mem_cons_self]
  have hread := read_of_decodes ty hne (decodes_readRow hn hlen' hbits row) hdata.symm hdec
  have hnext : (d.pos + 1).toNat = d.pos.toNat + 1 := by
    have := d.total.toNat_lt
    rw [UInt32.toNat_add, UInt32.toNat_one]
    omega
  refine ⟨_, hread, ⟨fun r' hr' => h.width r' (List.mem_cons_of_mem r hr'), hrows, hbs', ?_⟩, rfl⟩
  simp only [hnext]
  omega

/-- A decoder about to read `rows` reads them in order and then returns
    `false`. -/
theorem readAll : ∀ {rows : List (List UInt64)} {d : DeltaforDecoder}, DecoderAt ty d rows →
    ∀ row, d.readAll ty (rows.length + 1) row = some rows
  | [], _, h, row => by
      rw [DeltaforDecoder.readAll, h.read_nil row, Option.bind_some]
      rfl
  | r :: rows, _, h, row => by
      obtain ⟨d', hread, hat, -⟩ := h.read_cons row
      rw [List.length_cons, DeltaforDecoder.readAll, hread, Option.bind_some, if_pos rfl,
        readAll hat r]
      rfl

end DecoderAt

/-- The decoder `deltafor_decoder(initial, get_row_count(), copy())` of an
    encoder that took `rows` is about to read them. -/
theorem decoderAt_init {ty : IntType} {delta : DeltaStep} {v0 : UInt64}
    {rows : List (List UInt64)} {bs : List UInt8} (hwidth : ∀ r ∈ rows, r.length = rowWidth)
    (hcount : rows.length < 2 ^ 32) (henc : delta.Encodes ty v0 rows.flatten)
    (hbs : encodeRows ty delta v0 rows = some bs) :
    DecoderAt ty (DeltaforDecoder.init v0 (0 + UInt32.ofNat rows.length) ([] ++ bs) delta) rows := by
  have hcnt : (UInt32.ofNat rows.length).toNat = rows.length := by
    rw [UInt32.toNat_ofNat', Nat.mod_eq_of_lt hcount]
  refine ⟨hwidth, henc, by rw [List.nil_append]; exact hbs, ?_⟩
  simp only [DeltaforDecoder.init, UInt32.toNat_zero, Nat.zero_add, UInt32.zero_add, hcnt]

/-! ## The round trip -/

/-- An encoder built with `v0` that is given rows of sixteen values, fewer
    than `2 ^ 32` of them, that its delta step `Encodes` takes them all, and
    a decoder built from its initial value, row count and bytes returns
    `true` and fills the buffer with each row in order, then returns
    `false`.  For `delta_xor` that is every sequence of rows. -/
theorem deltafor_round_trip (ty : IntType) (delta : DeltaStep) (v0 : UInt64)
    (rows : List (List UInt64)) (hwidth : ∀ r ∈ rows, r.length = rowWidth)
    (hcount : rows.length < 2 ^ 32) (henc : delta.Encodes ty v0 rows.flatten) :
    ∃ e, (DeltaforEncoder.init v0 delta).addAll ty rows = some e ∧
      ∀ buf, (DeltaforDecoder.init v0 e.getRowCount e.copy delta).readAll ty (rows.length + 1) buf =
        some rows := by
  obtain ⟨bs, hbs⟩ := exists_encodeRows ty delta rows v0 henc
  have hadd := addAll_eq ty rows (DeltaforEncoder.init v0 delta)
  rw [show (DeltaforEncoder.init v0 delta).delta = delta from rfl,
    show (DeltaforEncoder.init v0 delta).last = v0 from rfl, hbs, Option.map_some] at hadd
  exact ⟨_, hadd, (decoderAt_init hwidth hcount henc hbs).readAll⟩

/-- An `int64_t` `delta_delta` row of sixteen values, starting above
    `INT64_MIN` and in order. -/
theorem deltafor_round_trip_int64_sample :
    (∀ r ∈ [(List.range 16).map fun i => UInt64.ofNat (6 + i)], r.length = rowWidth) ∧
      [(List.range 16).map fun i => UInt64.ofNat (6 + i)].length < 2 ^ 32 ∧
      (DeltaStep.delta 1).Encodes .int64 5 [(List.range 16).map fun i => UInt64.ofNat (6 + i)].flatten ∧
      ∃ e, (DeltaforEncoder.init 5 (.delta 1)).addAll .int64
          [(List.range 16).map fun i => UInt64.ofNat (6 + i)] = some e ∧
        ∀ buf, (DeltaforDecoder.init 5 e.getRowCount e.copy (.delta 1)).readAll .int64 2 buf =
          some [(List.range 16).map fun i => UInt64.ofNat (6 + i)] :=
  ⟨by decide, by decide, by decide,
    deltafor_round_trip .int64 (.delta 1) 5 _ (by decide) (by decide) (by decide)⟩

/-- `INT64_MIN` followed by zeros is non-decreasing with every difference at
    least `0`, yet `row[i] - p` overflows on the first value (the wrapped
    delta is negative, so the `vassert` after it fires), and `add` fails. -/
theorem int64_delta_delta_jump_not_encoded :
    List.IsChain (fun p r => IntType.int64.toInt p ≤ IntType.int64.toInt r ∧
        IntType.int64.toInt 0 ≤ IntType.int64.toInt r - IntType.int64.toInt p)
        (0x8000000000000000 :: List.replicate 16 0) ∧
      (DeltaforEncoder.init 0x8000000000000000 (.delta 0)).addAll .int64 [List.replicate 16 0] = none := by
  decide

end DeltaFor
