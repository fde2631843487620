import Redpanda.Serde.RoundTrip

/-! # Serde reads and the end of their envelope

    `read_nested` checks every scalar against the caller's limit
    `bytes_left_limit`, and an envelope hands that same limit down to its
    fields.  The envelope's own end is checked only before each next field,
    and after its fields the reader skips to that end if it has not reached
    it.

    * `staysAbove_read` — every read that succeeds reads forward only and
      stops at or above the caller's limit, by recursion on the type;
    * `read_envelope_bounds` — an envelope read that succeeds has passed its
      header and stops at or past its declared end;
    * `envelope_field_overruns_into_sibling` — but not always at it: a vector
      whose count overruns the last field of an envelope reads the bytes of
      the field after the envelope, which then keeps its default. -/

namespace Serde

open ByteCodec

section Bounds

variable (crc : List UInt8 → UInt32) {lim : Nat}

/-- The scalar check leaves `k` bytes above the limit to read. -/
theorem staysAbove_readScalar (k : Nat) : StaysAbove lim (readScalar k lim) := by
  intro s a s' hlim hrun
  rw [readScalar, bytesLeft_bind_run] at hrun
  split at hrun
  · cases hrun
  · rename_i hcheck
    rw [readLE, StateT.run_map, Option.map_eq_map, Option.map_eq_some_iff] at hrun
    obtain ⟨⟨bs, s''⟩, htake, heq⟩ := hrun
    cases heq
    obtain ⟨-, rfl⟩ := take_run_eq_some htake
    rw [List.length_drop]
    omega

theorem staysAbove_readChecksum (checksum : Bool) : StaysAbove lim (readChecksum checksum lim) := by
  rw [readChecksum]
  exact StaysAbove.ite (staysAbove_readScalar 4) (staysAbove_pure 0)

/-- The crc check only looks at the bytes. -/
theorem staysAbove_checkCrc (checksum : Bool) (h : Header) :
    StaysAbove lim (checkCrc crc checksum h) := by
  rw [checkCrc]
  exact StaysAbove.ite
    (staysAbove_bytesLeft.bind fun left => (staysAbove_peek _).bind fun body =>
      StaysAbove.ite staysAbove_failure (staysAbove_pure ()))
    (staysAbove_pure ())

/-- `read_header` reads forward, and the end it declares lies at or above
    the caller's limit and at or below what is left after the header. -/
theorem readHeader_bounds {version compatVersion : UInt8} {checksum : Bool}
    {s s' : List UInt8} {h : Header} (hlim : lim ≤ s.length)
    (hrun : (readHeader version compatVersion checksum lim).run s = some (h, s')) :
    lim ≤ h.bytesLeftLimit ∧ h.bytesLeftLimit ≤ s'.length ∧ s'.length ≤ s.length := by
  obtain ⟨v, s1, hv, hrest⟩ := run_bind_eq_some hrun
  obtain ⟨c, s2, hc, hrest⟩ := run_bind_eq_some hrest
  obtain ⟨size, s3, hsize, hrest⟩ := run_bind_eq_some hrest
  obtain ⟨sum, s4, hsum, hrest⟩ := run_bind_eq_some hrest
  have h1 := staysAbove_readScalar 1 s v s1 hlim hv
  have h2 := staysAbove_readScalar 1 s1 c s2 h1.1 hc
  have h3 := staysAbove_readScalar 4 s2 size s3 h2.1 hsize
  have h4 := staysAbove_readChecksum checksum s3 sum s4 h3.1 hsum
  rw [bytesLeft_bind_run] at hrest
  -- each check that fails is a throw; the two size checks put the declared
  -- end between the limit and what is left
  split at hrest
  · cases hrest
  split at hrest
  · cases hrest
  split at hrest
  · cases hrest
  split at hrest
  · cases hrest
  rename_i hshort hbelow _ _
  cases hrest
  exact ⟨Nat.le_sub_of_add_le (by omega), Nat.sub_le _ _, by omega⟩

/-- The skip at the end of an envelope stops at its end, or stays where the
    fields left the parser. -/
theorem skipToEnd_run_eq_some {limit : Nat} {s s' : List UInt8} {u : Unit}
    (hrun : (skipToEnd limit).run s = some (u, s')) : s'.length = min s.length limit := by
  rw [skipToEnd, bytesLeft_bind_run] at hrun
  split at hrun
  · rename_i hpast
    simp only [skip, StateT.run] at hrun
    rw [if_pos (by omega)] at hrun
    cases hrun
    rw [List.length_drop]
    omega
  · cases hrun
    omega

theorem staysAbove_skipToEnd {limit : Nat} (hlimit : lim ≤ limit) :
    StaysAbove lim (skipToEnd limit) := by
  intro s u s' hlim hrun
  have := skipToEnd_run_eq_some hrun
  omega

mutual

/-- **A READ STAYS ABOVE THE CALLER'S LIMIT**: by recursion on the type;
    an envelope's end lies above the limit (`readHeader_bounds`), so its
    final skip does too. -/
theorem staysAbove_read (lim : Nat) : ∀ t : SerdeType, StaysAbove lim (read crc lim t)
  | .int w signed => by
      rw [read]
      exact (staysAbove_readScalar w.bytes).map _
  | .bool => by
      rw [read]
      exact (staysAbove_readScalar 1).map _
  | .float => by
      rw [read]
      exact (staysAbove_readScalar 4).map _
  | .double => by
      rw [read]
      exact (staysAbove_readScalar 8).map _
  | .enum w signed => by
      rw [read]
      exact (staysAbove_readScalar 4).bind fun _ =>
        StaysAbove.ite staysAbove_failure (staysAbove_pure _)
  | .optional t => by
      rw [read]
      exact (staysAbove_readScalar 1).bind fun _ =>
        StaysAbove.ite ((staysAbove_read lim t).map _) (staysAbove_pure _)
  | .vector t => by
      rw [read]
      exact (staysAbove_readScalar 4).bind fun size => ((staysAbove_read lim t).many size).map _
  | .envelope version compatVersion checksum fields => by
      intro s v s' hlim hrun
      rw [read] at hrun
      obtain ⟨h, s1, hh, hrest⟩ := run_bind_eq_some hrun
      obtain ⟨hend, hend₁, hs1⟩ := readHeader_bounds hlim hh
      have hbody : StaysAbove lim (do
          checkCrc crc checksum h
          let xs ← readFields crc lim h.bytesLeftLimit fields
          skipToEnd h.bytesLeftLimit
          pure (Value.envelope xs)) :=
        (staysAbove_checkCrc crc checksum h).bind fun _ =>
          (staysAbove_readFields lim h.bytesLeftLimit fields).bind fun _ =>
            (staysAbove_skipToEnd hend).bind fun _ => staysAbove_pure _
      obtain ⟨hlim', hle⟩ := hbody s1 v s' (by omega) hrest
      exact ⟨hlim', by omega⟩

/-- The field loop reads each field with the caller's limit. -/
theorem staysAbove_readFields (lim limit : Nat) :
    ∀ fields : List (SerdeType × Value), StaysAbove lim (readFields crc lim limit fields)
  | [] => by
      rw [readFields]
      exact staysAbove_pure []
  | (t, default) :: fields => by
      rw [readFields]
      exact staysAbove_bytesLeft.bind fun _ =>
        StaysAbove.ite (staysAbove_pure _) (StaysAbove.ite staysAbove_failure
          ((staysAbove_read lim t).bind fun _ =>
            (staysAbove_readFields lim limit fields).bind fun _ => staysAbove_pure _))

end

/-- **AN ENVELOPE READ ENDS AT OR PAST ITS DECLARED END.**  Started above
    the caller's limit, a read of an envelope that succeeds has read a
    header, and leaves at most the bytes that lie past the end the header
    declares, and at least the caller's limit. -/
theorem read_envelope_bounds {version compatVersion : UInt8} {checksum : Bool}
    {fields : List (SerdeType × Value)} {s s' : List UInt8} {v : Value} (hlim : lim ≤ s.length)
    (hrun : (read crc lim (.envelope version compatVersion checksum fields)).run s = some (v, s')) :
    ∃ h s1, (readHeader version compatVersion checksum lim).run s = some (h, s1) ∧
      lim ≤ s'.length ∧ s'.length ≤ h.bytesLeftLimit := by
  rw [read] at hrun
  obtain ⟨h, s1, hh, hrest⟩ := run_bind_eq_some hrun
  obtain ⟨hend, hs1, -⟩ := readHeader_bounds hlim hh
  obtain ⟨_, s2, hcrc, hrest⟩ := run_bind_eq_some hrest
  obtain ⟨hl2, -⟩ := (staysAbove_checkCrc crc checksum h : StaysAbove lim _) s1 () s2 (by omega) hcrc
  obtain ⟨xs, s3, hf, hrest⟩ := run_bind_eq_some hrest
  obtain ⟨hl3, -⟩ := staysAbove_readFields crc lim h.bytesLeftLimit fields s2 xs s3 hl2 hf
  obtain ⟨_, s4, hskip, hrest⟩ := run_bind_eq_some hrest
  cases hrest
  -- whatever the fields read, the skip leaves no more than the declared end
  have hs4 := skipToEnd_run_eq_some hskip
  exact ⟨h, s1, hh, by omega, by omega⟩

end Bounds

/-- A plain envelope whose one field is a vector of `int8_t`. -/
def innerEnvelope : SerdeType := .envelope 1 1 false [(.vector (.int .one true), .vector [])]

/-- An envelope of that envelope followed by an `int8_t` defaulting to 0. -/
def outerEnvelope : SerdeType :=
  .envelope 1 1 false [(innerEnvelope, .envelope [.vector []]), (.int .one true, .int 0)]

/-- **A FIELD OVERRUNS ITS ENVELOPE INTO THE NEXT FIELD.**  The inner
    envelope declares 5 bytes: a count and one element.  The count says 2,
    and the vector is read with the caller's limit, not the inner
    envelope's end, so its second element is the byte of the `int8_t` after
    the envelope.  The inner read ends one byte past its declared end, no
    spill-over check runs after its last field, the outer loop finds its own
    end reached and gives the `int8_t` its default 0, and `from_iobuf`
    succeeds. -/
theorem envelope_field_overruns_into_sibling (crc : List UInt8 → UInt32) :
    (readHeader 1 1 false 0).run [1, 1, 5, 0, 0, 0, 2, 0, 0, 0, 7, 9] =
        some (⟨1, 1, 1, 0⟩, [2, 0, 0, 0, 7, 9]) ∧
      (read crc 0 innerEnvelope).run [1, 1, 5, 0, 0, 0, 2, 0, 0, 0, 7, 9] =
        some (.envelope [.vector [.int 7, .int 9]], []) ∧
      fromIobuf crc outerEnvelope [1, 1, 12, 0, 0, 0, 1, 1, 5, 0, 0, 0, 2, 0, 0, 0, 7, 9] =
        some (.envelope [.envelope [.vector [.int 7, .int 9]], .int 0]) :=
  ⟨rfl, rfl, rfl⟩

end Serde
