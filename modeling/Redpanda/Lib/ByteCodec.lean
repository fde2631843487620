import Mathlib

/-! # Decoders over byte sequences and their round trips

    A decoder reads a value off the front of a byte sequence and leaves the
    rest, or fails; it is `StateT (List UInt8) Option`.  `Decodes d bs a`
    says that `d` reads exactly the bytes `bs`, as `a`, whatever follows
    them.  The rules below build that fact for a composite format from its
    parts: a sequence of reads (`decodes_bind`), a fixed number of bytes
    (`decodes_take`), a big-endian or little-endian number
    (`decodes_readBE`, `decodes_readLE`) and a counted repetition
    (`decodes_many`). -/

namespace ByteCodec

variable {α β : Type}

abbrev Decoder (α : Type) := StateT (List UInt8) Option α

/-- `d` reads `bs` as `a` and leaves every byte after them. -/
def Decodes (d : Decoder α) (bs : List UInt8) (a : α) : Prop :=
  ∀ rest, d.run (bs ++ rest) = some (a, rest)

/-- Reads `n` bytes; fails when fewer are left. -/
def take (n : Nat) : Decoder (List UInt8) := fun bs =>
  if n ≤ bs.length then some (bs.take n, bs.drop n) else none

/-- The `k` bytes of `n` modulo `256 ^ k`, most significant first. -/
def beBytes : Nat → Nat → List UInt8
  | 0, _ => []
  | k + 1, n => beBytes k (n / 256) ++ [UInt8.ofNat (n % 256)]

/-- The `k` bytes of `n` modulo `256 ^ k`, least significant first. -/
def leBytes : Nat → Nat → List UInt8
  | 0, _ => []
  | k + 1, n => UInt8.ofNat (n % 256) :: leBytes k (n / 256)

/-- The number with these big-endian bytes. -/
def ofBE (bs : List UInt8) : Nat := bs.foldl (fun acc b => acc * 256 + b.toNat) 0

/-- The number with these little-endian bytes. -/
def ofLE (bs : List UInt8) : Nat := bs.foldr (fun b acc => b.toNat + 256 * acc) 0

def readBE (k : Nat) : Decoder Nat := ofBE <$> take k

def readLE (k : Nat) : Decoder Nat := ofLE <$> take k

/-- The number of bytes left, read without consuming any. -/
def bytesLeft : Decoder Nat := fun bs => some (bs.length, bs)

/-- The next `n` bytes, read without consuming them. -/
def peek (n : Nat) : Decoder (List UInt8) := fun bs =>
  if n ≤ bs.length then some (bs.take n, bs) else none

/-- Drops `n` bytes; fails when fewer are left. -/
def skip (n : Nat) : Decoder Unit := fun bs =>
  if n ≤ bs.length then some ((), bs.drop n) else none

/-- `n` values read one after the other. -/
def many (d : Decoder α) : Nat → Decoder (List α)
  | 0 => pure []
  | n + 1 => do
      let a ← d
      let as ← many d n
      pure (a :: as)

/-! ## Numbers as bytes -/

@[simp] theorem length_beBytes (k n : Nat) : (beBytes k n).length = k := by
  induction k generalizing n with
  | zero => rfl
  | succ k ih => simp [beBytes, ih]

@[simp] theorem length_leBytes (k n : Nat) : (leBytes k n).length = k := by
  induction k generalizing n with
  | zero => rfl
  | succ k ih => simp [leBytes, ih]

theorem toNat_ofNat_mod_256 (n : Nat) : (UInt8.ofNat (n % 256)).toNat = n % 256 := by
  simp [UInt8.toNat_ofNat', Nat.mod_mod_of_dvd]

theorem ofBE_append_single (bs : List UInt8) (b : UInt8) :
    ofBE (bs ++ [b]) = ofBE bs * 256 + b.toNat := by
  simp [ofBE, List.foldl_append]

/-- Reading the big-endian bytes gives the number back modulo `256 ^ k`. -/
theorem ofBE_beBytes (k n : Nat) : ofBE (beBytes k n) = n % 256 ^ k := by
  induction k generalizing n with
  | zero => simp [beBytes, ofBE, Nat.mod_one]
  | succ k ih =>
      rw [beBytes, ofBE_append_single, ih, toNat_ofNat_mod_256, Nat.pow_succ', Nat.mod_mul]
      omega

/-- Reading the little-endian bytes gives the number back modulo `256 ^ k`. -/
theorem ofLE_leBytes (k n : Nat) : ofLE (leBytes k n) = n % 256 ^ k := by
  induction k generalizing n with
  | zero => simp [leBytes, ofLE, Nat.mod_one]
  | succ k ih =>
      have hstep : ofLE (leBytes (k + 1) n) = n % 256 + 256 * ofLE (leBytes k (n / 256)) := by
        simp [leBytes, ofLE]
      rw [hstep, ih, Nat.pow_succ', Nat.mod_mul]

/-! ## The rules -/

theorem decodes_pure (a : α) : Decodes (pure a) [] a := by
  intro rest
  rfl

theorem decodes_bind {d : Decoder α} {f : α → Decoder β} {bs bs' : List UInt8} {a : α} {b : β}
    (hd : Decodes d bs a) (hf : Decodes (f a) bs' b) : Decodes (d >>= f) (bs ++ bs') b := by
  intro rest
  rw [StateT.run_bind, List.append_assoc, hd]
  exact hf rest

/-- A read whose continuation reads nothing more. -/
theorem decodes_bind_last {d : Decoder α} {f : α → Decoder β} {bs : List UInt8} {a : α} {b : β}
    (hd : Decodes d bs a) (hf : Decodes (f a) [] b) : Decodes (d >>= f) bs b := by
  have hread := decodes_bind hd hf
  rwa [List.append_nil] at hread

/-- A read that ran to `a` hands the rest of the input to the next one. -/
theorem run_bind_of_run {d : Decoder α} {f : α → Decoder β} {s s' : List UInt8} {a : α}
    (h : d.run s = some (a, s')) : (d >>= f).run s = (f a).run s' := by
  rw [StateT.run_bind, h]
  rfl

/-- A sequence of reads that ran went through its first read. -/
theorem run_bind_eq_some {d : Decoder α} {f : α → Decoder β} {s s'' : List UInt8} {b : β}
    (h : (d >>= f).run s = some (b, s'')) : ∃ a s', d.run s = some (a, s') ∧ (f a).run s' = some (b, s'') := by
  rw [StateT.run_bind, Option.bind_eq_bind, Option.bind_eq_some_iff] at h
  obtain ⟨⟨a, s'⟩, hd, hf⟩ := h
  exact ⟨a, s', hd, hf⟩

theorem decodes_map {d : Decoder α} {bs : List UInt8} {a : α} (hd : Decodes d bs a) (f : α → β) :
    Decodes (f <$> d) bs (f a) := by
  intro rest
  rw [StateT.run_map, hd]
  rfl

theorem take_run (n : Nat) (bs : List UInt8) :
    (take n).run bs = if n ≤ bs.length then some (bs.take n, bs.drop n) else none := rfl

/-- `take` ran on an input at least as long as the count. -/
theorem take_run_eq_some {n : Nat} {s s' bs : List UInt8} (h : (take n).run s = some (bs, s')) :
    bs = s.take n ∧ s' = s.drop n := by
  rw [take_run] at h
  split at h
  · cases h
    exact ⟨rfl, rfl⟩
  · cases h

theorem decodes_take {bs : List UInt8} {n : Nat} (h : bs.length = n) : Decodes (take n) bs bs := by
  intro rest
  rw [take_run, if_pos (by simp [h]), ← h, List.take_left, List.drop_left]

/-- `take` fails on an input shorter than the count. -/
theorem take_run_of_lt {bs : List UInt8} {n : Nat} (h : bs.length < n) : (take n).run bs = none := by
  rw [take_run, if_neg (by omega)]

theorem decodes_readBE {k n : Nat} (h : n < 256 ^ k) : Decodes (readBE k) (beBytes k n) n := by
  have hread := decodes_map (decodes_take (length_beBytes k n)) ofBE
  rwa [ofBE_beBytes, Nat.mod_eq_of_lt h] at hread

theorem decodes_readLE {k n : Nat} (h : n < 256 ^ k) : Decodes (readLE k) (leBytes k n) n := by
  have hread := decodes_map (decodes_take (length_leBytes k n)) ofLE
  rwa [ofLE_leBytes, Nat.mod_eq_of_lt h] at hread

/-- Reading as many values as were written, each by a decoder that reads
    its own encoding, reads them all. -/
theorem decodes_many {d : Decoder α} {enc : α → List UInt8} :
    ∀ {as : List α}, (∀ a ∈ as, Decodes d (enc a) a) →
      Decodes (many d as.length) (as.flatMap enc) as
  | [], _ => decodes_pure []
  | a :: as, h => by
      have hhead := h a (List.mem_cons_self ..)
      have htail := decodes_many fun a' ha' => h a' (List.mem_cons_of_mem a ha')
      rw [List.flatMap_cons, ← List.append_nil (enc a ++ as.flatMap enc), List.append_assoc]
      exact decodes_bind hhead (decodes_bind htail (decodes_pure _))

/-! ## Reads above a limit

    A reader that may not go below `lim` bytes left reads a value off any
    input that leaves at least `lim` bytes after it. -/

/-- `d` reads `bs` as `a` and leaves every byte after them, whenever at
    least `lim` bytes follow. -/
def DecodesAbove (lim : Nat) (d : Decoder α) (bs : List UInt8) (a : α) : Prop :=
  ∀ rest, lim ≤ rest.length → d.run (bs ++ rest) = some (a, rest)

section Above

variable {lim : Nat}

theorem Decodes.above {d : Decoder α} {bs : List UInt8} {a : α} (h : Decodes d bs a) (lim : Nat) :
    DecodesAbove lim d bs a :=
  fun rest _ => h rest

theorem decodesAbove_pure (a : α) : DecodesAbove lim (pure a) [] a := fun _ _ => rfl

theorem decodesAbove_bind {d : Decoder α} {f : α → Decoder β} {bs bs' : List UInt8} {a : α}
    {b : β} (hd : DecodesAbove lim d bs a) (hf : DecodesAbove lim (f a) bs' b) :
    DecodesAbove lim (d >>= f) (bs ++ bs') b := by
  intro rest hrest
  have hlong : lim ≤ (bs' ++ rest).length := by
    rw [List.length_append]
    omega
  rw [StateT.run_bind, List.append_assoc, hd _ hlong]
  exact hf rest hrest

theorem decodesAbove_bind_last {d : Decoder α} {f : α → Decoder β} {bs : List UInt8} {a : α}
    {b : β} (hd : DecodesAbove lim d bs a) (hf : DecodesAbove lim (f a) [] b) :
    DecodesAbove lim (d >>= f) bs b := by
  have hread := decodesAbove_bind hd hf
  rwa [List.append_nil] at hread

theorem decodesAbove_map {d : Decoder α} {bs : List UInt8} {a : α} (hd : DecodesAbove lim d bs a)
    (f : α → β) : DecodesAbove lim (f <$> d) bs (f a) := by
  intro rest hrest
  rw [StateT.run_map, hd rest hrest]
  rfl

/-- Running a read followed by more reads, on an input it decodes. -/
theorem DecodesAbove.bind_run {d : Decoder α} {bs : List UInt8} {a : α} (hd : DecodesAbove lim d bs a)
    (f : α → Decoder β) {rest : List UInt8} (hrest : lim ≤ rest.length) :
    (d >>= f).run (bs ++ rest) = (f a).run rest := by
  rw [StateT.run_bind, hd rest hrest]
  rfl

/-- A decoder that looks at the number of bytes left sees them all. -/
theorem bytesLeft_bind_run {f : Nat → Decoder α} (bs : List UInt8) :
    (bytesLeft >>= f).run bs = (f bs.length).run bs := rfl

theorem decodesAbove_skip {bs : List UInt8} {n : Nat} (h : bs.length = n) :
    DecodesAbove lim (skip n) bs () := by
  intro rest _
  show (if n ≤ (bs ++ rest).length then some ((), (bs ++ rest).drop n) else none) = _
  rw [if_pos (by simp [h]), ← h, List.drop_left]

theorem peek_run {n : Nat} {bs : List UInt8} (h : n ≤ bs.length) :
    (peek n).run bs = some (bs.take n, bs) := by
  show (if n ≤ bs.length then _ else _) = _
  rw [if_pos h]

/-- A writer that succeeds on every value succeeds on the list. -/
theorem exists_mapM_eq_some {w : α → Option (List UInt8)} :
    ∀ {as : List α}, (∀ a ∈ as, ∃ bs, w a = some bs) → ∃ parts, as.mapM w = some parts
  | [], _ => ⟨[], rfl⟩
  | a :: as, h => by
      obtain ⟨bs, hbs⟩ := h a (List.mem_cons_self ..)
      obtain ⟨parts, hparts⟩ := exists_mapM_eq_some fun a' ha' => h a' (List.mem_cons_of_mem _ ha')
      exact ⟨bs :: parts, by simp [List.mapM_cons, hbs, hparts]⟩

/-- A counted repetition whose encodings were written one per value, as a
    `mapM` of the writer gives them. -/
theorem decodesAbove_many {d : Decoder α} {w : α → Option (List UInt8)} :
    ∀ {as : List α} {parts : List (List UInt8)},
      (∀ a ∈ as, ∀ bs, w a = some bs → DecodesAbove lim d bs a) → as.mapM w = some parts →
      DecodesAbove lim (many d as.length) parts.flatten as
  | [], parts, _, h => by
      rw [List.mapM_nil, Option.pure_def, Option.some.injEq] at h
      subst h
      exact decodesAbove_pure []
  | a :: as, parts, hd, h => by
      obtain ⟨bs, hbs, parts', hparts', rfl⟩ : ∃ bs, w a = some bs ∧
          ∃ parts', as.mapM w = some parts' ∧ parts = bs :: parts' := by
        simp only [List.mapM_cons, Option.pure_def, Option.bind_eq_bind, Option.bind_eq_some_iff,
          Option.some.injEq] at h
        obtain ⟨bs, hbs, parts', hparts', rfl⟩ := h
        exact ⟨bs, hbs, parts', hparts', rfl⟩
      have htail := decodesAbove_many (fun a' ha' => hd a' (List.mem_cons_of_mem a ha')) hparts'
      rw [List.flatten_cons, ← List.append_nil (bs ++ parts'.flatten), List.append_assoc]
      exact decodesAbove_bind (hd a (List.mem_cons_self ..) bs hbs)
        (decodesAbove_bind htail (decodesAbove_pure _))

end Above

/-! ## Reads that stay above a limit

    A reader checked against a limit `lim` of bytes left reads forward only
    and, when it succeeds, stops at or above the limit. -/

/-- Started with at least `lim` bytes left, a run of `d` that succeeds reads
    forward only and leaves at least `lim` bytes. -/
def StaysAbove (lim : Nat) (d : Decoder α) : Prop :=
  ∀ s a s', lim ≤ s.length → d.run s = some (a, s') → lim ≤ s'.length ∧ s'.length ≤ s.length

section Stays

variable {lim : Nat}

theorem staysAbove_pure (a : α) : StaysAbove lim (pure a : Decoder α) := by
  intro s a' s' hlim hrun
  cases hrun
  exact ⟨hlim, le_rfl⟩

theorem staysAbove_failure : StaysAbove lim (failure : Decoder α) := by
  intro s a s' _ hrun
  cases hrun

theorem staysAbove_bytesLeft : StaysAbove lim bytesLeft := by
  intro s n s' hlim hrun
  cases hrun
  exact ⟨hlim, le_rfl⟩

theorem staysAbove_peek (n : Nat) : StaysAbove lim (peek n) := by
  intro s bs s' hlim hrun
  simp only [peek, StateT.run] at hrun
  split at hrun
  · cases hrun
    exact ⟨hlim, le_rfl⟩
  · cases hrun

theorem StaysAbove.bind {d : Decoder α} {f : α → Decoder β} (hd : StaysAbove lim d)
    (hf : ∀ a, StaysAbove lim (f a)) : StaysAbove lim (d >>= f) := by
  intro s b s'' hlim hrun
  obtain ⟨a, s', hd', hf'⟩ := run_bind_eq_some hrun
  obtain ⟨hlim', hle'⟩ := hd s a s' hlim hd'
  obtain ⟨hlim'', hle''⟩ := hf a s' b s'' hlim' hf'
  exact ⟨hlim'', le_trans hle'' hle'⟩

theorem StaysAbove.map {d : Decoder α} (hd : StaysAbove lim d) (f : α → β) :
    StaysAbove lim (f <$> d) := by
  rw [map_eq_pure_bind]
  exact hd.bind fun a => staysAbove_pure (f a)

theorem StaysAbove.ite {c : Prop} [Decidable c] {d₁ d₂ : Decoder α} (h₁ : StaysAbove lim d₁)
    (h₂ : StaysAbove lim d₂) : StaysAbove lim (if c then d₁ else d₂) := by
  split
  · exact h₁
  · exact h₂

/-- A counted repetition of a reader that stays above the limit does too. -/
theorem StaysAbove.many {d : Decoder α} (hd : StaysAbove lim d) :
    ∀ n, StaysAbove lim (ByteCodec.many d n)
  | 0 => staysAbove_pure []
  | n + 1 => hd.bind fun a => (StaysAbove.many hd n).bind fun as => staysAbove_pure (a :: as)

end Stays

end ByteCodec
