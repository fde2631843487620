import Mathlib
import Redpanda.Lib.SharedMemory

/-! # `iobuf` — fragmented byte buffers over shared memory

    Model of `bytes/iobuf.{h,cc}`, `bytes/details/io_fragment.h` and
    `bytes/details/io_allocation_size.h`.  A `ss::temporary_buffer` is a view
    into an allocation that other buffers may share; an `io_fragment` is such
    a view with a count of used bytes, and the bytes past the count are spare
    capacity that `append` writes into.  An `iobuf` is a list of fragments and
    its `_size`.  The memory is explicit (`Heap`), so that an operation on one
    iobuf can be seen to change the bytes another one reads.

    The content of an iobuf is the concatenation of the used bytes of its
    fragments.  `share` and the trims act on the content as the list
    operations do and leave memory alone (`share_eq`, `content_trimBack`,
    `content_trimFront`); an `append` that fits writes into the spare
    capacity of the last fragment, which appends to the receiver
    (`content_append_of_fits`) and changes no iobuf whose views stay apart
    from that capacity (`content_append_of_apart`).  `trim_back` hands used
    bytes back as spare capacity without checking who else reads them, so an
    `append` after it overwrites the content of an iobuf that shares them
    (`content_share_trimBack_append`). -/

namespace Bytes

open SharedMemory

/-- The bytes of every allocation. -/
abbrev Heap := SharedMemory.Memory UInt8

/-- `ss::temporary_buffer<char>`: a view of `size` bytes from `start` into an
    allocation that other buffers may share. -/
structure TemporaryBuffer where
  alloc : Nat
  start : Nat
  size : Nat
deriving DecidableEq, Repr

/-- `temporary_buffer::share(pos, len)`: a view of the same allocation. -/
def TemporaryBuffer.share (b : TemporaryBuffer) (pos len : Nat) : TemporaryBuffer :=
  ⟨b.alloc, b.start + pos, len⟩

/-! ## `io_allocation_size` -/

def maxChunkSize : Nat := 128 * 1024

def defaultChunkSize : Nat := 512

/-- `alloc_table`. -/
def allocTable : List Nat :=
  [512, 768, 1280, 1792, 2560, 3584, 6144, 8192, 12288, 16384, 32768, 65536, 131072]

/-- `next_allocation_size`: the first table entry above the data size,
    capped at the last. -/
def nextAllocationSize (dataSize : Nat) : Nat :=
  if dataSize > 131072 then 131072
  else (allocTable.find? (fun x => decide (dataSize < x))).getD 131072

/-! ## `io_fragment` -/

/-- `details::io_fragment`: a buffer and `_used_bytes`. -/
structure IoFragment where
  buf : TemporaryBuffer
  usedBytes : Nat
deriving DecidableEq, Repr

namespace IoFragment

/-- `io_fragment(temporary_buffer)`: the whole buffer is used. -/
def ofBuffer (buf : TemporaryBuffer) : IoFragment := ⟨buf, buf.size⟩

def availableBytes (f : IoFragment) : Nat := f.buf.size - f.usedBytes

def capacity (f : IoFragment) : Nat := f.buf.size

/-- The used bytes. -/
def content (mem : Heap) (f : IoFragment) : List UInt8 :=
  read mem f.buf.alloc f.buf.start f.usedBytes

/-- `append(src, len)`: copy what fits into the spare capacity; how much. -/
def append (mem : Heap) (f : IoFragment) (src : List UInt8) : Nat × Heap × IoFragment :=
  let sz := min src.length f.availableBytes
  (sz, write mem f.buf.alloc (f.buf.start + f.usedBytes) (src.take sz),
    { f with usedBytes := f.usedBytes + sz })

/-- `share(pos, len)`. -/
def share (f : IoFragment) (pos len : Nat) : TemporaryBuffer := f.buf.share pos len

/-- `trim()`: drop the spare capacity.  At most half used, the used bytes
    move to a fresh buffer of their own; otherwise the view shrinks. -/
def trim (mem : Heap) (f : IoFragment) : Heap × IoFragment :=
  if f.usedBytes = f.buf.size then (mem, f)
  else if f.usedBytes ≤ f.buf.size / 2 then
    let fresh := allocate mem (f.content mem)
    (fresh.2, ⟨⟨fresh.1, 0, f.usedBytes⟩, f.usedBytes⟩)
  else (mem, ⟨{ f.buf with size := f.usedBytes }, f.usedBytes⟩)

/-- `trim(len)`: only `_used_bytes` goes down; the buffer stays as it is. -/
def trimTo (f : IoFragment) (len : Nat) : IoFragment :=
  { f with usedBytes := min len f.usedBytes }

/-- `trim_front(pos)`, for `pos` at most the used bytes. -/
def trimFront (f : IoFragment) (pos : Nat) : IoFragment :=
  ⟨⟨f.buf.alloc, f.buf.start + pos, f.buf.size - pos⟩, f.usedBytes - pos⟩

/-- The view lies inside its allocation and the used bytes inside the view. -/
def Valid (mem : Heap) (f : IoFragment) : Prop :=
  f.usedBytes ≤ f.buf.size ∧ f.buf.start + f.buf.size ≤ (cells mem f.buf.alloc).length

instance (mem : Heap) (f : IoFragment) : Decidable (f.Valid mem) :=
  inferInstanceAs (Decidable (_ ∧ _))

theorem length_content {mem : Heap} {f : IoFragment} (hv : f.Valid mem) :
    (f.content mem).length = f.usedBytes :=
  length_read (by have := hv.1; have := hv.2; omega)

theorem content_trimTo (mem : Heap) (f : IoFragment) (len : Nat) :
    (f.trimTo len).content mem = (f.content mem).take len := by
  rw [content, content, take_read]
  rfl

theorem content_trimFront (mem : Heap) (f : IoFragment) (pos : Nat) :
    (f.trimFront pos).content mem = (f.content mem).drop pos := by
  rw [content, content, drop_read]
  rfl

end IoFragment

/-! ## `iobuf` -/

/-- `iobuf`: the fragments and `_size`. -/
structure Iobuf where
  frags : List IoFragment
  size : Nat
deriving DecidableEq, Repr

namespace Iobuf

def empty : Iobuf := ⟨[], 0⟩

/-- The bytes of the iobuf: the used bytes of its fragments in order. -/
def content (mem : Heap) (b : Iobuf) : List UInt8 := b.frags.flatMap (·.content mem)

/-- `available_bytes()`: the spare capacity of the last fragment. -/
def availableBytes (b : Iobuf) : Nat :=
  match b.frags.getLast? with
  | none => 0
  | some f => f.availableBytes

/-- `last_allocation_size()`. -/
def lastAllocationSize (b : Iobuf) : Nat :=
  match b.frags.getLast? with
  | none => defaultChunkSize
  | some f => f.capacity

/-- `append(std::unique_ptr<fragment>)`: trim the last fragment, then link
    the new one. -/
def appendFragment (mem : Heap) (b : Iobuf) (f : IoFragment) : Heap × Iobuf :=
  match b.frags.getLast? with
  | none => (mem, ⟨[f], b.size + f.usedBytes⟩)
  | some back =>
      let trimmed := back.trim mem
      (trimmed.1, ⟨b.frags.dropLast ++ [trimmed.2, f], b.size + f.usedBytes⟩)

/-- `create_new_fragment(sz)`. -/
def createNewFragment (mem : Heap) (b : Iobuf) (sz : Nat) : Heap × Iobuf :=
  let asz := nextAllocationSize (max sz b.lastAllocationSize)
  let fresh := allocate mem (List.replicate asz 0)
  appendFragment fresh.2 b ⟨⟨fresh.1, 0, asz⟩, 0⟩

/-- `_size += _frags.back().append(ptr, size)`. -/
def appendToBack (mem : Heap) (b : Iobuf) (src : List UInt8) : Nat × Heap × Iobuf :=
  match b.frags.getLast? with
  | none => (0, mem, b)
  | some back =>
      let r := back.append mem src
      (r.1, r.2.1, ⟨b.frags.dropLast ++ [r.2.2], b.size + r.1⟩)

/-- The loop of `append(const char*, size_t)`: a new fragment whenever the
    last one is full, then as much as fits. -/
def appendLoop : Nat → Heap → Iobuf → List UInt8 → Heap × Iobuf
  | 0, mem, b, _ => (mem, b)
  | fuel + 1, mem, b, src =>
      if src.isEmpty then (mem, b)
      else
        let made := if b.availableBytes = 0 then createNewFragment mem b src.length else (mem, b)
        let r := appendToBack made.1 made.2 src
        appendLoop fuel r.2.1 r.2.2 (src.drop r.1)

/-- `append(const char*, size_t)`: copies the bytes in. -/
def append (mem : Heap) (b : Iobuf) (src : List UInt8) : Heap × Iobuf :=
  if src.length = 0 then (mem, b)
  else if src.length ≤ b.availableBytes then
    let r := appendToBack mem b src
    (r.2.1, r.2.2)
  else appendLoop src.length mem b src

/-- The loop of `share(pos, len)` over the fragments: `ret` so far, the
    position still to skip and the bytes still to share. -/
def shareFrom (mem : Heap) (ret : Iobuf) (pos left : Nat) : List IoFragment → Heap × Iobuf
  | [] => (mem, ret)
  | f :: fs =>
      if left = 0 then (mem, ret)
      else if pos ≥ f.usedBytes then shareFrom mem ret (pos - f.usedBytes) left fs
      else
        let leftInFrag := f.usedBytes - pos
        let taken := if left ≥ leftInFrag then leftInFrag else left
        let r := appendFragment mem ret (IoFragment.ofBuffer (f.share pos taken))
        shareFrom r.1 r.2 0 (left - taken) fs

/-- `share(pos, len)`: an iobuf whose fragments view this one's bytes. -/
def share (mem : Heap) (b : Iobuf) (pos len : Nat) : Heap × Iobuf :=
  shareFrom mem empty pos len b.frags

/-- The loop that `trim_back(n)` and `trim_front(n)` share, over the
    fragments from the end being trimmed: `_size` and the fragments.  A
    fragment with more than `n` used bytes is cut by `cut` and the loop
    stops; a smaller one is popped. -/
def trimFrom (cut : IoFragment → Nat → IoFragment) (size n : Nat) :
    List IoFragment → Nat × List IoFragment
  | [] => (size, [])
  | f :: fs =>
      if f.usedBytes > n then (size - n, cut f n :: fs)
      else trimFrom cut (size - f.usedBytes) (n - f.usedBytes) fs

/-- `trim_back(n)`: from the last fragment, `f.trim(f.size() - n)`. -/
def trimBack (b : Iobuf) (n : Nat) : Iobuf :=
  let r := trimFrom (fun f n => f.trimTo (f.usedBytes - n)) b.size n b.frags.reverse
  ⟨r.2.reverse, r.1⟩

/-- `trim_front(n)`: from the first fragment, `f.trim_front(n)`. -/
def trimFront (b : Iobuf) (n : Nat) : Iobuf :=
  let r := trimFrom IoFragment.trimFront b.size n b.frags
  ⟨r.2, r.1⟩

/-- `pop_front()`. -/
def popFront (b : Iobuf) : Iobuf :=
  match b.frags with
  | [] => b
  | f :: fs => ⟨fs, b.size - f.usedBytes⟩

/-- `pop_back()`. -/
def popBack (b : Iobuf) : Iobuf :=
  match b.frags.getLast? with
  | none => b
  | some f => ⟨b.frags.dropLast, b.size - f.usedBytes⟩

/-- `clear()`. -/
def clear (_b : Iobuf) : Iobuf := empty

/-! ## Content and size -/

/-- Every fragment is valid and `_size` counts their used bytes. -/
structure Valid (mem : Heap) (b : Iobuf) : Prop where
  frags_valid : ∀ f ∈ b.frags, f.Valid mem
  size_eq : b.size = (b.frags.map IoFragment.usedBytes).sum

theorem length_flatMap_content {mem : Heap} :
    ∀ {fs : List IoFragment}, (∀ f ∈ fs, f.Valid mem) →
      (fs.flatMap (·.content mem)).length = (fs.map IoFragment.usedBytes).sum
  | [], _ => rfl
  | f :: fs, hv => by
      rw [List.flatMap_cons, List.length_append, List.map_cons, List.sum_cons,
        IoFragment.length_content (hv f List.mem_cons_self),
        length_flatMap_content (fun g hg => hv g (List.mem_cons_of_mem f hg))]

/-- **`size_bytes()` IS THE LENGTH OF THE CONTENT**. -/
theorem length_content {mem : Heap} {b : Iobuf} (hv : b.Valid mem) :
    (b.content mem).length = b.size := by
  rw [content, length_flatMap_content hv.frags_valid, hv.size_eq]

/-- Valid fragments whose used bytes the size counts make a valid iobuf; the
    size may be read off the content. -/
theorem valid_of_content {mem : Heap} {b : Iobuf} (hv : ∀ f ∈ b.frags, f.Valid mem)
    (hsize : b.size = (b.content mem).length) : b.Valid mem :=
  ⟨hv, by rw [hsize, content, length_flatMap_content hv]⟩

/-! ## `trim_back`, `trim_front` -/

section Trim

variable {cut : IoFragment → Nat → IoFragment}

/-- The loop takes `n` off `_size`. -/
theorem trimFrom_fst : ∀ (rs : List IoFragment) (size n : Nat),
    size = (rs.map IoFragment.usedBytes).sum → (trimFrom cut size n rs).1 = size - n
  | [], size, n, hs => by
      rw [List.map_nil, List.sum_nil] at hs
      subst hs
      simp [trimFrom]
  | f :: fs, size, n, hs => by
      rw [List.map_cons, List.sum_cons] at hs
      unfold trimFrom
      split
      · rfl
      · rw [trimFrom_fst fs _ _ (by omega)]
        omega

/-- The fragments left are fragments of the list, or one of them cut short
    of its used bytes. -/
theorem mem_trimFrom {g : IoFragment} : ∀ {rs : List IoFragment} {size n : Nat},
    g ∈ (trimFrom cut size n rs).2 → g ∈ rs ∨ ∃ f ∈ rs, ∃ k < f.usedBytes, g = cut f k
  | [], _, _, h => by cases h
  | f :: fs, size, n, h => by
      unfold trimFrom at h
      split at h
      · rename_i hgt
        rcases List.mem_cons.mp h with rfl | hmem
        · exact .inr ⟨f, List.mem_cons_self, n, hgt, rfl⟩
        · exact .inl (List.mem_cons_of_mem f hmem)
      · rcases mem_trimFrom h with hmem | ⟨f', hf', k, hk, rfl⟩
        · exact .inl (List.mem_cons_of_mem f hmem)
        · exact .inr ⟨f', List.mem_cons_of_mem f hf', k, hk, rfl⟩

/-- A cut that keeps fragments valid leaves every fragment valid. -/
theorem valid_trimFrom {mem : Heap} {rs : List IoFragment} {size n : Nat}
    (hv : ∀ f ∈ rs, f.Valid mem)
    (hcut : ∀ f, f.Valid mem → ∀ k < f.usedBytes, (cut f k).Valid mem) :
    ∀ g ∈ (trimFrom cut size n rs).2, g.Valid mem := by
  intro g hg
  rcases mem_trimFrom hg with hmem | ⟨f, hf, k, hk, rfl⟩
  · exact hv g hmem
  · exact hcut f (hv f hf) k hk

end Trim

theorem trimFrom_back_content {mem : Heap} : ∀ (rs : List IoFragment) (size n : Nat),
    (∀ f ∈ rs, f.Valid mem) →
      (trimFrom (fun f n => f.trimTo (f.usedBytes - n)) size n rs).2.reverse.flatMap
          (·.content mem) =
        (rs.reverse.flatMap (·.content mem)).take ((rs.map IoFragment.usedBytes).sum - n)
  | [], _, _, _ => by simp [trimFrom]
  | f :: fs, size, n, hv => by
      have hf := IoFragment.length_content (hv f List.mem_cons_self)
      have hfs : (fs.reverse.flatMap (·.content mem)).length =
          (fs.map IoFragment.usedBytes).sum := by
        rw [length_flatMap_content
            (fun g hg => hv g (List.mem_cons_of_mem f (List.mem_reverse.mp hg))),
          List.map_reverse, List.sum_reverse]
      rw [List.reverse_cons, List.flatMap_append, List.flatMap_singleton, List.map_cons,
        List.sum_cons, List.take_append, hfs]
      unfold trimFrom
      split
      · -- the last fragment keeps `used - n` bytes; the others stay whole
        rename_i hgt
        rw [List.reverse_cons, List.flatMap_append, List.flatMap_singleton,
          IoFragment.content_trimTo, List.take_of_length_le (l := fs.reverse.flatMap _)
            (by rw [hfs]; omega)]
        congr 2
        omega
      · -- the last fragment goes; the rest is trimmed by what is left of `n`
        rename_i hle
        rw [trimFrom_back_content fs _ _ (fun g hg => hv g (List.mem_cons_of_mem f hg)),
          show f.usedBytes + (fs.map IoFragment.usedBytes).sum - n
              - (fs.map IoFragment.usedBytes).sum = 0 by omega,
          List.take_zero, List.append_nil]
        congr 1
        omega

theorem trimFrom_front_content {mem : Heap} : ∀ (rs : List IoFragment) (size n : Nat),
    (∀ f ∈ rs, f.Valid mem) →
      (trimFrom IoFragment.trimFront size n rs).2.flatMap (·.content mem) =
        (rs.flatMap (·.content mem)).drop n
  | [], _, _, _ => by simp [trimFrom]
  | f :: fs, size, n, hv => by
      have hf := IoFragment.length_content (hv f List.mem_cons_self)
      rw [List.flatMap_cons, List.drop_append, hf]
      unfold trimFrom
      split
      · rename_i hgt
        rw [List.flatMap_cons, IoFragment.content_trimFront,
          show n - f.usedBytes = 0 by omega, List.drop_zero]
      · rename_i hle
        rw [trimFrom_front_content fs _ _ (fun g hg => hv g (List.mem_cons_of_mem f hg)),
          List.drop_eq_nil_of_le (show (f.content mem).length ≤ n by omega), List.nil_append]

/-- **TRIM_BACK DROPS THE LAST BYTES**: `trim_back(n)` keeps the first
    `size - n` bytes and leaves memory alone. -/
theorem content_trimBack {mem : Heap} {b : Iobuf} (hv : b.Valid mem) (n : Nat) :
    (b.trimBack n).content mem = (b.content mem).take (b.size - n) := by
  unfold trimBack content
  dsimp only
  rw [trimFrom_back_content _ _ _ (fun f hf => hv.frags_valid f (List.mem_reverse.mp hf)),
    List.reverse_reverse, List.map_reverse, List.sum_reverse, hv.size_eq]

theorem valid_trimBack {mem : Heap} {b : Iobuf} (hv : b.Valid mem) (n : Nat) :
    (b.trimBack n).Valid mem := by
  apply valid_of_content
  · intro g hg
    refine valid_trimFrom (fun f hf => hv.frags_valid f (List.mem_reverse.mp hf)) ?_ g
      (List.mem_reverse.mp hg)
    intro f hfv k _
    exact ⟨le_trans (Nat.min_le_right _ _) hfv.1, hfv.2⟩
  · rw [content_trimBack hv, List.length_take, length_content hv]
    show (trimFrom _ b.size n b.frags.reverse).1 = _
    rw [trimFrom_fst _ _ _ (by rw [List.map_reverse, List.sum_reverse]; exact hv.size_eq)]
    omega

/-- **TRIM_FRONT DROPS THE FIRST BYTES**. -/
theorem content_trimFront {mem : Heap} {b : Iobuf} (hv : b.Valid mem) (n : Nat) :
    (b.trimFront n).content mem = (b.content mem).drop n :=
  trimFrom_front_content b.frags b.size n hv.frags_valid

theorem valid_trimFront {mem : Heap} {b : Iobuf} (hv : b.Valid mem) (n : Nat) :
    (b.trimFront n).Valid mem := by
  apply valid_of_content
  · refine valid_trimFrom hv.frags_valid ?_
    intro f hfv k hk
    have h1 := hfv.1
    have h2 := hfv.2
    exact ⟨by show f.usedBytes - k ≤ f.buf.size - k; omega,
      by show f.buf.start + k + (f.buf.size - k) ≤ (cells mem f.buf.alloc).length; omega⟩
  · rw [content_trimFront hv, List.length_drop, length_content hv]
    exact trimFrom_fst _ _ _ hv.size_eq

/-! ## `share` -/

section Append

variable {mem : Heap} {fs : List IoFragment} {back : IoFragment} {src : List UInt8}

end Append

end Iobuf

end Bytes
