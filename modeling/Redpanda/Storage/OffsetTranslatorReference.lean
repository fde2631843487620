import Redpanda.Lib.GapCount
import Redpanda.Storage.OffsetTranslatorState

/-! # The translation table computes its reference delta

    Toward: for every table built by the constructor and any sequence of
    `add_gap`, `truncate` and `prefix_truncate` calls, `delta(o)` is the base
    delta plus the number of gap offsets below `o`, where the gaps are those
    `add_gap` accepted and `truncate` has not cut off — including the ones
    `prefix_truncate` folded into the first entry.

    The route:

    * `Represents d0 m g` is the invariant: consecutive entries are `Linked`,
      and the ghost list `g` splits into the gaps folded into the first entry
      (whose total the first entry's delta carries) followed by the gaps the
      map still records;
    * `delta_eq_of_represents` reads the reference count off such a map;
    * one lemma per call says what the call does to a represented map, and
      `represents_step` assembles them; `represents_grun` runs it. -/

namespace OffsetTranslatorReference

open OffsetTranslatorState GapCount

/-- The gaps a map records, as closed intervals `[base, last]`. -/
def gapsOf (m : OffsetMap) : List (Int × Int) :=
  m.map fun e => (e.2.baseOffset, e.1)

@[simp] theorem gapsOf_nil : gapsOf [] = [] := rfl

@[simp] theorem gapsOf_cons (e : Int × BatchInfo) (m : OffsetMap) :
    gapsOf (e :: m) = (e.2.baseOffset, e.1) :: gapsOf m := rfl

theorem gapsOf_append (m m' : OffsetMap) : gapsOf (m ++ m') = gapsOf m ++ gapsOf m' :=
  List.map_append ..

/-- Two consecutive entries of a well-formed map: the gap starts past the
    previous key, is non-empty, and adds its length to the delta. -/
def Linked (p e : Int × BatchInfo) : Prop :=
  p.1 < e.2.baseOffset ∧ e.2.baseOffset ≤ e.1 ∧
    e.2.nextDelta = p.2.nextDelta + (e.1 - e.2.baseOffset + 1)

/-- Every entry after `p` is linked to the one before it. -/
def LinkedFrom : Int × BatchInfo → OffsetMap → Prop
  | _, [] => True
  | p, e :: rest => Linked p e ∧ LinkedFrom e rest

/-- The last entry of `p :: rest`. -/
def lastOf (p : Int × BatchInfo) (rest : OffsetMap) : Int × BatchInfo :=
  rest.getLast?.getD p

@[simp] theorem lastOf_nil (p : Int × BatchInfo) : lastOf p [] = p := rfl

@[simp] theorem lastOf_cons (p e : Int × BatchInfo) (rest : OffsetMap) :
    lastOf p (e :: rest) = lastOf e rest := by
  simp [lastOf, List.getLast?_cons]

@[simp] theorem lastOf_concat (p e : Int × BatchInfo) (rest : OffsetMap) :
    lastOf p (rest ++ [e]) = e := by
  simp [lastOf]

/-! ## Linked maps -/

/-- Every gap after `p` starts past `p`'s key. -/
theorem LinkedFrom.key_lt_bases {p : Int × BatchInfo} {rest : OffsetMap}
    (h : LinkedFrom p rest) : ∀ g ∈ gapsOf rest, p.1 < g.1 := by
  induction rest generalizing p with
  | nil => intro g hg; exact nomatch hg
  | cons e rest ih =>
      obtain ⟨⟨hpb, hbk, -⟩, hrest⟩ := h
      intro g hg
      rcases List.mem_cons.mp hg with rfl | hg
      · exact hpb
      · have := ih hrest g hg
        omega

/-- Keys grow along a linked map. -/
theorem LinkedFrom.key_lt_keys {p : Int × BatchInfo} {rest : OffsetMap}
    (h : LinkedFrom p rest) : ∀ e ∈ rest, p.1 < e.1 := by
  intro e he
  have hb := h.key_lt_bases (e.2.baseOffset, e.1) (List.mem_map_of_mem he)
  have hle : e.2.baseOffset ≤ e.1 := by
    induction rest generalizing p with
    | nil => exact nomatch he
    | cons e' rest ih =>
        rcases List.mem_cons.mp he with rfl | he
        · exact h.1.2.1
        · exact ih h.2 he (h.2.key_lt_bases _ (List.mem_map_of_mem he))
  exact lt_of_lt_of_le hb hle

/-- The gaps of a linked map are separated. -/
theorem LinkedFrom.separated {p : Int × BatchInfo} {rest : OffsetMap}
    (h : LinkedFrom p rest) : Separated (gapsOf rest) := by
  induction rest generalizing p with
  | nil => trivial
  | cons e rest ih =>
      obtain ⟨⟨-, hbk, -⟩, hrest⟩ := h
      cases rest with
      | nil => exact hbk
      | cons e' rest => exact ⟨hbk, hrest.1.1, ih hrest⟩

/-- A prefix of a linked map is linked. -/
theorem LinkedFrom.append_left {p : Int × BatchInfo} {xs ys : OffsetMap}
    (h : LinkedFrom p (xs ++ ys)) : LinkedFrom p xs := by
  induction xs generalizing p with
  | nil => trivial
  | cons e xs ih => exact ⟨h.1, ih h.2⟩

/-- Linking one more entry at the end. -/
theorem LinkedFrom.concat {p e : Int × BatchInfo} {rest : OffsetMap}
    (h : LinkedFrom p rest) (he : Linked (lastOf p rest) e) :
    LinkedFrom p (rest ++ [e]) := by
  induction rest generalizing p with
  | nil => exact ⟨he, trivial⟩
  | cons e' rest ih =>
      rw [lastOf_cons] at he
      exact ⟨h.1, ih h.2 he⟩

/-- The last key is the largest. -/
theorem LinkedFrom.key_le_last {p : Int × BatchInfo} {rest : OffsetMap}
    (h : LinkedFrom p rest) : ∀ e ∈ p :: rest, e.1 ≤ (lastOf p rest).1 := by
  induction rest generalizing p with
  | nil => intro e he; simp at he; simp [he]
  | cons e' rest ih =>
      intro e he
      rw [lastOf_cons]
      rcases List.mem_cons.mp he with rfl | he
      · have := ih h.2 e' (by simp)
        have := h.1.1
        have := h.1.2.1
        omega
      · exact ih h.2 e he

/-- Along a linked map the delta grows by the lengths of the gaps passed. -/
theorem LinkedFrom.last_nextDelta {p : Int × BatchInfo} {rest : OffsetMap}
    (h : LinkedFrom p rest) :
    (lastOf p rest).2.nextDelta = p.2.nextDelta + gapLength (gapsOf rest) := by
  induction rest generalizing p with
  | nil => simp
  | cons e rest ih =>
      rw [lastOf_cons, ih h.2, h.1.2.2, gapsOf_cons, gapLength_cons]
      ring

/-! ## `delta` on a linked map -/

/-- **THE SCAN**: past the first entry, `delta` adds the covered offsets of
    the recorded gaps to the delta of the entry it starts from. -/
theorem deltaFrom_eq {p : Int × BatchInfo} {rest : OffsetMap}
    (h : LinkedFrom p rest) {o : Int} (ho : p.1 < o) :
    deltaFrom p.2 rest o = p.2.nextDelta + gapCount (gapsOf rest) o := by
  induction rest generalizing p with
  | nil => simp [deltaFrom]
  | cons e rest ih =>
      obtain ⟨k, i⟩ := e
      obtain ⟨⟨hpb, hbk, hnd⟩, hrest⟩ := h
      simp only at hpb hbk hnd
      simp only [deltaFrom, gapsOf_cons, gapCount_cons]
      by_cases hok : o ≤ k
      · -- the scan stops at this gap; every later gap starts past `k ≥ o`
        rw [if_pos hok]
        have hlater : gapCount (gapsOf rest) o = 0 :=
          gapCount_eq_zero fun g hg => by
            have := hrest.key_lt_bases g hg
            simp only at this
            omega
        by_cases hob : o < i.baseOffset
        · rw [if_pos hob, below_of_le_base (by omega), hlater]
          ring
        · rw [if_neg hob, below_of_mem (by omega) hok, hlater]
          ring
      · rw [if_neg hok, ih hrest (by simp only; omega), hnd, below_of_last_lt hbk (by omega)]
        ring

/-! ## The invariant -/

/-- **THE INVARIANT** of a reachable table against its ghost list `g`: the
    map is linked, `g` is separated, and `g` is the gaps folded into the first
    entry (all at or before its key, their total carried by its delta)
    followed by the gaps the map still records. -/
def Represents (d0 : Int) : OffsetMap → List (Int × Int) → Prop
  | [], _ => False
  | (k, i) :: rest, g =>
      LinkedFrom (k, i) rest ∧ Separated g ∧
        ∃ R, g = R ++ gapsOf rest ∧ (∀ x ∈ R, x.2 ≤ k) ∧
          i.nextDelta = d0 + gapLength R

/-- The constructor represents the empty ghost list. -/
theorem represents_init (b0 d0 : Int) : Represents d0 (init b0 d0) [] :=
  ⟨trivial, trivial, [], rfl, by simp, by simp⟩

/-- **REFINEMENT**: on a represented map, `delta` past the first key is the
    reference count over the ghost list. -/
theorem delta_eq_of_represents {d0 k : Int} {i : BatchInfo} {rest : OffsetMap}
    {g : List (Int × Int)} (h : Represents d0 ((k, i) :: rest) g) {o : Int}
    (ho : k < o) : delta ((k, i) :: rest) o = .ok (d0 + gapCount g o) := by
  obtain ⟨hlink, hsep, R, rfl, hR, hnd⟩ := h
  have hwhole : gapCount R o = gapLength R :=
    gapCount_eq_gapLength fun x hx =>
      ⟨hsep.base_le x (List.mem_append_left _ hx), by have := hR x hx; omega⟩
  rw [delta, if_neg (by omega), deltaFrom_eq (p := (k, i)) hlink ho, hnd,
    gapCount_append, hwhole]
  congr 1
  ring

/-- At or before the first key `delta` refuses, whatever the rest. -/
theorem delta_of_le_first {k : Int} {i : BatchInfo} {rest : OffsetMap} {o : Int}
    (ho : o ≤ k) : delta ((k, i) :: rest) o = .error (.outsideTranslationRange o (k + 1)) := by
  rw [delta, if_pos ho]

/-! ## What each call does to a linked map -/

theorem getLast?_cons_eq (p : Int × BatchInfo) (rest : OffsetMap) :
    (p :: rest).getLast? = some (lastOf p rest) := by
  simp [lastOf, List.getLast?_cons]

/-- Does `add_gap(base, last)` record a new gap on `m`? -/
def appends (m : OffsetMap) (base last : Int) : Bool :=
  match m.head?, m.getLast? with
  | some f, some la => decide (f.1 ≤ last ∧ la.1 < base)
  | _, _ => false

/-- The entry `add_gap` appends. -/
def gapEntry (m : OffsetMap) (base last : Int) : Int × BatchInfo :=
  (last, ⟨base, ((m.getLast?.map fun e => e.2.nextDelta).getD 0) + (last - base + 1)⟩)

theorem addGap_of_appends {k : Int} {i : BatchInfo} {rest : OffsetMap} {base last : Int}
    (h : appends ((k, i) :: rest) base last = true) :
    addGap ((k, i) :: rest) base last
      = .ok ((k, i) :: rest ++ [gapEntry ((k, i) :: rest) base last]) := by
  simp only [appends, List.head?_cons, getLast?_cons_eq, decide_eq_true_eq] at h
  simp only [addGap, List.head?_cons, getLast?_cons_eq, gapEntry, Option.map_some,
    Option.getD_some]
  rw [if_neg (by omega), if_neg (by omega)]

theorem addGap_of_not_appends {m m' : OffsetMap} {base last : Int}
    (h : appends m base last = false) (hr : addGap m base last = .ok m') : m' = m := by
  match m with
  | [] => exact nomatch hr
  | (k, i) :: rest =>
      simp only [appends, List.head?_cons, getLast?_cons_eq, decide_eq_false_iff_not,
        not_and, not_lt] at h
      simp only [addGap, List.head?_cons, getLast?_cons_eq] at hr
      split_ifs at hr with hlt hle
      · exact (Except.ok.inj hr).symm
      · -- a repeated gap: only an exact copy is accepted, and it changes nothing
        split at hr
        · split_ifs at hr
          exact (Except.ok.inj hr).symm
        · exact nomatch hr
      · exact absurd (h (by omega)) (by omega)

theorem truncateFrom_spec {p : Int × BatchInfo} {rest rest' : OffsetMap} {t : Int}
    {r : Bool} (h : LinkedFrom p rest) (hr : truncateFrom rest t = .ok (r, rest')) :
    ∃ suf, rest = rest' ++ suf ∧ (∀ e ∈ rest', e.1 < t) ∧
      (∀ e ∈ suf, t ≤ e.2.baseOffset ∧ t ≤ e.1) := by
  induction rest generalizing p r rest' with
  | nil =>
      simp only [truncateFrom, Except.ok.injEq, Prod.mk.injEq] at hr
      obtain ⟨-, rfl⟩ := hr
      exact ⟨[], rfl, by simp, by simp⟩
  | cons e rest ih =>
      obtain ⟨k, i⟩ := e
      rw [truncateFrom] at hr
      by_cases htk : t ≤ k
      · rw [if_pos htk] at hr
        by_cases hmid : i.baseOffset < t
        · rw [if_pos hmid] at hr
          cases hr
        · -- the cut: this entry and everything after it go
          rw [if_neg hmid] at hr
          obtain ⟨-, rfl⟩ := Prod.mk.inj (Except.ok.inj hr)
          refine ⟨(k, i) :: rest, rfl, by simp, ?_⟩
          intro e he
          rcases List.mem_cons.mp he with rfl | he
          · exact ⟨by simp only; omega, htk⟩
          · have hb := h.2.key_lt_bases _ (List.mem_map_of_mem (f := fun e => (e.2.baseOffset, e.1)) he)
            have hk := h.2.key_lt_keys e he
            simp only at hb hk
            omega
      · rw [if_neg htk] at hr
        cases hrec : truncateFrom rest t with
        | error err => rw [hrec] at hr; cases hr
        | ok v =>
            rw [hrec] at hr
            obtain ⟨-, rfl⟩ := Prod.mk.inj (Except.ok.inj hr)
            obtain ⟨suf, hsplit, hkept, hcut⟩ := ih h.2 hrec
            refine ⟨suf, by rw [hsplit]; rfl, ?_, hcut⟩
            intro e he
            rcases List.mem_cons.mp he with rfl | he
            · simp only; omega
            · exact hkept e he

/-- What `prefix_truncate`'s scan leaves: either nothing changes (the cut is at
    the first key), or the entries up to the cut collapse into one entry keyed
    at the cut that carries the delta of the last of them. -/
theorem prefixTruncateFrom_spec {atBegin : Bool} {p : Int × BatchInfo}
    {rest m' : OffsetMap} {o : Int} {r : Bool} (h : LinkedFrom p rest)
    (hr : prefixTruncateFrom atBegin p rest o = .ok (r, m')) :
    (atBegin = true ∧ m' = p :: rest) ∨
      ∃ pre post, rest = pre ++ post ∧ (∀ e ∈ pre, e.1 ≤ o) ∧
        LinkedFrom (o, ⟨o, p.2.nextDelta + gapLength (gapsOf pre)⟩) post ∧
        m' = (o, ⟨o, p.2.nextDelta + gapLength (gapsOf pre)⟩) :: post := by
  induction rest generalizing atBegin p r m' with
  | nil =>
      rw [prefixTruncateFrom] at hr
      by_cases hbeg : atBegin = true ∧ p.1 = o
      · rw [if_pos hbeg] at hr
        exact .inl ⟨hbeg.1, (Prod.mk.inj (Except.ok.inj hr)).2.symm⟩
      · rw [if_neg hbeg] at hr
        refine .inr ⟨[], [], rfl, by simp, trivial, ?_⟩
        rw [← (Prod.mk.inj (Except.ok.inj hr)).2]
        simp
  | cons e rest ih =>
      obtain ⟨k, i⟩ := e
      obtain ⟨⟨hpb, hbk, hnd⟩, hrest⟩ := h
      simp only at hpb hbk hnd
      rw [prefixTruncateFrom] at hr
      by_cases hok : o < k
      · rw [if_pos hok] at hr
        by_cases hmid : i.baseOffset ≤ o
        · rw [if_pos hmid] at hr
          cases hr
        rw [if_neg hmid] at hr
        by_cases hbeg : atBegin = true ∧ p.1 = o
        · rw [if_pos hbeg] at hr
          exact .inl ⟨hbeg.1, (Prod.mk.inj (Except.ok.inj hr)).2.symm⟩
        · -- the cursor is the first entry past the cut
          rw [if_neg hbeg] at hr
          refine .inr ⟨[], (k, i) :: rest, rfl, by simp, ⟨?_, hrest⟩, ?_⟩
          · refine ⟨by simp only; omega, hbk, ?_⟩
            simp only [gapsOf_nil, gapLength_nil, add_zero]
            exact hnd
          · rw [← (Prod.mk.inj (Except.ok.inj hr)).2]
            simp
      · -- this entry lies at or before the cut: it is folded in
        rw [if_neg hok] at hr
        rcases ih hrest hr with ⟨hfalse, -⟩ | ⟨pre, post, hsplit, hpre, hlink, hm'⟩
        · exact absurd hfalse Bool.false_ne_true
        have hsum : p.2.nextDelta + gapLength (gapsOf ((k, i) :: pre))
            = i.nextDelta + gapLength (gapsOf pre) := by
          rw [gapsOf_cons, gapLength_cons, hnd]
          simp only
          ring
        refine .inr ⟨(k, i) :: pre, post, by rw [hsplit]; rfl, ?_, ?_, ?_⟩
        · intro e he
          rcases List.mem_cons.mp he with rfl | he
          · simp only; omega
          · exact hpre e he
        · rw [hsum]
          exact hlink
        · rw [hsum]
          exact hm'

/-- `truncate` on a linked map: the cut lies past the first key, and what is
    kept is the prefix of the entries below it. -/
theorem truncate_spec {k : Int} {i : BatchInfo} {rest m' : OffsetMap} {t : Int}
    {r : Bool} (h : LinkedFrom (k, i) rest)
    (hr : truncate ((k, i) :: rest) t = .ok (r, m')) :
    k < t ∧ ∃ rest' suf, m' = (k, i) :: rest' ∧ rest = rest' ++ suf ∧
      (∀ e ∈ rest', e.1 < t) ∧ (∀ e ∈ suf, t ≤ e.2.baseOffset ∧ t ≤ e.1) := by
  rw [truncate] at hr
  by_cases htk : t ≤ k
  · rw [if_pos htk] at hr
    cases hr
  rw [if_neg htk] at hr
  cases hrec : truncateFrom rest t with
  | error err => rw [hrec] at hr; cases hr
  | ok v =>
      rw [hrec] at hr
      obtain ⟨-, rfl⟩ := Prod.mk.inj (Except.ok.inj hr)
      obtain ⟨suf, hsplit, hkept, hcut⟩ := truncateFrom_spec h hrec
      exact ⟨by omega, v.2, suf, rfl, hsplit, hkept, hcut⟩

/-- `prefix_truncate` on a linked map: unchanged, or a cut at or past the
    first key that folds the entries up to it into a new first entry. -/
theorem prefixTruncate_spec {k : Int} {i : BatchInfo} {rest m' : OffsetMap} {o : Int}
    {r : Bool} (h : LinkedFrom (k, i) rest)
    (hr : prefixTruncate ((k, i) :: rest) o = .ok (r, m')) :
    m' = (k, i) :: rest ∨
      k ≤ o ∧ ∃ pre post, rest = pre ++ post ∧ (∀ e ∈ pre, e.1 ≤ o) ∧
        LinkedFrom (o, ⟨o, i.nextDelta + gapLength (gapsOf pre)⟩) post ∧
        m' = (o, ⟨o, i.nextDelta + gapLength (gapsOf pre)⟩) :: post := by
  rw [prefixTruncate] at hr
  by_cases hok : o < k
  · rw [if_pos hok] at hr
    by_cases hmid : i.baseOffset ≤ o
    · rw [if_pos hmid] at hr
      cases hr
    · rw [if_neg hmid] at hr
      exact .inl (Prod.mk.inj (Except.ok.inj hr)).2.symm
  · rw [if_neg hok] at hr
    rcases prefixTruncateFrom_spec h hr with ⟨-, heq⟩ | hcut
    · exact .inl heq
    · exact .inr ⟨by omega, hcut⟩

/-! ## The calls, the ghost, and the run -/

/-- The calls a client makes on the table. -/
inductive Op where
  | addGap (base last : Int)
  | truncate (o : Int)
  | prefixTruncate (o : Int)
deriving DecidableEq, Repr

/-- The batch behind an `add_gap` call is well formed: its base offset is not
    past its last offset. -/
def Op.Valid : Op → Prop
  | .addGap base last => base ≤ last
  | _ => True

instance (op : Op) : Decidable op.Valid :=
  match op with
  | .addGap base last => inferInstanceAs (Decidable (base ≤ last))
  | .truncate _ => inferInstanceAs (Decidable True)
  | .prefixTruncate _ => inferInstanceAs (Decidable True)

/-- One call on the table; a call that throws leaves it as it was. -/
def applyOp (m : OffsetMap) : Op → OffsetMap
  | .addGap base last =>
      match addGap m base last with
      | .ok m' => m'
      | .error _ => m
  | .truncate o =>
      match truncate m o with
      | .ok r => r.2
      | .error _ => m
  | .prefixTruncate o =>
      match prefixTruncate m o with
      | .ok r => r.2
      | .error _ => m

/-- The ghost list of gaps: a gap joins when `add_gap` records it and leaves
    when `truncate` cuts it off; `prefix_truncate` folds gaps into the first
    entry but keeps them in the count. -/
def ghostStep (m : OffsetMap) (g : List (Int × Int)) : Op → List (Int × Int)
  | .addGap base last => if appends m base last then g ++ [(base, last)] else g
  | .truncate o =>
      match truncate m o with
      | .ok _ => g.filter fun x => decide (x.2 < o)
      | .error _ => g
  | .prefixTruncate _ => g

/-- The table's step paired with the ghost's. -/
def gstep (s : OffsetMap × List (Int × Int)) (op : Op) : OffsetMap × List (Int × Int) :=
  (applyOp s.1 op, ghostStep s.1 s.2 op)

/-- A run of calls from a given table and ghost. -/
def grun (ops : List Op) (s : OffsetMap × List (Int × Int)) : OffsetMap × List (Int × Int) :=
  ops.foldl gstep s

/-! ## Each call keeps the invariant -/

section Preservation

variable {d0 : Int} {m : OffsetMap} {g : List (Int × Int)}

theorem represents_addGap (h : Represents d0 m g) {base last : Int} (hbl : base ≤ last) :
    Represents d0 (applyOp m (.addGap base last)) (ghostStep m g (.addGap base last)) := by
  match m, h with
  | (k, i) :: rest, hrep@⟨hlink, hsep, R, hg, hR, hnd⟩ =>
      by_cases hap : appends ((k, i) :: rest) base last = true
      · -- a new gap past the last key: the map and the ghost both grow by it
        have hcond := hap
        simp only [appends, List.head?_cons, getLast?_cons_eq, decide_eq_true_eq] at hcond
        obtain ⟨-, hlast⟩ := hcond
        have hentry : gapEntry ((k, i) :: rest) base last
            = (last, ⟨base, (lastOf (k, i) rest).2.nextDelta + (last - base + 1)⟩) := by
          simp [gapEntry, getLast?_cons_eq]
        have hall : ∀ x ∈ g, x.2 < base := by
          intro x hx
          have hmax := hlink.key_le_last
          rw [hg] at hx
          rcases List.mem_append.mp hx with hx | hx
          · have := hR x hx
            have := hmax (k, i) (by simp)
            simp only at this
            omega
          · obtain ⟨e, he, rfl⟩ := List.mem_map.mp hx
            have := hmax e (by simp [he])
            simp only
            omega
        simp only [applyOp, ghostStep, addGap_of_appends hap, if_pos hap, hentry,
          List.cons_append]
        refine ⟨hlink.concat ⟨hlast, hbl, rfl⟩, hsep.append_single hall hbl, R, ?_, hR, hnd⟩
        rw [hg, gapsOf_append, List.append_assoc]
        rfl
      · -- dropped, or a repeat of a recorded gap: nothing changes
        simp only [Bool.not_eq_true] at hap
        simp only [applyOp, ghostStep, hap, Bool.false_eq_true, ↓reduceIte]
        cases hadd : addGap ((k, i) :: rest) base last with
        | error err => exact hrep
        | ok m' =>
            rw [addGap_of_not_appends hap hadd]
            exact hrep

theorem represents_truncate (h : Represents d0 m g) (t : Int) :
    Represents d0 (applyOp m (.truncate t)) (ghostStep m g (.truncate t)) := by
  match m, h with
  | (k, i) :: rest, hrep@⟨hlink, hsep, R, hg, hR, hnd⟩ =>
      simp only [applyOp, ghostStep]
      cases htr : truncate ((k, i) :: rest) t with
      | error err => exact hrep
      | ok v =>
          obtain ⟨hkt, rest', suf, hm', hsplit, hkept, hcut⟩ := truncate_spec hlink htr
          have hsplit' : g = (R ++ gapsOf rest') ++ gapsOf suf := by
            rw [hg, hsplit, gapsOf_append, List.append_assoc]
          -- the ghost keeps exactly the folded gaps and the kept entries
          have hfilter : g.filter (fun x => decide (x.2 < t)) = R ++ gapsOf rest' := by
            rw [hsplit', List.filter_append, List.filter_append,
              List.filter_eq_self.mpr, List.filter_eq_self.mpr, List.filter_eq_nil_iff.mpr,
              List.append_nil]
            · intro x hx
              obtain ⟨e, he, rfl⟩ := List.mem_map.mp hx
              simpa using (hcut e he).2
            · intro x hx
              obtain ⟨e, he, rfl⟩ := List.mem_map.mp hx
              simpa using hkept e he
            · intro x hx
              have := hR x hx
              simp only [decide_eq_true_eq]
              omega
          dsimp only
          rw [hm', hfilter]
          refine ⟨(hsplit ▸ hlink).append_left, ?_, R, rfl, hR, hnd⟩
          rw [hsplit'] at hsep
          exact hsep.append_left

theorem represents_prefixTruncate (h : Represents d0 m g) (o : Int) :
    Represents d0 (applyOp m (.prefixTruncate o)) (ghostStep m g (.prefixTruncate o)) := by
  match m, h with
  | (k, i) :: rest, hrep@⟨hlink, hsep, R, hg, hR, hnd⟩ =>
      simp only [applyOp, ghostStep]
      cases hpt : prefixTruncate ((k, i) :: rest) o with
      | error err => exact hrep
      | ok v =>
          dsimp only
          rcases prefixTruncate_spec hlink hpt with heq | ⟨hko, pre, post, hsplit, hpre, hlink', hm'⟩
          · rw [heq]
            exact hrep
          · -- the gaps up to the cut move from the map into the folded part
            rw [hm']
            refine ⟨hlink', hsep, R ++ gapsOf pre, ?_, ?_, ?_⟩
            · rw [hg, hsplit, gapsOf_append, List.append_assoc]
            · intro x hx
              rcases List.mem_append.mp hx with hx | hx
              · have := hR x hx
                omega
              · obtain ⟨e, he, rfl⟩ := List.mem_map.mp hx
                exact hpre e he
            · show i.nextDelta + gapLength (gapsOf pre) = d0 + gapLength (R ++ gapsOf pre)
              rw [gapLength_append, hnd]
              ring

/-- **STEP**: every well-formed call keeps the invariant, thrown or not. -/
theorem represents_step (h : Represents d0 m g) {op : Op} (hop : op.Valid) :
    Represents d0 (gstep (m, g) op).1 (gstep (m, g) op).2 := by
  cases op with
  | addGap base last => exact represents_addGap h hop
  | truncate t => exact represents_truncate h t
  | prefixTruncate o => exact represents_prefixTruncate h o

/-- **RUN**: the invariant holds after every run of well-formed calls. -/
theorem represents_grun (ops : List Op) (hops : ∀ op ∈ ops, op.Valid)
    (h : Represents d0 m g) : Represents d0 (grun ops (m, g)).1 (grun ops (m, g)).2 := by
  induction ops generalizing m g with
  | nil => exact h
  | cons op ops ih =>
      exact ih (fun op' hop' => hops op' (by simp [hop'])) (represents_step h (hops op (by simp)))

end Preservation

/-! ## Calls that succeed keep the deltas they do not cut off -/

section Frame

variable {k : Int} {i : BatchInfo} {rest m' : OffsetMap}

theorem delta_truncate_frame (h : LinkedFrom (k, i) rest) {t : Int} {r : Bool}
    (hr : truncate ((k, i) :: rest) t = .ok (r, m')) {o : Int} (ho : o < t) :
    delta m' o = delta ((k, i) :: rest) o := by
  obtain ⟨-, rest', suf, rfl, hsplit, -, hcut⟩ := truncate_spec h hr
  by_cases hok : o ≤ k
  · rw [delta_of_le_first hok, delta_of_le_first hok]
  · -- the entries cut off all start at or past `t > o`
    have hsuf : gapCount (gapsOf suf) o = 0 :=
      gapCount_eq_zero fun x hx => by
        obtain ⟨e, he, rfl⟩ := List.mem_map.mp hx
        have := (hcut e he).1
        simp only
        omega
    have hlink' : LinkedFrom (k, i) rest' := (hsplit ▸ h).append_left
    rw [delta, delta, if_neg hok, if_neg hok, deltaFrom_eq (p := (k, i)) hlink' (by omega),
      deltaFrom_eq (p := (k, i)) h (by omega), hsplit, gapsOf_append, gapCount_append, hsuf]
    simp

theorem delta_prefixTruncate_frame (h : LinkedFrom (k, i) rest) {p : Int} {r : Bool}
    (hr : prefixTruncate ((k, i) :: rest) p = .ok (r, m')) {o : Int} (ho : p < o) :
    delta m' o = delta ((k, i) :: rest) o := by
  rcases prefixTruncate_spec h hr with rfl | ⟨hkp, pre, post, hsplit, hpre, hlink', rfl⟩
  · rfl
  · -- the folded gaps all end at or before `p < o`, so they count whole
    have hsep : Separated (gapsOf pre) := (hsplit ▸ h).append_left.separated
    have hpre' : gapCount (gapsOf pre) o = gapLength (gapsOf pre) :=
      gapCount_eq_gapLength fun x hx => by
        refine ⟨hsep.base_le x hx, ?_⟩
        obtain ⟨e, he, rfl⟩ := List.mem_map.mp hx
        have := hpre e he
        simp only
        omega
    rw [delta, delta, if_neg (by omega), if_neg (by omega),
      deltaFrom_eq (p := (p, _)) hlink' ho, deltaFrom_eq (p := (k, i)) h (by omega),
      hsplit, gapsOf_append, gapCount_append, hpre']
    simp only [Except.ok.injEq]
    ring

end Frame

/-- The table and ghost after a run from the constructor. -/
def runFrom (b0 d0 : Int) (ops : List Op) : OffsetMap × List (Int × Int) :=
  grun ops (init b0 d0, [])

theorem represents_runFrom (b0 d0 : Int) (ops : List Op) (hops : ∀ op ∈ ops, op.Valid) :
    Represents d0 (runFrom b0 d0 ops).1 (runFrom b0 d0 ops).2 :=
  represents_grun ops hops (represents_init b0 d0)

theorem delta_addGap_frame {d0 : Int} {m : OffsetMap} {g : List (Int × Int)}
    (h : Represents d0 m g) {base last : Int} (hbl : base ≤ last)
    (hr : addGap m base last = .ok m') {o : Int} (ho : o ≤ base) :
    delta m' o = delta m o := by
  have hstep := represents_addGap h hbl
  simp only [applyOp, ghostStep, hr] at hstep
  by_cases hap : appends m base last = true
  · rw [if_pos hap] at hstep
    match m, h, m', hstep with
    | (k, i) :: rest, hrep, (k', i') :: rest', hrep' =>
        -- the new map keeps the first entry; the new gap starts at `base ≥ o`
        have hfirst : (k', i') = (k, i) := by
          have := addGap_of_appends hap
          rw [hr] at this
          exact (List.cons.inj (Except.ok.inj this)).1
        obtain ⟨rfl, rfl⟩ := Prod.mk.inj hfirst
        by_cases hok : o ≤ k'
        · rw [delta_of_le_first hok, delta_of_le_first hok]
        · rw [delta_eq_of_represents hrep' (by omega), delta_eq_of_represents hrep (by omega),
            gapCount_append, gapCount_cons, below_of_le_base ho]
          simp
  · rw [addGap_of_not_appends (by simpa using hap) hr]

/-- **OFFSET TRANSLATION MATCHES ITS REFERENCE.**  Build a table with the
    constructor at `(b0, d0)` and run any well-formed sequence of `add_gap`,
    `truncate` and `prefix_truncate` calls on it, thrown or not.  The ghost
    `g` is the list of gaps `add_gap` recorded and `truncate` did not cut off;
    the gaps `prefix_truncate` folded into the first entry stay in it.  Then
    past the first key `k`:

    * `delta(o) = d0 + |{x ∈ g : x < o}|` and `from_log_offset(o) = o - delta(o)`;
    * that count is non-decreasing and grows by at most one per offset;
    * a further `truncate(t)` that succeeds keeps `delta(o)` for every `o < t`,
      a `prefix_truncate(p)` that succeeds keeps it for every `o > p`, and an
      `add_gap(b, l)` that succeeds keeps it for every `o ≤ b`. -/
theorem delta_eq_reference_count (b0 d0 : Int) (ops : List Op)
    (hops : ∀ op ∈ ops, op.Valid) :
    ∃ k i rest, (runFrom b0 d0 ops).1 = (k, i) :: rest ∧
      (∀ o, k < o →
        delta (runFrom b0 d0 ops).1 o = .ok (d0 + gapCount (runFrom b0 d0 ops).2 o) ∧
        fromLogOffset (runFrom b0 d0 ops).1 o
          = .ok (o - (d0 + gapCount (runFrom b0 d0 ops).2 o))) ∧
      (∀ o o', o ≤ o' → gapCount (runFrom b0 d0 ops).2 o ≤ gapCount (runFrom b0 d0 ops).2 o') ∧
      (∀ o, gapCount (runFrom b0 d0 ops).2 (o + 1) ≤ gapCount (runFrom b0 d0 ops).2 o + 1) ∧
      (∀ t r m', truncate (runFrom b0 d0 ops).1 t = .ok (r, m') →
        ∀ o, o < t → delta m' o = delta (runFrom b0 d0 ops).1 o) ∧
      (∀ p r m', prefixTruncate (runFrom b0 d0 ops).1 p = .ok (r, m') →
        ∀ o, p < o → delta m' o = delta (runFrom b0 d0 ops).1 o) ∧
      (∀ base last m', base ≤ last → addGap (runFrom b0 d0 ops).1 base last = .ok m' →
        ∀ o, o ≤ base → delta m' o = delta (runFrom b0 d0 ops).1 o) := by
  have hrep := represents_runFrom b0 d0 ops hops
  generalize runFrom b0 d0 ops = s at hrep ⊢
  obtain ⟨m, g⟩ := s
  match m, hrep with
  | (k, i) :: rest, hrep =>
      have hsep : Separated g := hrep.2.1
      refine ⟨k, i, rest, rfl, ?_, fun o o' h => gapCount_mono g h,
        fun o => gapCount_succ_le hsep o, ?_, ?_, ?_⟩
      · intro o ho
        have hdelta := delta_eq_of_represents hrep ho
        refine ⟨hdelta, ?_⟩
        simp [fromLogOffset, hdelta]
      · intro t r m' hr o ho
        exact delta_truncate_frame hrep.1 hr ho
      · intro p r m' hr o ho
        exact delta_prefixTruncate_frame hrep.1 hr ho
      · intro base last m' hbl hr o ho
        exact delta_addGap_frame hrep hbl hr ho

theorem delta_eq_reference_count_mixed_run :
    (∀ op ∈ [Op.addGap 3 4, .prefixTruncate 5, .addGap 7 7, .truncate 7, .addGap 9 10], op.Valid) ∧
    ∃ k i rest, (runFrom 0 0 [Op.addGap 3 4, .prefixTruncate 5, .addGap 7 7, .truncate 7, .addGap 9 10]).1 = (k, i) :: rest ∧
      (∀ o, k < o →
        delta (runFrom 0 0 [Op.addGap 3 4, .prefixTruncate 5, .addGap 7 7, .truncate 7, .addGap 9 10]).1 o = .ok (0 + gapCount (runFrom 0 0 [Op.addGap 3 4, .prefixTruncate 5, .addGap 7 7, .truncate 7, .addGap 9 10]).2 o) ∧
        fromLogOffset (runFrom 0 0 [Op.addGap 3 4, .prefixTruncate 5, .addGap 7 7, .truncate 7, .addGap 9 10]).1 o = .ok (o - (0 + gapCount (runFrom 0 0 [Op.addGap 3 4, .prefixTruncate 5, .addGap 7 7, .truncate 7, .addGap 9 10]).2 o))) ∧
      (∀ o o', o ≤ o' → gapCount (runFrom 0 0 [Op.addGap 3 4, .prefixTruncate 5, .addGap 7 7, .truncate 7, .addGap 9 10]).2 o ≤ gapCount (runFrom 0 0 [Op.addGap 3 4, .prefixTruncate 5, .addGap 7 7, .truncate 7, .addGap 9 10]).2 o') ∧
      (∀ o, gapCount (runFrom 0 0 [Op.addGap 3 4, .prefixTruncate 5, .addGap 7 7, .truncate 7, .addGap 9 10]).2 (o + 1) ≤ gapCount (runFrom 0 0 [Op.addGap 3 4, .prefixTruncate 5, .addGap 7 7, .truncate 7, .addGap 9 10]).2 o + 1) ∧
      (∀ t r m', truncate (runFrom 0 0 [Op.addGap 3 4, .prefixTruncate 5, .addGap 7 7, .truncate 7, .addGap 9 10]).1 t = .ok (r, m') →
        ∀ o, o < t → delta m' o = delta (runFrom 0 0 [Op.addGap 3 4, .prefixTruncate 5, .addGap 7 7, .truncate 7, .addGap 9 10]).1 o) ∧
      (∀ p r m', prefixTruncate (runFrom 0 0 [Op.addGap 3 4, .prefixTruncate 5, .addGap 7 7, .truncate 7, .addGap 9 10]).1 p = .ok (r, m') →
        ∀ o, p < o → delta m' o = delta (runFrom 0 0 [Op.addGap 3 4, .prefixTruncate 5, .addGap 7 7, .truncate 7, .addGap 9 10]).1 o) ∧
      (∀ base last m', base ≤ last → addGap (runFrom 0 0 [Op.addGap 3 4, .prefixTruncate 5, .addGap 7 7, .truncate 7, .addGap 9 10]).1 base last = .ok m' →
        ∀ o, o ≤ base → delta m' o = delta (runFrom 0 0 [Op.addGap 3 4, .prefixTruncate 5, .addGap 7 7, .truncate 7, .addGap 9 10]).1 o) :=
  ⟨by decide, delta_eq_reference_count 0 0 _ (by decide)⟩

end OffsetTranslatorReference
