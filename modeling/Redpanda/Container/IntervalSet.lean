import Redpanda.Lib.OrderedMap
import Redpanda.Lib.IntervalCover

/-! # `interval_set`: a canonical set of half-open intervals

    Model of `container/interval_set.h`.  An `interval_set<T>` keeps its
    intervals in a B-tree map `set_` from the start of each interval
    (inclusive) to its end (exclusive); here an `OrderedMap Int Int`, with
    an iterator a position in its entries and `end()` at `size()`.  The
    values of `T` are integers: for an `insert` whose `start + length` does
    not overflow `T`, which the class assumes, each comparison, `std::max`
    and the one addition compute in `Int` what they compute in `T`.

    `insert` tells three cases apart: an interval that starts at the same
    point is widened; otherwise the previous interval is widened when it
    reaches the new start, exact adjacency included; otherwise the interval
    is emplaced.  In each case `merge_right` then swallows every following
    interval that starts at or before the merged end.

    The abstract model is the set of integers the stored intervals cover.
    `merge_right` is specified once (`mergeRight_of_split`,
    `mergeRight_spec`), every case of `insert` comes to it, and so `insert`
    keeps the map separated (non-empty intervals, each ending before the
    next one starts) and adds exactly the inserted interval to what is
    covered (`insert_spec`).  Every state that inserts and erases of stored
    intervals reach from the empty set is separated and covers what those
    operations say (`Reachable.separated_cover`), and on a separated map
    `find` returns the stored interval that holds the index, or `end()`
    (`find_spec`). -/

namespace Container

open IntervalCover

/-- `interval_set<T>::interval`. -/
structure Interval where
  start : Int
  length : Int
deriving DecidableEq, Repr

/-- `interval_set<T>`: the map `set_` from the start of each interval to
    its end. -/
structure IntervalSet where
  set : OrderedMap Int Int

namespace IntervalSet

/-- A set with no intervals. -/
def empty : IntervalSet := ⟨OrderedMap.empty⟩

/-- `size()`, also the position of `end()`. -/
def size (s : IntervalSet) : Nat := s.set.entries.length

/-- `to_end(it) = v`. -/
def setEnd (s : IntervalSet) (it : Nat) (v : Int) : IntervalSet := ⟨s.set.setValue it v⟩

/-- `set_.emplace(k, v)`. -/
def emplace (s : IntervalSet) (k v : Int) : IntervalSet × Nat × Bool :=
  let ret := s.set.emplace k v
  (⟨ret.1⟩, ret.2)

/-- The loop of `merge_right`: over the entries after the start iterator,
    how many start at or before the merged end, which widens as they are
    passed, and the merged end they leave. -/
def seekMerge (mergedEnd : Int) : List (Int × Int) → Nat × Int
  | [] => (0, mergedEnd)
  | e :: rest =>
    -- `<=`: an interval that starts exactly at the merged end is merged too
    if e.1 ≤ mergedEnd then
      let r := seekMerge (max e.2 mergedEnd) rest
      (r.1 + 1, r.2)
    else (0, mergedEnd)

/-- `merge_right`: extends the interval at `startIt` with every following
    interval that overlaps or touches it. -/
def mergeRight (s : IntervalSet) (startIt : Nat) : IntervalSet × Nat × Bool :=
  match s.set.entries[startIt]? with
  | some (start, mergedEnd) =>
    let r := seekMerge mergedEnd (s.set.entries.drop (startIt + 1))
    -- `merge_end_it == next_it`: nothing to merge
    if r.1 = 0 then (s, startIt, true)
    else (⟨s.set.eraseRange startIt (r.1 + 1)⟩ : IntervalSet).emplace start r.2
  -- `merge_right` is only called at an interval
  | none => (s, startIt, true)

/-- The cases of `insert` past an interval that starts at the same point:
    the previous interval, when it reaches the start, is widened; otherwise
    the interval is emplaced.  Either way the result is merged forward. -/
def mergeLeftOrEmplace (s : IntervalSet) (it : Nat) (inputStart inputEnd : Int) :
    IntervalSet × Nat × Bool :=
  let fresh := let ret := s.emplace inputStart inputEnd; ret.1.mergeRight ret.2.1
  if it = 0 then fresh
  else
    match s.set.entries[it - 1]? with
    | some (_, prevEnd) =>
      if prevEnd ≥ inputStart then (s.setEnd (it - 1) (max inputEnd prevEnd)).mergeRight (it - 1)
      else fresh
    | none => fresh

/-- `insert`: fails, at `end()`, for an empty interval; otherwise returns
    the position of the stored interval that holds the inserted one. -/
def insert (s : IntervalSet) (interval : Interval) : IntervalSet × Nat × Bool :=
  let length := interval.length
  if length ≤ 0 then (s, s.size, false)
  else
    let inputStart := interval.start
    let inputEnd := inputStart + length
    if s.set.entries = [] then s.emplace inputStart inputEnd
    else
      let it := (s.set.before inputStart).length
      match s.set.entries[it]? with
      | some (start, stop) =>
        if inputStart = start then (s.setEnd it (max inputEnd stop)).mergeRight it
        else s.mergeLeftOrEmplace it inputStart inputEnd
      | none => s.mergeLeftOrEmplace it inputStart inputEnd

/-- The end of `find`, at the last interval that starts below the index:
    it is the answer when the index is below its end. -/
def findBefore (s : IntervalSet) (it : Nat) (index : Int) : Nat :=
  match s.set.entries[it]? with
  | some (_, stop) => if index < stop then it else s.size
  | none => s.size

/-- `find`: the position of the stored interval that holds `index`, or
    `end()`. -/
def find (s : IntervalSet) (index : Int) : Nat :=
  let it := (s.set.before index).length
  match s.set.entries[it]? with
  | none => if s.set.entries = [] then s.size else s.findBefore (it - 1) index
  | some (start, _) =>
    if start = index then it
    else if it = 0 then s.size
    else s.findBefore (it - 1) index

/-- `erase(it)`. -/
def erase (s : IntervalSet) (it : Nat) : IntervalSet := ⟨s.set.eraseRange it 1⟩

/-! ## The abstract model -/

/-- The integers the stored intervals cover. -/
def cover (s : IntervalSet) : Set Int := IntervalCover.cover s.set.entries

/-- The stored interval at position `it` holds `x`. -/
def Holds (s : IntervalSet) (it : Nat) (x : Int) : Prop :=
  ∃ p, s.set.entries[it]? = some p ∧ x ∈ Set.Ico p.1 p.2

/-! ## The seek loop of `merge_right` -/

section SeekMerge

variable {e : Int} {q : Int × Int} {Q : List (Int × Int)}

theorem seekMerge_cons_of_le (h : q.1 ≤ e) :
    seekMerge e (q :: Q) = ((seekMerge (max q.2 e) Q).1 + 1, (seekMerge (max q.2 e) Q).2) := by
  simp only [seekMerge, if_pos h]

theorem seekMerge_cons_of_lt (h : e < q.1) : seekMerge e (q :: Q) = (0, e) := by
  simp only [seekMerge, if_neg (not_le.2 h)]

/-- The merged end only grows. -/
theorem le_seekMerge : ∀ {e : Int} {Q : List (Int × Int)}, e ≤ (seekMerge e Q).2
  | _, [] => le_rfl
  | e, q :: Q => by
    by_cases h : q.1 ≤ e
    · rw [seekMerge_cons_of_le h]
      exact le_trans (le_max_right _ _) le_seekMerge
    · rw [seekMerge_cons_of_lt (not_le.1 h)]

/-- A loop that passes nothing leaves the end as it was. -/
theorem seekMerge_snd_of_fst_eq_zero (h : (seekMerge e Q).1 = 0) : (seekMerge e Q).2 = e := by
  cases Q with
  | nil => rfl
  | cons q Q =>
    by_cases hq : q.1 ≤ e
    · rw [seekMerge_cons_of_le hq] at h
      cases h
    · rw [seekMerge_cons_of_lt (not_le.1 hq)]

/-- The loop stops at an interval that starts past the merged end. -/
theorem lt_of_mem_head?_drop_seekMerge : ∀ {e : Int} {Q : List (Int × Int)},
    ∀ q ∈ (Q.drop (seekMerge e Q).1).head?, (seekMerge e Q).2 < q.1
  | _, [] => by simp
  | e, q :: Q => by
    by_cases h : q.1 ≤ e
    · rw [seekMerge_cons_of_le h, List.drop_succ_cons]
      exact lt_of_mem_head?_drop_seekMerge
    · rw [seekMerge_cons_of_lt (not_le.1 h), List.drop_zero, List.head?_cons]
      rintro r ⟨⟩
      exact not_le.1 h

/-- What the loop passes, joined to `[a, e)`, is `[a, E)` for the merged
    end `E`, when every interval passed starts at or after `a`. -/
theorem Ico_union_cover_take_seekMerge {a : Int} : ∀ {e : Int} {Q : List (Int × Int)},
    a ≤ e → (∀ q ∈ Q, a ≤ q.1 ∧ q.1 < q.2) →
    Set.Ico a e ∪ IntervalCover.cover (Q.take (seekMerge e Q).1) = Set.Ico a (seekMerge e Q).2
  | _, [], _, _ => by simp [seekMerge]
  | e, q :: Q, hae, hQ => by
    obtain ⟨haq, hq⟩ := hQ q List.mem_cons_self
    by_cases h : q.1 ≤ e
    · have ih := Ico_union_cover_take_seekMerge (e := max q.2 e) (Q := Q)
        (le_trans hae (le_max_right _ _)) (fun r hr => hQ r (List.mem_cons_of_mem _ hr))
      -- the interval passed and `[a, e)` overlap or touch: their union is an interval
      have hjoin : Set.Ico a e ∪ Set.Ico q.1 q.2 = Set.Ico a (max q.2 e) := by
        rw [Set.Ico_union_Ico' h (le_trans haq hq.le), min_eq_left haq, max_comm]
      rw [seekMerge_cons_of_le h, List.take_succ_cons, cover_cons, ← Set.union_assoc, hjoin]
      exact ih
    · simp [seekMerge_cons_of_lt (not_le.1 h)]

end SeekMerge

/-! ## `merge_right` -/

section MergeRight

variable {s : IntervalSet} {P Q : List (Int × Int)} {a e : Int}

/-- What `merge_right` does at an interval `(a, e)`: the intervals after it
    that the loop passes are erased, and `(a, E)` takes their place and its
    own, with `E` the merged end. -/
theorem mergeRight_of_split (h : s.set.entries = P ++ (a, e) :: Q) :
    (s.mergeRight P.length).1.set.entries =
        P ++ (a, (seekMerge e Q).2) :: Q.drop (seekMerge e Q).1 ∧
      (s.mergeRight P.length).2 = (P.length, true) := by
  have hget : s.set.entries[P.length]? = some (a, e) := by
    rw [h, List.getElem?_append_right le_rfl, Nat.sub_self, List.getElem?_cons_zero]
  have hdrop : s.set.entries.drop (P.length + 1) = Q := by
    rw [h, ← List.singleton_append, ← List.append_assoc, List.drop_left' (by simp)]
  simp only [mergeRight, hget, hdrop]
  split_ifs with hn
  · -- nothing merged: the map is as it was
    rw [seekMerge_snd_of_fst_eq_zero hn, hn, List.drop_zero]
    exact ⟨h, rfl⟩
  · obtain ⟨hlt, hgt⟩ := OrderedMap.lt_of_split h
    have herase : (s.set.eraseRange P.length ((seekMerge e Q).1 + 1)).entries =
        P ++ Q.drop (seekMerge e Q).1 := by
      rw [OrderedMap.eraseRange_of_split h, List.drop_succ_cons]
    exact OrderedMap.emplace_of_split herase hlt
      (fun q hq => hgt q (List.mem_of_mem_drop hq)) _

/-- `merge_right` at an interval of a separated map, whose own end may have
    grown past the next start: the result is separated, covers what was
    covered, and its returned interval keeps the start and ends no
    earlier. -/
theorem mergeRight_spec (h : s.set.entries = P ++ (a, e) :: Q) (hl : Separated (P ++ [(a, e)]))
    (hr : Separated Q) :
    Separated (s.mergeRight P.length).1.set.entries ∧ (s.mergeRight P.length).1.cover = s.cover ∧
      (s.mergeRight P.length).2.2 = true ∧
      ∃ E, e ≤ E ∧ (s.mergeRight P.length).1.set.entries[(s.mergeRight P.length).2.1]? = some (a, E) := by
  obtain ⟨hentries, hret⟩ := mergeRight_of_split h
  have hQ : ∀ q ∈ Q, a ≤ q.1 ∧ q.1 < q.2 := fun q hq =>
    ⟨((OrderedMap.lt_of_split h).2 q hq).le, hr.nonempty q hq⟩
  have hae : a < e := hl.nonempty (a, e) (List.mem_append_right _ (List.mem_singleton_self _))
  refine ⟨?_, ?_, by rw [hret], (seekMerge e Q).2, le_seekMerge, ?_⟩
  · rw [hentries]
    exact hl.join le_seekMerge (hr.sublist (List.drop_sublist _ _)) lt_of_mem_head?_drop_seekMerge
  · -- the merged interval covers the one it started from and those it swallowed
    rw [cover, cover, hentries, h, cover_append, cover_append, cover_cons, cover_cons,
      ← Ico_union_cover_take_seekMerge hae.le hQ, Set.union_assoc, ← cover_append,
      List.take_append_drop]
  · rw [hret, hentries, List.getElem?_append_right le_rfl, Nat.sub_self, List.getElem?_cons_zero]

end MergeRight

/-! ## `insert` -/

/-- What an `insert` of `[start, stop)` into `s` returns: a separated map
    that covers the interval besides what `s` covered, and the position of a
    stored interval that holds the interval. -/
structure Inserted (s : IntervalSet) (start stop : Int) (r : IntervalSet × Nat × Bool) : Prop where
  separated : Separated r.1.set.entries
  cover_eq : r.1.cover = s.cover ∪ Set.Ico start stop
  inserted : r.2.2 = true
  holds : ∃ a b, r.1.set.entries[r.2.1]? = some (a, b) ∧ a ≤ start ∧ stop ≤ b

section Insert

variable {s s' : IntervalSet} {L R : List (Int × Int)} {a b start stop : Int}

/-- Every case of `insert` but the first ends in `merge_right` at an
    interval that starts no later than the inserted one and ends no
    earlier. -/
theorem inserted_mergeRight {e : Int} (h : s'.set.entries = L ++ (a, e) :: R)
    (hl : Separated (L ++ [(a, e)])) (hr : Separated R)
    (hcover : s'.cover = s.cover ∪ Set.Ico start stop) (ha : a ≤ start) (he : stop ≤ e) :
    Inserted s start stop (s'.mergeRight L.length) := by
  obtain ⟨hsep, hcov, hins, E, hE, hget⟩ := mergeRight_spec h hl hr
  exact ⟨hsep, hcov.trans hcover, hins, a, E, hget, ha, le_trans he hE⟩

/-- An interval that starts inside a stored interval, at its start or right
    at its end, widens it (the first two cases of `insert`). -/
theorem inserted_of_widen (hs : Separated s.set.entries) (h : s.set.entries = L ++ (a, b) :: R)
    (ha : a ≤ start) (hb : start ≤ b) (hlt : start < stop) :
    Inserted s start stop ((s.setEnd L.length (max stop b)).mergeRight L.length) := by
  have hset := OrderedMap.setValue_of_split h (max stop b)
  have hl : Separated (L ++ [(a, b)]) := hs.sublist (by rw [h]; simp)
  have hr : Separated R := hs.sublist (by rw [h]; exact List.sublist_append_of_sublist_right (List.sublist_cons_self _ _))
  refine inserted_mergeRight hset (hl.widen_last (le_max_right _ _)) hr ?_ ha (le_max_left _ _)
  -- the widened interval is the old one and the inserted one together
  have hjoin : Set.Ico a (max stop b) = Set.Ico a b ∪ Set.Ico start stop := by
    rw [Set.Ico_union_Ico' hb (le_trans ha hlt.le), min_eq_left ha, max_comm]
  show IntervalCover.cover (s.set.setValue L.length (max stop b)).entries =
    IntervalCover.cover s.set.entries ∪ _
  rw [hset, h, cover_append, cover_append, cover_cons, cover_cons, hjoin]
  ext x
  simp only [Set.mem_union]
  tauto

/-- An interval that meets no stored interval at or before its start is
    emplaced between its neighbours (the last case of `insert`). -/
theorem inserted_of_emplace (hs : Separated s.set.entries) (h : s.set.entries = L ++ R)
    (hl : Separated (L ++ [(start, stop)])) (hR : ∀ q ∈ R, start < q.1) :
    Inserted s start stop (let ret := s.emplace start stop; ret.1.mergeRight ret.2.1) := by
  -- every interval before ends, so starts, below the inserted one
  have hL : ∀ p ∈ L, p.1 < start := fun p hp =>
    lt_trans (hl.nonempty p (List.mem_append_left _ hp))
      ((List.pairwise_append.1 hl.pairwise).2.2 p hp _ (List.mem_singleton_self _))
  obtain ⟨hentries, hret⟩ := OrderedMap.emplace_of_split h hL hR stop
  have hpos : (s.emplace start stop).2.1 = L.length := congrArg Prod.fst hret
  show Inserted s start stop ((s.emplace start stop).1.mergeRight (s.emplace start stop).2.1)
  rw [hpos]
  have hr : Separated R := hs.sublist (by rw [h]; exact List.sublist_append_right _ _)
  refine inserted_mergeRight hentries hl hr ?_ le_rfl le_rfl
  show IntervalCover.cover (s.set.emplace start stop).1.entries = _
  rw [hentries, cover, h, cover_append, cover_append, cover_cons]
  ext x
  simp only [Set.mem_union]
  tauto

/-- The cases past an interval that starts at the same point: the previous
    interval is widened when it reaches the start, or the interval is
    emplaced. -/
theorem inserted_mergeLeftOrEmplace (hs : Separated s.set.entries) (h : s.set.entries = L ++ R)
    (hL : ∀ p ∈ L, p.1 < start) (hR : ∀ q ∈ R, start < q.1) (hlt : start < stop) :
    Inserted s start stop (s.mergeLeftOrEmplace L.length start stop) := by
  rcases L.eq_nil_or_concat with rfl | ⟨L, ⟨a, b⟩, rfl⟩
  · -- no previous interval
    simp only [mergeLeftOrEmplace, List.length_nil]
    exact inserted_of_emplace hs h (separated_singleton hlt) hR
  · have h' : s.set.entries = L ++ (a, b) :: R := by rw [h, List.concat_eq_append, List.append_assoc]; rfl
    have hget : s.set.entries[L.length]? = some (a, b) := by
      rw [h', List.getElem?_append_right le_rfl, Nat.sub_self, List.getElem?_cons_zero]
    simp only [mergeLeftOrEmplace, List.length_concat, Nat.add_sub_cancel, hget,
      Nat.succ_ne_zero, if_false]
    split_ifs with hb
    · exact inserted_of_widen hs h' (hL (a, b) (by simp)).le hb hlt
    · -- the previous interval ends before the start: it stays apart
      have hl : Separated (L ++ [(a, b)]) := hs.sublist (by rw [h']; simp)
      have hl' : Separated ((L ++ [(a, b)]) ++ [(start, stop)]) := by
        rw [List.append_assoc]
        exact hl.join le_rfl (separated_singleton hlt) (by simpa using hb)
      rw [List.concat_eq_append] at h
      exact inserted_of_emplace hs h hl' hR

/-- **`insert` of a non-empty interval** keeps the map separated, adds
    exactly the interval to what is covered, and returns a stored interval
    that holds it. -/
theorem insert_spec (hs : Separated s.set.entries) (i : Interval) (hi : 0 < i.length) :
    Inserted s i.start (i.start + i.length) (s.insert i) := by
  have hlt : i.start < i.start + i.length := by omega
  simp only [insert, if_neg (not_le.2 hi)]
  split_ifs with hnil
  · -- the empty map: the interval is emplaced alone
    obtain ⟨hentries, hret⟩ := OrderedMap.emplace_of_split (P := []) (Q := []) (k := i.start)
      (by rw [hnil]; rfl) (by simp) (by simp) (i.start + i.length)
    refine ⟨?_, ?_, congrArg (·.2) hret, i.start, i.start + i.length, ?_, le_rfl, le_rfl⟩
    · show Separated (s.set.emplace _ _).1.entries
      rw [hentries]
      exact separated_singleton hlt
    · show IntervalCover.cover (s.set.emplace _ _).1.entries = _
      rw [hentries, cover, hnil]
      simp
    · show (s.set.emplace _ _).1.entries[(s.set.emplace _ _).2.1]? = _
      rw [hentries, congrArg Prod.fst hret]
      rfl
  · -- split the entries at `lower_bound(start)`
    have hsplit := (s.set.before_append_lowerBound i.start).symm
    have hL : ∀ p ∈ s.set.before i.start, p.1 < i.start := fun p hp => s.set.lt_of_mem_before _ hp
    have hget : s.set.entries[(s.set.before i.start).length]? = (s.set.lowerBound i.start).head? := by
      rw [hsplit, List.getElem?_append_right le_rfl, Nat.sub_self, List.head?_eq_getElem?]
    rw [hget]
    rcases hR : s.set.lowerBound i.start with _ | ⟨⟨k, w⟩, R⟩
    · rw [hR] at hsplit
      exact inserted_mergeLeftOrEmplace hs hsplit hL (by simp) hlt
    · rw [hR] at hsplit
      have hk : i.start ≤ k := s.set.le_of_mem_lowerBound _ (by rw [hR]; exact List.mem_cons_self)
      simp only [List.head?_cons]
      split_ifs with heq
      · -- an interval starts at the same point
        subst heq
        exact inserted_of_widen hs hsplit le_rfl (hs.nonempty (i.start, w) (by rw [hsplit]; simp)).le hlt
      · have hR' : ∀ q ∈ (k, w) :: R, i.start < q.1 := by
          intro q hq
          rcases List.mem_cons.1 hq with rfl | hq
          · exact lt_of_le_of_ne hk heq
          · exact lt_of_le_of_lt hk ((OrderedMap.lt_of_split hsplit).2 q hq)
        exact inserted_mergeLeftOrEmplace hs hsplit hL hR' hlt

/-- `insert` of an empty interval fails at `end()` and changes nothing. -/
theorem insert_of_nonpos (s : IntervalSet) (i : Interval) (hi : i.length ≤ 0) :
    s.insert i = (s, s.size, false) := by
  simp only [insert, if_pos hi]

end Insert

/-! ## `erase` -/

/-- `erase(it)` of a stored interval keeps the map separated and uncovers
    exactly that interval. -/
theorem erase_spec {s : IntervalSet} (hs : Separated s.set.entries) {it : Nat} {p : Int × Int}
    (hp : s.set.entries[it]? = some p) :
    Separated (s.erase it).set.entries ∧ (s.erase it).cover = s.cover \ Set.Ico p.1 p.2 := by
  have heq : (s.erase it).set.entries = s.set.entries.eraseIdx it :=
    (List.eraseIdx_eq_take_drop_succ _ _).symm
  rw [cover, cover, heq]
  exact ⟨hs.sublist (List.eraseIdx_sublist _ _), hs.cover_eraseIdx hp⟩

/-! ## `find` -/

section Find

variable {s : IntervalSet}

theorem Holds.mem_cover {it : Nat} {x : Int} (h : s.Holds it x) : x ∈ s.cover := by
  obtain ⟨p, hp, hx⟩ := h
  exact ⟨p, List.mem_of_getElem? hp, hx⟩

/-- The end of `find`, at an interval `(a, b)` that starts at or below the
    index with every later one starting above it. -/
theorem findBefore_holds_or (hs : Separated s.set.entries) {L R : List (Int × Int)} {a b x : Int}
    (h : s.set.entries = L ++ (a, b) :: R) (ha : a ≤ x) (hR : ∀ q ∈ R, x < q.1) :
    s.Holds (s.findBefore L.length x) x ∨ (s.findBefore L.length x = s.size ∧ x ∉ s.cover) := by
  have hget : s.set.entries[L.length]? = some (a, b) := by
    rw [h, List.getElem?_append_right le_rfl, Nat.sub_self, List.getElem?_cons_zero]
  simp only [findBefore, hget]
  split_ifs with hx
  · exact .inl ⟨(a, b), hget, ha, hx⟩
  · -- past the end of `(a, b)` and below every later start
    refine .inr ⟨rfl, ?_⟩
    have hl : Separated (L ++ [(a, b)]) := hs.sublist (by rw [h]; simp)
    rw [cover, h, ← List.singleton_append, ← List.append_assoc, cover_append, Set.mem_union]
    rintro (hmem | hmem)
    · exact hl.not_mem_cover_of_le (not_lt.1 hx) hmem
    · exact not_mem_cover_of_lt hR hmem

/-- `find` lands on a stored interval that holds the index, or at `end()`
    when the index is not covered. -/
theorem find_holds_or (hs : Separated s.set.entries) (x : Int) :
    s.Holds (s.find x) x ∨ (s.find x = s.size ∧ x ∉ s.cover) := by
  -- split the entries at `lower_bound(x)`
  have hsplit := (s.set.before_append_lowerBound x).symm
  have hL : ∀ p ∈ s.set.before x, p.1 < x := fun p hp => s.set.lt_of_mem_before _ hp
  have hget : s.set.entries[(s.set.before x).length]? = (s.set.lowerBound x).head? := by
    rw [hsplit, List.getElem?_append_right le_rfl, Nat.sub_self, List.head?_eq_getElem?]
  simp only [find, hget]
  -- the last interval that starts below `x`, when there is one
  have hprev : ∀ R : List (Int × Int), s.set.entries = s.set.before x ++ R → (∀ q ∈ R, x < q.1) →
      s.set.before x ≠ [] →
      s.Holds (s.findBefore ((s.set.before x).length - 1) x) x ∨
        (s.findBefore ((s.set.before x).length - 1) x = s.size ∧ x ∉ s.cover) := by
    intro R h hR hne
    obtain ⟨L, ⟨a, b⟩, hLab⟩ := List.eq_nil_or_concat (s.set.before x) |>.resolve_left hne
    have ha : a < x := hL (a, b) (by rw [hLab]; simp)
    rw [hLab, List.length_concat, Nat.add_sub_cancel]
    rw [hLab, List.concat_eq_append, List.append_assoc, List.singleton_append] at h
    exact findBefore_holds_or hs h ha.le hR
  rcases hR : s.set.lowerBound x with _ | ⟨⟨k, w⟩, R⟩
  · rw [hR] at hsplit
    simp only [List.head?_nil]
    split_ifs with hnil
    · -- the empty map covers nothing
      exact .inr ⟨rfl, by simp [cover, hnil]⟩
    · exact hprev [] hsplit (by simp) (by rintro hb; rw [hb] at hsplit; exact hnil hsplit)
  · rw [hR] at hsplit
    have hk : x ≤ k := s.set.le_of_mem_lowerBound _ (by rw [hR]; exact List.mem_cons_self)
    have hR' : ∀ q ∈ (k, w) :: R, k ≠ x → x < q.1 := by
      intro q hq hne
      rcases List.mem_cons.1 hq with rfl | hq
      · exact lt_of_le_of_ne hk hne.symm
      · exact lt_of_le_of_lt hk ((OrderedMap.lt_of_split hsplit).2 q hq)
    simp only [List.head?_cons]
    split_ifs with heq hzero
    · -- an interval starts at the index
      subst heq
      have hw : k < w := hs.nonempty (k, w) (by rw [hsplit]; simp)
      refine .inl ⟨(k, w), ?_, le_rfl, hw⟩
      rw [hsplit, List.getElem?_append_right le_rfl, Nat.sub_self, List.getElem?_cons_zero]
    · -- every interval starts above the index
      rw [List.length_eq_zero_iff] at hzero
      rw [hzero, List.nil_append] at hsplit
      refine .inr ⟨rfl, ?_⟩
      rw [cover, hsplit]
      exact not_mem_cover_of_lt fun q hq => hR' q hq heq
    · exact hprev _ hsplit (fun q hq => hR' q hq heq) (fun hb => hzero (by rw [hb]; rfl))

/-- **`find`** returns the stored interval that holds the index, and
    `end()` when no stored interval does. -/
theorem find_spec (hs : Separated s.set.entries) (x : Int) :
    (∀ it, s.Holds it x → s.find x = it) ∧ (x ∉ s.cover → s.find x = s.size) := by
  rcases find_holds_or hs x with hfind | ⟨hfind, hx⟩
  · refine ⟨fun it hit => ?_, fun hx => absurd hfind.mem_cover hx⟩
    -- the intervals of a separated map are disjoint
    obtain ⟨p, hp, hxp⟩ := hfind
    obtain ⟨q, hq, hxq⟩ := hit
    exact hs.index_unique hp hq hxp hxq
  · exact ⟨fun it hit => absurd hit.mem_cover hx, fun _ => hfind⟩

end Find

/-! ## Runs -/

/-- The states that `insert` and `erase` of stored intervals reach from the
    empty set, with the set of integers those operations say is covered:
    an insert adds its interval, empty or not, and an erase takes out the
    interval at its iterator. -/
inductive Reachable : IntervalSet → Set Int → Prop
  | empty : Reachable empty ∅
  | insert {s : IntervalSet} {S : Set Int} (i : Interval) :
      Reachable s S → Reachable (s.insert i).1 (S ∪ Set.Ico i.start (i.start + i.length))
  | erase {s : IntervalSet} {S : Set Int} {it : Nat} {p : Int × Int} :
      Reachable s S → s.set.entries[it]? = some p → Reachable (s.erase it) (S \ Set.Ico p.1 p.2)

/-- Every reachable map is separated and covers what its operations say. -/
theorem Reachable.separated_cover {s : IntervalSet} {S : Set Int} (h : Reachable s S) :
    Separated s.set.entries ∧ s.cover = S := by
  induction h with
  | empty => exact ⟨separated_nil, cover_nil⟩
  | @insert s S i _ ih =>
    by_cases hi : 0 < i.length
    · have hins := insert_spec ih.1 i hi
      exact ⟨hins.separated, by rw [hins.cover_eq, ih.2]⟩
    · -- an empty interval leaves the map, and adds nothing
      rw [insert_of_nonpos s i (not_lt.1 hi), Set.Ico_eq_empty (by omega), Set.union_empty]
      exact ih
  | erase _ hp ih =>
    obtain ⟨hsep, hcov⟩ := erase_spec ih.1 hp
    exact ⟨hsep, by rw [hcov, ih.2]⟩

/-- **`interval_set` keeps a canonical disjoint cover.**  On every state
    that inserts and erases of stored intervals reach: the stored intervals
    are non-empty, sorted (the map's keys increase) and each ends strictly
    before the next starts; they cover exactly what was inserted less what
    was erased; `insert` fails, at `end()` and changing nothing, exactly for
    an empty interval, and otherwise returns a stored interval that holds
    the inserted one; and `find` returns the stored interval that holds the
    index, or `end()` when none does. -/
theorem interval_set_canonical_cover {s : IntervalSet} {S : Set Int} (h : Reachable s S) :
    Separated s.set.entries ∧ s.cover = S ∧
      (∀ i : Interval, (i.length ≤ 0 → s.insert i = (s, s.size, false)) ∧
        (0 < i.length → (s.insert i).2.2 = true ∧
          ∃ a b, (s.insert i).1.set.entries[(s.insert i).2.1]? = some (a, b) ∧
            a ≤ i.start ∧ i.start + i.length ≤ b)) ∧
      (∀ x it, s.Holds it x → s.find x = it) ∧ (∀ x, x ∉ s.cover → s.find x = s.size) := by
  obtain ⟨hsep, hcov⟩ := h.separated_cover
  refine ⟨hsep, hcov, fun i => ⟨insert_of_nonpos s i, fun hi => ?_⟩,
    fun x => (find_spec hsep x).1, fun x => (find_spec hsep x).2⟩
  have hins := insert_spec hsep i hi
  exact ⟨hins.inserted, hins.holds⟩

/-- The example of the header: inserting `[50, 100)`, `[300, 400)`,
    `[200, 500)` and `[100, 150)` leaves `{[50, 150), [200, 500)}`; `find`
    lands on the first interval at 120 and at `end()` at 170, in the gap. -/
theorem interval_set_canonical_cover_header :
    let s := ((((empty.insert ⟨50, 50⟩).1.insert ⟨300, 100⟩).1.insert ⟨200, 300⟩).1.insert
      ⟨100, 50⟩).1
    s.set.entries = [(50, 150), (200, 500)] ∧ s.find 120 = 0 ∧ s.find 170 = 2 := by
  intro s
  have hr : Reachable s _ := .insert _ (.insert _ (.insert _ (.insert _ .empty)))
  obtain ⟨-, hcov, -, hfind, hend⟩ := interval_set_canonical_cover hr
  refine ⟨by decide, hfind 120 0 ⟨(50, 150), by decide, by decide⟩, hend 170 ?_⟩
  -- 170 lies between what the inserts covered
  rw [hcov]
  simp

end IntervalSet

end Container
