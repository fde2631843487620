import Mathlib

/-! # Finite unions of half-open intervals

    A list of pairs `(a, b)` stands for the union of the intervals `[a, b)`
    it holds, its `cover`.  The list is *separated* when every interval is
    non-empty and each one ends strictly before the next one starts: the
    canonical form of a finite union, in which intervals that overlap or
    touch have been merged into one.

    What the proofs about such lists use:
    * `cover` distributes over `::` and `++` (`cover_cons`, `cover_append`);
    * in a separated list every interval ends before each later one starts
      (`Separated.pairwise`), so a point lies in at most one of them
      (`Separated.index_unique`), and every sublist is separated
      (`Separated.sublist`);
    * taking one interval out of a separated list uncovers exactly that
      interval (`Separated.cover_eraseIdx`);
    * nothing past the end of the last interval is covered
      (`Separated.not_mem_cover_of_le`), and a separated list, an interval
      that keeps the start of its last one and a separated list that starts
      past its end join into one (`Separated.join`). -/

namespace IntervalCover

variable {α : Type} [LinearOrder α]

/-- The points that the intervals `[a, b)` of the list cover. -/
def cover (l : List (α × α)) : Set α := {x | ∃ p ∈ l, p.1 ≤ x ∧ x < p.2}

@[simp] theorem mem_cover {l : List (α × α)} {x : α} :
    x ∈ cover l ↔ ∃ p ∈ l, p.1 ≤ x ∧ x < p.2 := Iff.rfl

@[simp] theorem cover_nil : cover ([] : List (α × α)) = ∅ := by
  ext x
  simp

@[simp] theorem cover_append (l l' : List (α × α)) : cover (l ++ l') = cover l ∪ cover l' := by
  ext x
  simp only [mem_cover, List.mem_append, Set.mem_union, or_and_right, exists_or]

@[simp] theorem cover_cons (p : α × α) (l : List (α × α)) :
    cover (p :: l) = Set.Ico p.1 p.2 ∪ cover l := by
  ext x
  simp

/-- A point below every start is covered by none of the intervals. -/
theorem not_mem_cover_of_lt {l : List (α × α)} {x : α} (h : ∀ q ∈ l, x < q.1) :
    x ∉ cover l := by
  rintro ⟨q, hq, hqx, -⟩
  exact absurd hqx (not_le.2 (h q hq))

/-- Non-empty intervals, each ending strictly before the next one starts. -/
structure Separated (l : List (α × α)) : Prop where
  nonempty : ∀ p ∈ l, p.1 < p.2
  chain : l.IsChain fun p q => p.2 < q.1

/-- Each interval ends before every later one starts: the chain is
    transitive through the non-empty intervals between. -/
theorem pairwise_of_isChain : ∀ {l : List (α × α)}, (∀ p ∈ l, p.1 < p.2) →
    l.IsChain (fun p q => p.2 < q.1) → l.Pairwise fun p q => p.2 < q.1
  | [], _, _ => .nil
  | [_], _, _ => List.pairwise_singleton _ _
  | p :: r :: l, hne, hc => by
    rw [List.isChain_cons_cons] at hc
    have ih := pairwise_of_isChain (fun q hq => hne q (.tail _ hq)) hc.2
    refine List.pairwise_cons.2 ⟨?_, ih⟩
    intro q hq
    rcases List.mem_cons.1 hq with rfl | hq
    · exact hc.1
    · calc p.2 < r.1 := hc.1
        _ < r.2 := hne r (List.mem_cons_of_mem _ List.mem_cons_self)
        _ < q.1 := List.rel_of_pairwise_cons ih hq

theorem separated_nil : Separated ([] : List (α × α)) := ⟨fun _ h => absurd h List.not_mem_nil, .nil⟩

theorem separated_singleton {a b : α} (h : a < b) : Separated [(a, b)] :=
  ⟨fun p hp => by rw [List.mem_singleton.1 hp]; exact h, .singleton _⟩

namespace Separated

variable {l r : List (α × α)}

theorem pairwise (h : Separated l) : l.Pairwise fun p q => p.2 < q.1 :=
  pairwise_of_isChain h.nonempty h.chain

theorem sublist {l' : List (α × α)} (h : Separated l) (hsub : l'.Sublist l) : Separated l' where
  nonempty p hp := h.nonempty p (hsub.subset hp)
  chain := (h.pairwise.sublist hsub).isChain

/-- A point lies in at most one interval of a separated list. -/
theorem index_unique (h : Separated l) {i j : Nat} {p q : α × α} {x : α}
    (hi : l[i]? = some p) (hj : l[j]? = some q) (hp : x ∈ Set.Ico p.1 p.2)
    (hq : x ∈ Set.Ico q.1 q.2) : i = j := by
  -- an earlier interval ends before a later one starts
  have hlt : ∀ {i j : Nat} {p q : α × α}, l[i]? = some p → l[j]? = some q → i < j → p.2 < q.1 := by
    intro i j p q hi hj hij
    obtain ⟨hi', rfl⟩ := List.getElem?_eq_some_iff.1 hi
    obtain ⟨hj', rfl⟩ := List.getElem?_eq_some_iff.1 hj
    exact List.pairwise_iff_getElem.1 h.pairwise i j hi' hj' hij
  rcases lt_trichotomy i j with hij | rfl | hij
  · exact absurd (hlt hi hj hij) (lt_asymm (lt_of_le_of_lt hq.1 hp.2))
  · rfl
  · exact absurd (hlt hj hi hij) (lt_asymm (lt_of_le_of_lt hp.1 hq.2))

/-- Taking one interval out of a separated list uncovers exactly that
    interval: no other one meets it. -/
theorem cover_eraseIdx (h : Separated l) {i : Nat} {p : α × α} (hi : l[i]? = some p) :
    cover (l.eraseIdx i) = cover l \ Set.Ico p.1 p.2 := by
  ext x
  constructor
  · rintro ⟨q, hq, hx⟩
    obtain ⟨j, hji, hj⟩ := List.mem_eraseIdx_iff_getElem?.1 hq
    refine ⟨⟨q, List.mem_of_getElem? hj, hx⟩, fun hxp => hji ?_⟩
    exact h.index_unique hj hi hx hxp
  · rintro ⟨⟨q, hq, hx⟩, hxp⟩
    obtain ⟨j, hj⟩ := List.mem_iff_getElem?.1 hq
    refine ⟨q, List.mem_eraseIdx_iff_getElem?.2 ⟨j, ?_, hj⟩, hx⟩
    rintro rfl
    rw [hi, Option.some.injEq] at hj
    exact hxp (hj ▸ hx)

/-- Nothing past the end of the last interval of a separated list is
    covered. -/
theorem not_mem_cover_of_le {p : α × α} (h : Separated (l ++ [p])) {x : α} (hx : p.2 ≤ x) :
    x ∉ cover (l ++ [p]) := by
  rintro ⟨q, hq, -, hqx⟩
  rcases List.mem_append.1 hq with hq | hq
  · -- an earlier interval ends before the last one starts
    have hqp : q.2 < p.1 := (List.pairwise_append.1 h.pairwise).2.2 q hq p List.mem_cons_self
    have hp := h.nonempty p (List.mem_append_right _ List.mem_cons_self)
    exact absurd (lt_trans hqp (lt_of_lt_of_le hp hx)) (not_lt.2 hqx.le)
  · rw [List.mem_singleton.1 hq] at hqx
    exact absurd hqx (not_lt.2 hx)

/-- A separated list, an interval that keeps the start of its last one and
    ends no earlier, and a separated list that starts past that end join
    into a separated list. -/
theorem join {a e e' : α} (hl : Separated (l ++ [(a, e)])) (he : e ≤ e') (hr : Separated r)
    (hr' : ∀ q ∈ r.head?, e' < q.1) : Separated (l ++ (a, e') :: r) := by
  have hc := List.isChain_append.1 hl.chain
  refine ⟨?_, List.isChain_append.2 ⟨hc.1, hr.chain.cons hr', ?_⟩⟩
  · intro q hq
    rcases List.mem_append.1 hq with hq | hq
    · exact hl.nonempty q (List.mem_append_left _ hq)
    · rcases List.mem_cons.1 hq with rfl | hq
      · have hlast := hl.nonempty (a, e) (List.mem_append_right _ (List.mem_singleton_self _))
        exact lt_of_lt_of_le hlast he
      · exact hr.nonempty q hq
  · -- the step into the new interval depends on its start only
    intro x hx y hy
    rw [List.head?_cons, Option.mem_some_iff] at hy
    subst hy
    exact hc.2.2 x hx (a, e) rfl

/-- The last interval of a separated list may end later. -/
theorem widen_last {a e e' : α} (hl : Separated (l ++ [(a, e)])) (he : e ≤ e') :
    Separated (l ++ [(a, e')]) :=
  hl.join he separated_nil (by simp)

end Separated

end IntervalCover
