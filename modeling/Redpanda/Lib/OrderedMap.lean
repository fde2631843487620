import Mathlib

/-! # Ordered maps as sorted association lists

    An ordered map (a B-tree map or a red-black map) is modelled by the list
    of its entries in key order; the structure carries that the keys
    strictly increase, so that a map with a repeated or misplaced key cannot
    be built.  An iterator position is a split of that list: the entries
    before it and the entries from it on.  `lower_bound k` splits the keys
    below `k` from the rest, `upper_bound k` the keys at or below `k`;
    erasing a range keeps one side, and inserting an absent key puts it
    between the two sides of its lower bound.

    What the proofs about maps use:
    * every key before a bound is on the near side of it, every key from the
      bound on is on the far side (`lt_of_mem_before`, `le_of_mem_lowerBound`,
      `le_of_mem_upTo`, `lt_of_mem_upperBound`);
    * inserting a key beyond every key present appends it (`tryEmplace_of_lt`),
      and inserting a present key changes nothing (`tryEmplace_of_mem`);
    * the last entry before a bound has the greatest key on the near side of
      it (`getLast?_before`, `getLast?_upTo`), and there is none exactly when
      every key is on the far side. -/

/-- The entries of an ordered map, in strictly increasing key order. -/
@[ext]
structure OrderedMap (κ ν : Type) [LinearOrder κ] where
  entries : List (κ × ν)
  sorted : entries.Pairwise (fun a b => a.1 < b.1)

namespace OrderedMap

variable {κ ν : Type} [LinearOrder κ]

instance [DecidableEq ν] : DecidableEq (OrderedMap κ ν) := fun a b =>
  decidable_of_iff (a.entries = b.entries) OrderedMap.ext_iff.symm

/-- The entries before `lower_bound k`. -/
def before (m : OrderedMap κ ν) (k : κ) : List (κ × ν) := m.entries.takeWhile (fun e => e.1 < k)

/-- The entries from `lower_bound k` on. -/
def lowerBound (m : OrderedMap κ ν) (k : κ) : List (κ × ν) :=
  m.entries.dropWhile (fun e => e.1 < k)

/-- The entries before `upper_bound k`. -/
def upTo (m : OrderedMap κ ν) (k : κ) : List (κ × ν) := m.entries.takeWhile (fun e => e.1 ≤ k)

/-- The entries from `upper_bound k` on. -/
def upperBound (m : OrderedMap κ ν) (k : κ) : List (κ × ν) :=
  m.entries.dropWhile (fun e => e.1 ≤ k)

/-- `find`: the value at key `k`. -/
def find (m : OrderedMap κ ν) (k : κ) : Option ν :=
  match (m.lowerBound k).head? with
  | some e => if e.1 = k then some e.2 else none
  | none => none

/-- `erase(lower_bound(k), end())`. -/
def eraseFrom (m : OrderedMap κ ν) (k : κ) : OrderedMap κ ν :=
  ⟨m.before k, m.sorted.sublist (List.takeWhile_prefix _).sublist⟩

/-- `erase(begin(), upper_bound(k))`. -/
def eraseUpTo (m : OrderedMap κ ν) (k : κ) : OrderedMap κ ν :=
  ⟨m.upperBound k, m.sorted.sublist (List.dropWhile_suffix _).sublist⟩

/-- Rewrites every value with its position, keeping the keys. -/
def mapIdx {ν' : Type} (m : OrderedMap κ ν) (f : Nat → ν → ν') : OrderedMap κ ν' :=
  ⟨m.entries.mapIdx (fun i e => (e.1, f i e.2)), by
    have hkeys : (m.entries.mapIdx (fun i e => (e.1, f i e.2))).map Prod.fst =
        m.entries.map Prod.fst := by
      apply List.ext_getElem (by simp)
      intro i h₁ h₂
      simp
    have := m.sorted
    rw [← List.pairwise_map (f := Prod.fst)] at this ⊢
    rwa [hkeys]⟩

/-! ## The two sides of a bound -/

section Sides

variable (m : OrderedMap κ ν) (k : κ)

theorem before_append_lowerBound : m.before k ++ m.lowerBound k = m.entries :=
  List.takeWhile_append_dropWhile

theorem upTo_append_upperBound : m.upTo k ++ m.upperBound k = m.entries :=
  List.takeWhile_append_dropWhile

theorem lt_of_mem_before {e : κ × ν} (he : e ∈ m.before k) : e.1 < k := by
  simpa using List.all_eq_true.mp List.all_takeWhile e he

theorem le_of_mem_upTo {e : κ × ν} (he : e ∈ m.upTo k) : e.1 ≤ k := by
  simpa using List.all_eq_true.mp List.all_takeWhile e he

/-- In a sorted list every entry that `dropWhile` keeps fails the test, once
    the test holds of every key below a failing one. -/
theorem not_of_mem_dropWhile {p : κ → Prop} [DecidablePred p] (hp : ∀ a b, a < b → p b → p a) :
    ∀ {l : List (κ × ν)}, l.Pairwise (fun a b => a.1 < b.1) →
      ∀ e ∈ l.dropWhile (fun e => p e.1), ¬ p e.1
  | [], _, e, he => by simp at he
  | x :: xs, hl, e, he => by
      rw [List.pairwise_cons] at hl
      rw [List.dropWhile_cons] at he
      by_cases hx : p x.1
      · rw [if_pos (by simpa using hx)] at he
        exact not_of_mem_dropWhile hp hl.2 e he
      · rw [if_neg (by simpa using hx), List.mem_cons] at he
        rcases he with rfl | he
        · exact hx
        · exact fun hpe => hx (hp _ _ (hl.1 e he) hpe)

theorem le_of_mem_lowerBound {e : κ × ν} (he : e ∈ m.lowerBound k) : k ≤ e.1 :=
  not_lt.mp (not_of_mem_dropWhile (p := (· < k)) (fun _ _ hab hb => hab.trans hb) m.sorted e he)

theorem lt_of_mem_upperBound {e : κ × ν} (he : e ∈ m.upperBound k) : k < e.1 :=
  not_le.mp
    (not_of_mem_dropWhile (p := (· ≤ k)) (fun _ _ hab hb => hab.le.trans hb) m.sorted e he)

/-- An entry at or past `k` lies from `lower_bound k` on. -/
theorem mem_lowerBound {e : κ × ν} (he : e ∈ m.entries) (hk : k ≤ e.1) : e ∈ m.lowerBound k := by
  rw [← m.before_append_lowerBound k, List.mem_append] at he
  rcases he with he | he
  · exact absurd (m.lt_of_mem_before k he) (not_lt.mpr hk)
  · exact he

end Sides

/-- The first entry of a sorted list has its least key. -/
theorem le_of_head? {l : List (κ × ν)} (hl : l.Pairwise (fun a b => a.1 < b.1)) {h e : κ × ν}
    (hhead : l.head? = some h) (he : e ∈ l) : h.1 ≤ e.1 := by
  cases l with
  | nil => simp at hhead
  | cons x xs =>
      rw [List.head?_cons, Option.some.injEq] at hhead
      subst hhead
      rw [List.mem_cons] at he
      rcases he with rfl | he
      · exact le_rfl
      · exact (List.rel_of_pairwise_cons hl he).le

/-- When some entry has key `k`, `lower_bound k` points at it. -/
theorem head?_lowerBound_of_mem (m : OrderedMap κ ν) {k : κ} {e : κ × ν} (he : e ∈ m.entries)
    (hk : e.1 = k) : ∃ h, (m.lowerBound k).head? = some h ∧ h.1 = k := by
  have he' : e ∈ m.lowerBound k := m.mem_lowerBound k he hk.ge
  obtain ⟨h, hh⟩ : ∃ h, (m.lowerBound k).head? = some h := by
    cases hh : (m.lowerBound k).head? with
    | none => exact absurd (List.head?_eq_none_iff.mp hh) (List.ne_nil_of_mem he')
    | some h => exact ⟨h, rfl⟩
  have hsorted : (m.lowerBound k).Pairwise (fun a b => a.1 < b.1) :=
    m.sorted.sublist (List.dropWhile_suffix _).sublist
  have hle : h.1 ≤ e.1 := le_of_head? hsorted hh he'
  have hge : k ≤ h.1 := m.le_of_mem_lowerBound k (List.mem_of_mem_head? hh)
  exact ⟨h, hh, le_antisymm (hk ▸ hle) hge⟩

/-! ## Inserting -/

/-- `try_emplace`: inserts `(k, v)` unless `k` is present; the flag says
    whether it inserted. -/
def tryEmplace (m : OrderedMap κ ν) (k : κ) (v : ν) : OrderedMap κ ν × Bool :=
  if h : ∃ e ∈ m.entries, e.1 = k then (m, false)
  else
    (⟨m.before k ++ (k, v) :: m.lowerBound k, by
      have hgt : ∀ e ∈ m.lowerBound k, k < e.1 := fun e he =>
        lt_of_le_of_ne (m.le_of_mem_lowerBound k he) fun hk =>
          h ⟨e, (List.dropWhile_suffix _).subset he, hk.symm⟩
      have hs := m.sorted
      rw [← m.before_append_lowerBound k, List.pairwise_append] at hs
      refine List.pairwise_append.mpr ⟨hs.1, List.pairwise_cons.mpr ⟨hgt, hs.2.1⟩, ?_⟩
      intro a ha b hb
      rw [List.mem_cons] at hb
      rcases hb with rfl | hb
      · exact m.lt_of_mem_before k ha
      · exact hs.2.2 a ha b hb⟩, true)

theorem tryEmplace_of_mem {m : OrderedMap κ ν} {k : κ} (v : ν) (h : ∃ e ∈ m.entries, e.1 = k) :
    m.tryEmplace k v = (m, false) := by
  simp only [tryEmplace, dif_pos h]

/-- Inserting a key beyond every key present appends it. -/
theorem tryEmplace_of_lt {m : OrderedMap κ ν} {k : κ} (v : ν) (h : ∀ e ∈ m.entries, e.1 < k) :
    (m.tryEmplace k v).1.entries = m.entries ++ [(k, v)] ∧ (m.tryEmplace k v).2 = true := by
  have hnot : ¬ ∃ e ∈ m.entries, e.1 = k := fun ⟨e, he, hk⟩ => (ne_of_lt (h e he)) hk
  have hbefore : m.before k = m.entries := List.takeWhile_eq_self_iff.mpr (by simpa using h)
  have hlower : m.lowerBound k = [] := List.dropWhile_eq_nil_iff.mpr (by simpa using h)
  simp only [tryEmplace, dif_neg hnot, hbefore, hlower, and_self]

/-- Inserting a key below every key present prepends it. -/
theorem tryEmplace_of_gt {m : OrderedMap κ ν} {k : κ} (v : ν) (h : ∀ e ∈ m.entries, k < e.1) :
    (m.tryEmplace k v).1.entries = (k, v) :: m.entries ∧ (m.tryEmplace k v).2 = true := by
  have hnot : ¬ ∃ e ∈ m.entries, e.1 = k := fun ⟨e, he, hk⟩ => (ne_of_gt (h e he)) hk
  have hsides : m.before k = [] ∧ m.lowerBound k = m.entries := by
    unfold before lowerBound
    cases hm : m.entries with
    | nil => simp
    | cons x xs =>
        have hx : ¬ x.1 < k := not_lt.mpr (h x (by rw [hm]; exact List.mem_cons_self)).le
        simp [hx]
  simp only [tryEmplace, dif_neg hnot, hsides, List.nil_append, and_self]

/-! ## The last entry before a bound -/

/-- `e` is the entry with the greatest key that `p` holds of. -/
def IsGreatest (m : OrderedMap κ ν) (p : κ → Prop) (e : κ × ν) : Prop :=
  e ∈ m.entries ∧ p e.1 ∧ ∀ e' ∈ m.entries, p e'.1 → e'.1 ≤ e.1

/-- The last entry of a sorted list has its greatest key. -/
theorem le_of_getLast? {l : List (κ × ν)} (hl : l.Pairwise (fun a b => a.1 < b.1)) {e e' : κ × ν}
    (hlast : l.getLast? = some e) (he' : e' ∈ l) : e'.1 ≤ e.1 := by
  obtain ⟨ys, rfl⟩ := List.getLast?_eq_some_iff.mp hlast
  rw [List.pairwise_append] at hl
  rw [List.mem_append, List.mem_singleton] at he'
  rcases he' with he' | rfl
  · exact (hl.2.2 e' he' e (List.mem_singleton_self e)).le
  · exact le_rfl

/-- An entry on the near side of a bound that the test holds of below every
    key it holds of is kept by `takeWhile`. -/
theorem mem_takeWhile {p : κ → Prop} [DecidablePred p] (hp : ∀ a b, a < b → p b → p a) :
    ∀ {l : List (κ × ν)}, l.Pairwise (fun a b => a.1 < b.1) →
      ∀ e ∈ l, p e.1 → e ∈ l.takeWhile (fun e => p e.1)
  | [], _, e, he, _ => by simp at he
  | x :: xs, hl, e, he, hpe => by
      rw [List.pairwise_cons] at hl
      rw [List.mem_cons] at he
      have hx : p x.1 := by
        rcases he with rfl | he
        · exact hpe
        · exact hp _ _ (hl.1 e he) hpe
      rw [List.takeWhile_cons, if_pos (by simpa using hx), List.mem_cons]
      rcases he with rfl | he
      · exact Or.inl rfl
      · exact Or.inr (mem_takeWhile hp hl.2 e he hpe)

section Floor

variable {p : κ → Prop} [DecidablePred p] (hp : ∀ a b, a < b → p b → p a)
include hp

/-- The last entry `takeWhile` keeps has the greatest key the test holds of. -/
theorem getLast?_takeWhile_spec {l : List (κ × ν)} (hl : l.Pairwise (fun a b => a.1 < b.1))
    {e : κ × ν} (h : (l.takeWhile (fun e => p e.1)).getLast? = some e) :
    e ∈ l ∧ p e.1 ∧ ∀ e' ∈ l, p e'.1 → e'.1 ≤ e.1 := by
  have hmem : e ∈ l.takeWhile (fun e => p e.1) := List.mem_of_getLast? h
  refine ⟨(List.takeWhile_prefix _).subset hmem, by simpa using List.all_eq_true.mp List.all_takeWhile e hmem,
    fun e' he' hpe' => ?_⟩
  exact le_of_getLast? (hl.sublist (List.takeWhile_prefix _).sublist) h (mem_takeWhile hp hl e' he' hpe')

/-- `takeWhile` keeps nothing exactly when the test fails of every key. -/
theorem takeWhile_eq_nil_spec {l : List (κ × ν)} (hl : l.Pairwise (fun a b => a.1 < b.1))
    (h : l.takeWhile (fun e => p e.1) = []) : ∀ e ∈ l, ¬ p e.1 := fun e he hpe => by
  have := mem_takeWhile hp hl e he hpe
  rw [h] at this
  simp at this

end Floor

/-- The entry before `lower_bound k` is the one with the greatest key below `k`. -/
theorem getLast?_before {m : OrderedMap κ ν} {k : κ} {e : κ × ν}
    (h : (m.before k).getLast? = some e) : m.IsGreatest (· < k) e :=
  getLast?_takeWhile_spec (p := (· < k)) (fun _ _ hab hb => hab.trans hb) m.sorted h

theorem before_eq_nil {m : OrderedMap κ ν} {k : κ} (h : m.before k = []) :
    ∀ e ∈ m.entries, k ≤ e.1 := fun e he =>
  not_lt.mp (takeWhile_eq_nil_spec (p := (· < k)) (fun _ _ hab hb => hab.trans hb) m.sorted h e he)

/-- The entry before `upper_bound k` is the one with the greatest key at or
    below `k`. -/
theorem getLast?_upTo {m : OrderedMap κ ν} {k : κ} {e : κ × ν}
    (h : (m.upTo k).getLast? = some e) : m.IsGreatest (· ≤ k) e :=
  getLast?_takeWhile_spec (p := (· ≤ k)) (fun _ _ hab hb => hab.le.trans hb) m.sorted h

theorem upTo_eq_nil {m : OrderedMap κ ν} {k : κ} (h : m.upTo k = []) :
    ∀ e ∈ m.entries, k < e.1 := fun e he =>
  not_le.mp (takeWhile_eq_nil_spec (p := (· ≤ k)) (fun _ _ hab hb => hab.le.trans hb) m.sorted h e he)

/-! ## Writing at a position

    An iterator is a position in the entries; `lower_bound k` is at
    `(m.before k).length`.  Each operation below is stated on a split of
    the entries around the position it works at: the keys before an entry
    are below its key and those after it above (`lt_of_split`), and what
    `emplace`, `erase` of a range and a write through an iterator leave is
    read off the split. -/

/-- The map with no entries. -/
def empty : OrderedMap κ ν := ⟨[], List.Pairwise.nil⟩

/-- `emplace`: `try_emplace` with the position of the key's entry, which is
    the key's `lower_bound` whether or not it inserted. -/
def emplace (m : OrderedMap κ ν) (k : κ) (v : ν) : OrderedMap κ ν × Nat × Bool :=
  ((m.tryEmplace k v).1, (m.before k).length, (m.tryEmplace k v).2)

/-- `erase(it, std::next(it, n))`: the `n` entries from position `i` on
    erased. -/
def eraseRange (m : OrderedMap κ ν) (i n : Nat) : OrderedMap κ ν :=
  ⟨m.entries.take i ++ m.entries.drop (i + n), by
    have hsub : (m.entries.take i ++ m.entries.drop (i + n)).Sublist
        (m.entries.take i ++ m.entries.drop i) :=
      (List.drop_sublist_drop_left _ (Nat.le_add_right i n)).append_left _
    rw [List.take_append_drop] at hsub
    exact m.sorted.sublist hsub⟩

/-- `it->second = v`: the value at position `i` replaced, every key kept. -/
def setValue (m : OrderedMap κ ν) (i : Nat) (v : ν) : OrderedMap κ ν :=
  ⟨m.entries.modify i (fun e => (e.1, v)), by
    have hkeys : (m.entries.modify i (fun e => (e.1, v))).map Prod.fst =
        m.entries.map Prod.fst := by
      apply List.ext_getElem (by simp)
      intro j h₁ h₂
      simp only [List.getElem_map, List.getElem_modify]
      split <;> rfl
    have := m.sorted
    rw [← List.pairwise_map (f := Prod.fst)] at this ⊢
    rwa [hkeys]⟩

section Split

variable {m : OrderedMap κ ν} {P Q : List (κ × ν)}

/-- Around an entry, the keys before it are below its key and the keys
    after it above. -/
theorem lt_of_split {e : κ × ν} (h : m.entries = P ++ e :: Q) :
    (∀ p ∈ P, p.1 < e.1) ∧ ∀ q ∈ Q, e.1 < q.1 := by
  have hs := m.sorted
  rw [h, List.pairwise_append, List.pairwise_cons] at hs
  exact ⟨fun p hp => hs.2.2 p hp e List.mem_cons_self, hs.2.1.1⟩

/-- `lower_bound k` is where the keys reach `k`. -/
theorem before_of_split {k : κ} (h : m.entries = P ++ Q) (hP : ∀ p ∈ P, p.1 < k)
    (hQ : ∀ q ∈ Q.head?, k ≤ q.1) : m.before k = P := by
  rw [before, h, List.takeWhile_append_of_pos (by simpa using hP)]
  cases Q with
  | nil => simp
  | cons q Q => simp [not_lt.2 (hQ q rfl)]

theorem lowerBound_of_split {k : κ} (h : m.entries = P ++ Q) (hP : ∀ p ∈ P, p.1 < k)
    (hQ : ∀ q ∈ Q.head?, k ≤ q.1) : m.lowerBound k = Q := by
  have hsides := m.before_append_lowerBound k
  rw [before_of_split h hP hQ, h] at hsides
  exact List.append_cancel_left hsides

theorem setValue_of_split {k : κ} {w : ν} (h : m.entries = P ++ (k, w) :: Q) (v : ν) :
    (m.setValue P.length v).entries = P ++ (k, v) :: Q := by
  show m.entries.modify P.length _ = _
  rw [h, List.modify_eq_take_drop, List.take_left' rfl, List.drop_left' rfl, List.modifyHead_cons]

theorem eraseRange_of_split (h : m.entries = P ++ Q) (n : Nat) :
    (m.eraseRange P.length n).entries = P ++ Q.drop n := by
  show m.entries.take P.length ++ m.entries.drop (P.length + n) = _
  rw [h, List.take_left' rfl, List.drop_append, List.drop_eq_nil_of_le (by simp),
    Nat.add_sub_cancel_left, List.nil_append]

/-- Emplacing a key between the two sides of a split puts it there, at
    the position of the split. -/
theorem emplace_of_split {k : κ} (h : m.entries = P ++ Q) (hP : ∀ p ∈ P, p.1 < k)
    (hQ : ∀ q ∈ Q, k < q.1) (v : ν) :
    (m.emplace k v).1.entries = P ++ (k, v) :: Q ∧ (m.emplace k v).2 = (P.length, true) := by
  have hQ' : ∀ q ∈ Q.head?, k ≤ q.1 := fun q hq => (hQ q (List.mem_of_mem_head? hq)).le
  have hnot : ¬ ∃ e ∈ m.entries, e.1 = k := by
    rintro ⟨e, he, rfl⟩
    rw [h, List.mem_append] at he
    rcases he with he | he
    · exact lt_irrefl _ (hP e he)
    · exact lt_irrefl _ (hQ e he)
  simp only [emplace, tryEmplace, dif_neg hnot, before_of_split h hP hQ',
    lowerBound_of_split h hP hQ', and_self]

end Split

end OrderedMap
