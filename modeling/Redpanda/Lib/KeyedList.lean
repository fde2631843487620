import Mathlib

/-! # Lists keyed by a field

    A hash map whose values carry their own key, such as a map from ids to
    objects that know their id, is modelled by the list of its values in
    iteration order, with the key a field of each value and no key twice.
    Updating the value at a key maps the list; erasing a key filters it.

    What the proofs about such maps use:
    * an update that keeps a field, the key or another, keeps the list of
      that field (`map_modify`);
    * the value at the key is the updated one (`find?_modify_self`);
    * a sum over the values changes by the updated value's change
      (`sum_map_modify`, `countP_modify`), and erasing a key takes off that
      value's share (`sum_map_erase`, `countP_erase`);
    * a key that is absent makes an update change nothing
      (`modify_of_forall_ne`). -/

namespace KeyedList

variable {α β : Type} [DecidableEq β] (key : α → β)

/-- The value at `k`, whichever comes first. -/
def find? (k : β) (xs : List α) : Option α := xs.find? fun x => key x = k

/-- Apply `f` to the value at `k`. -/
def modify (k : β) (f : α → α) (xs : List α) : List α :=
  xs.map fun x => if key x = k then f x else x

/-- Erase the value at `k`. -/
def erase (k : β) (xs : List α) : List α := xs.filter fun x => key x ≠ k

variable {key}

/-- An update that keeps a field keeps the list of that field. -/
theorem map_modify {γ : Type} (w : α → γ) {k : β} {f : α → α} (hf : ∀ x, w (f x) = w x)
    (xs : List α) : (modify key k f xs).map w = xs.map w := by
  unfold modify
  rw [List.map_map]
  exact List.map_congr_left fun x _ => by by_cases hx : key x = k <;> simp [hx, hf]

theorem modify_of_forall_ne {k : β} (f : α → α) {xs : List α} (h : ∀ x ∈ xs, key x ≠ k) :
    modify key k f xs = xs := by
  unfold modify
  conv_rhs => rw [← List.map_id xs]
  exact List.map_congr_left fun x hx => by simp [h x hx]

theorem mem_modify {k : β} {f : α → α} {xs : List α} {y : α} :
    y ∈ modify key k f xs ↔ ∃ x ∈ xs, (if key x = k then f x else x) = y := by
  simp [modify]

theorem find?_modify_self {k : β} {f : α → α} (hf : ∀ x, key (f x) = key x) (xs : List α) :
    find? key k (modify key k f xs) = (find? key k xs).map f := by
  induction xs with
  | nil => rfl
  | cons x xs ih =>
    by_cases hx : key x = k
    · simp [find?, modify, hx, hf]
    · simp only [find?, modify] at ih ⊢
      simp [hx, ih]

theorem find?_eq_some_iff {k : β} {xs : List α} (hnd : (xs.map key).Nodup) {x : α} :
    find? key k xs = some x ↔ x ∈ xs ∧ key x = k := by
  constructor
  · intro h
    have hx := List.find?_some h
    exact ⟨List.mem_of_find?_eq_some h, by simpa using hx⟩
  · rintro ⟨hx, rfl⟩
    induction xs with
    | nil => simp at hx
    | cons y ys ih =>
      rw [List.map_cons, List.nodup_cons] at hnd
      rcases List.mem_cons.mp hx with rfl | hx
      · simp [find?]
      · have hne : key y ≠ key x := fun e => hnd.1 (e ▸ List.mem_map_of_mem hx)
        simp only [find?, List.find?_cons, hne, decide_false] at ih ⊢
        exact ih hnd.2 hx

theorem find?_eq_none_iff {k : β} {xs : List α} : find? key k xs = none ↔ ∀ x ∈ xs, key x ≠ k := by
  simp [find?]

/-- A sum over the values changes by the change of the value at `k`. -/
theorem sum_map_modify {k : β} {f : α → α} (w : α → Nat) {xs : List α} (hnd : (xs.map key).Nodup)
    {x : α} (hx : x ∈ xs) (hk : key x = k) :
    ((modify key k f xs).map w).sum + w x = (xs.map w).sum + w (f x) := by
  induction xs with
  | nil => simp at hx
  | cons y ys ih =>
    rw [List.map_cons, List.nodup_cons] at hnd
    simp only [modify, List.map_cons, List.sum_cons] at ih ⊢
    rcases List.mem_cons.mp hx with rfl | hx'
    · -- the value at `k` is the head, and the rest keeps every other key
      have hys : modify key k f ys = ys :=
        modify_of_forall_ne f fun z hz e => hnd.1 (hk ▸ e ▸ List.mem_map_of_mem hz)
      simp only [modify] at hys
      rw [if_pos hk, hys]
      omega
    · have hne : key y ≠ k := fun e => hnd.1 (by rw [e, ← hk]; exact List.mem_map_of_mem hx')
      rw [if_neg hne]
      have := ih hnd.2 hx'
      omega

/-- Erasing the key of a present value takes off its share of a sum. -/
theorem sum_map_erase (w : α → Nat) {xs : List α} (hnd : (xs.map key).Nodup) {x : α}
    (hx : x ∈ xs) : ((erase key (key x) xs).map w).sum + w x = (xs.map w).sum := by
  induction xs with
  | nil => simp at hx
  | cons y ys ih =>
    rw [List.map_cons, List.nodup_cons] at hnd
    simp only [erase, List.filter_cons, List.map_cons, List.sum_cons] at ih ⊢
    rcases List.mem_cons.mp hx with rfl | hx'
    · have hys : ys.filter (fun z => decide (key z ≠ key x)) = ys :=
        List.filter_eq_self.2 fun z hz => by
          have : key z ≠ key x := fun e => hnd.1 (e ▸ List.mem_map_of_mem hz)
          simpa using this
      simp only [ne_eq, not_true_eq_false, decide_false, Bool.false_eq_true, if_false, hys]
      omega
    · have hne : key y ≠ key x := fun e => hnd.1 (by rw [e]; exact List.mem_map_of_mem hx')
      have := ih hnd.2 hx'
      simp only [ne_eq, decide_not] at this
      simp only [ne_eq, hne, not_false_eq_true, decide_true, if_true, List.map_cons,
        List.sum_cons, decide_not]
      omega

theorem countP_eq_sum_map (q : α → Bool) (xs : List α) :
    xs.countP q = (xs.map fun x => if q x then 1 else 0).sum := by
  induction xs with
  | nil => rfl
  | cons x xs ih =>
    by_cases hx : q x
    · simp [hx, ih]; omega
    · simp [hx, ih]

/-- A count of the values changes by whether the value at `k` counts. -/
theorem countP_modify {k : β} {f : α → α} (q : α → Bool) {xs : List α} (hnd : (xs.map key).Nodup)
    {x : α} (hx : x ∈ xs) (hk : key x = k) :
    (modify key k f xs).countP q + (if q x then 1 else 0) =
      xs.countP q + (if q (f x) then 1 else 0) := by
  simp only [countP_eq_sum_map]
  exact sum_map_modify _ hnd hx hk

/-- Erasing the key of a present value takes it off a count. -/
theorem countP_erase (q : α → Bool) {xs : List α} (hnd : (xs.map key).Nodup) {x : α}
    (hx : x ∈ xs) : (erase key (key x) xs).countP q + (if q x then 1 else 0) = xs.countP q := by
  simp only [countP_eq_sum_map]
  exact sum_map_erase _ hnd hx

theorem nodup_append_single {l : List α} {a : α} (hl : l.Nodup) (ha : a ∉ l) :
    (l ++ [a]).Nodup :=
  List.nodup_append.2 ⟨hl, List.nodup_singleton a, fun x hx y hy => by
    rw [List.mem_singleton] at hy
    subst hy
    exact fun e => ha (e ▸ hx)⟩

theorem erase_sublist (k : β) (xs : List α) : List.Sublist (erase key k xs) xs :=
  List.filter_sublist

theorem mem_erase {k : β} {xs : List α} {x : α} : x ∈ erase key k xs ↔ x ∈ xs ∧ key x ≠ k := by
  simp [erase]

end KeyedList
