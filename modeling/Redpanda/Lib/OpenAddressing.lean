import Mathlib

/-! # Open addressing: searching a table along a probe sequence

    A table of slots, each free or holding one key, is searched for a key `d`
    along a sequence of slot indices, and the search ends at the first slot
    that is free or holds `d`.  The table is *placed* for a choice of probe
    sequence per key when the search for every key it holds ends at that
    key's slot.  Placement is what makes a lookup exact.

    * `search_update_of_free` — filling a free slot moves no search that ends
      elsewhere, and the search for the key written ends where it was written;
    * `Placed.update_free`, `Placed.congr` — placement survives writing a key
      into the free slot its search ends at, and any change that keeps the
      keys of all slots;
    * `Placed.eq_of_holds` — a placed table holds a key in one slot at most;
    * `free_of_search_of_not_holds`, `search_isSome_of_free` — a search for a
      key the table does not hold ends at a free slot, and it ends somewhere
      when its sequence passes a free slot;
    * `findSome?_eq_map_find?` — a probe loop whose handler stops exactly at
      the slots that stop the search is that search;
    * `exists_add_mod_eq` — a linear probe of `n` positions from any base
      passes every one of `n` slots. -/

namespace OpenAddressing

variable {σ δ : Type*} [DecidableEq δ] (keyOf : σ → Option δ)

/-- A slot stops the search for `d` when it is free or holds `d`. -/
def stops (d : δ) (s : σ) : Bool :=
  match keyOf s with
  | none => true
  | some d' => decide (d' = d)

/-- Where the search for `d` along `seq` ends in the table `slot`. -/
def search (slot : Nat → σ) (seq : List Nat) (d : δ) : Option Nat :=
  seq.find? fun j => stops keyOf d (slot j)

/-- Every key the table holds is where the search for it ends. -/
def Placed (slot : Nat → σ) (seq : δ → List Nat) : Prop :=
  ∀ j d, keyOf (slot j) = some d → search keyOf slot (seq d) d = some j

variable {keyOf} {slot : Nat → σ} {seq : List Nat} {d : δ}

@[simp] theorem stops_of_free {s : σ} (h : keyOf s = none) : stops keyOf d s = true := by
  simp [stops, h]

@[simp] theorem stops_of_holds {s : σ} {d' : δ} (h : keyOf s = some d') :
    stops keyOf d s = decide (d' = d) := by
  simp [stops, h]

/-- The search ends at a slot that stops it, past slots that do not. -/
theorem search_eq_some_iff {j : Nat} :
    search keyOf slot seq d = some j ↔ stops keyOf d (slot j) = true ∧
      ∃ as bs, seq = as ++ j :: bs ∧ ∀ i ∈ as, stops keyOf d (slot i) = false := by
  rw [search, List.find?_eq_some_iff_append]
  simp only [Bool.not_eq_eq_eq_not, Bool.not_true]

/-- The search reads only the keys of the slots. -/
theorem search_congr {slot' : Nat → σ} (h : ∀ i, keyOf (slot' i) = keyOf (slot i)) :
    search keyOf slot' seq d = search keyOf slot seq d := by
  have hstops : (fun j => stops keyOf d (slot' j)) = fun j => stops keyOf d (slot j) := by
    funext j
    simp only [stops, h j]
  simp only [search, hstops]

/-- Writing into a free slot `i` moves no search that ends elsewhere, nor one
    that ends at `i` and is stopped by what was written. -/
theorem search_update_of_free {i j : Nat} {x : σ} (hfree : keyOf (slot i) = none)
    (hs : search keyOf slot seq d = some j) (hx : i = j → stops keyOf d x = true) :
    search keyOf (Function.update slot i x) seq d = some j := by
  obtain ⟨hj, as, bs, rfl, has⟩ := search_eq_some_iff.mp hs
  -- a free slot stops every search, so the search never passed slot `i`
  have hpassed : ∀ a ∈ as, a ≠ i := by
    rintro a ha rfl
    have hstop := has a ha
    rw [stops_of_free hfree] at hstop
    cases hstop
  refine search_eq_some_iff.mpr ⟨?_, as, bs, rfl, fun a ha => ?_⟩
  · by_cases hij : j = i
    · subst hij
      rw [Function.update_self]
      exact hx rfl
    · rw [Function.update_of_ne hij]
      exact hj
  · rw [Function.update_of_ne (hpassed a ha)]
    exact has a ha

/-- A search for a key the table does not hold ends at a free slot, if it ends. -/
theorem free_of_search_of_not_holds {j : Nat} (hd : ∀ i, keyOf (slot i) ≠ some d)
    (hs : search keyOf slot seq d = some j) : keyOf (slot j) = none := by
  have hj := (search_eq_some_iff.mp hs).1
  cases hk : keyOf (slot j) with
  | none => rfl
  | some d' =>
      rw [stops_of_holds hk, decide_eq_true_eq] at hj
      exact absurd (hj ▸ hk) (hd j)

/-- A search whose sequence passes a free slot ends somewhere. -/
theorem search_isSome_of_free {i : Nat} (hi : i ∈ seq) (hfree : keyOf (slot i) = none) :
    (search keyOf slot seq d).isSome :=
  List.find?_isSome.mpr ⟨i, hi, stops_of_free hfree⟩

section Placed

variable {seqOf : δ → List Nat}

/-- A placed table holds each key in one slot at most. -/
theorem Placed.eq_of_holds (hp : Placed keyOf slot seqOf) {j j' : Nat}
    (hj : keyOf (slot j) = some d) (hj' : keyOf (slot j') = some d) : j = j' :=
  Option.some.inj ((hp j d hj).symm.trans (hp j' d hj'))

/-- Placement survives any change that keeps the key of every slot. -/
theorem Placed.congr {slot' : Nat → σ} (hp : Placed keyOf slot seqOf)
    (h : ∀ i, keyOf (slot' i) = keyOf (slot i)) : Placed keyOf slot' seqOf := by
  intro j d hj
  rw [search_congr h]
  exact hp j d (h j ▸ hj)

/-- **INSERTION KEEPS PLACEMENT**: writing `d` into the free slot its search
    ends at leaves every key where its search ends. -/
theorem Placed.update_free {j : Nat} {x : σ} (hp : Placed keyOf slot seqOf)
    (hs : search keyOf slot (seqOf d) d = some j) (hfree : keyOf (slot j) = none)
    (hx : keyOf x = some d) : Placed keyOf (Function.update slot j x) seqOf := by
  intro j' d' hj'
  by_cases hjj : j' = j
  · -- the slot written: its key is `d`, and its search still ends there
    subst hjj
    rw [Function.update_self, hx] at hj'
    cases hj'
    exact search_update_of_free hfree hs fun _ => by rw [stops_of_holds hx, decide_eq_true_eq]
  · -- any other key: its search never reaches the slot written
    rw [Function.update_of_ne hjj] at hj'
    exact search_update_of_free hfree (hp j' d' hj') fun h => absurd h.symm hjj

end Placed

/-- A probe loop whose handler stops exactly where `p` holds, with the
    answer `g`, returns the answer at the first position where `p` holds. -/
theorem findSome?_eq_map_find? {α β : Type*} {l : List α} {f : α → Option β} {p : α → Bool}
    {g : α → β} (h : ∀ x ∈ l, f x = if p x then some (g x) else none) :
    l.findSome? f = (l.find? p).map g := by
  induction l with
  | nil => rfl
  | cons x l ih =>
      rw [List.findSome?_cons, List.find?_cons, h x List.mem_cons_self]
      have ih' := ih fun y hy => h y (List.mem_cons_of_mem x hy)
      cases hx : p x
      · exact ih'
      · rfl

/-- A linear probe of `n` positions from any base, taken modulo `n`, passes
    every one of the `n` slots. -/
theorem exists_add_mod_eq (base : Nat) {n j : Nat} (hj : j < n) :
    ∃ p < n, (base + p) % n = j := by
  refine ⟨(j + n - base % n) % n, Nat.mod_lt _ (by omega), ?_⟩
  have hdiv := Nat.mod_add_div base n
  have hlt : base % n < n := Nat.mod_lt _ (by omega)
  have hsum : base + (j + n - base % n) = j + n * (base / n + 1) := by
    rw [Nat.mul_add, Nat.mul_one]
    omega
  rw [Nat.add_mod_mod, hsum, Nat.add_mul_mod_self_left, Nat.mod_eq_of_lt hj]

end OpenAddressing
