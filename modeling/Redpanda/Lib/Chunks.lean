import Mathlib

/-! # Indexing a list stored in chunks

    A sequence stored as a list of chunks, each of at most `E` values and
    all but the last of exactly `E`, is read at position `i` by taking
    chunk `i / E` and, in it, position `i % E` (`getElem?_flatten_chunks`).
    Without the bound on the last chunk the formula loses the values past
    position `E` of a single chunk (`getElem?_flatten_singleton_of_le`). -/

namespace Chunks

variable {α : Type}

/-- All chunks have at most `E` values and all but the last exactly `E`. -/
def Chunked (E : Nat) (cs : List (List α)) : Prop :=
  (∀ c ∈ cs.dropLast, c.length = E) ∧ ∀ c ∈ cs, c.length ≤ E

theorem chunked_tail {E : Nat} {c : List α} {cs : List (List α)} (h : Chunked E (c :: cs)) :
    Chunked E cs := by
  refine ⟨fun d hd => h.1 d ?_, fun d hd => h.2 d (List.mem_cons_of_mem c hd)⟩
  cases cs with
  | nil => cases hd
  | cons c' cs => exact List.mem_cons_of_mem c hd

/-- **CHUNKED INDEXING**: position `i` of the sequence is position `i % E`
    of chunk `i / E`. -/
theorem getElem?_flatten_chunks {E : Nat} (hE : 0 < E) {cs : List (List α)} (h : Chunked E cs)
    (i : Nat) : cs.flatten[i]? = (cs[i / E]?).bind fun chunk => chunk[i % E]? := by
  induction cs generalizing i with
  | nil => simp
  | cons c cs ih =>
      rw [List.flatten_cons]
      by_cases hi : i < E
      · -- the position lies in the first chunk
        have hc : i < c.length ∨ cs = [] := by
          cases cs with
          | nil => exact .inr rfl
          | cons c' cs => exact .inl (by rw [h.1 c (by simp)]; exact hi)
        rw [Nat.div_eq_of_lt hi, Nat.mod_eq_of_lt hi]
        rcases hc with hc | rfl
        · simp [List.getElem?_append_left hc]
        · simp
      · -- past the first chunk, which then holds exactly `E` values
        obtain ⟨j, rfl⟩ := Nat.exists_eq_add_of_le (Nat.le_of_not_lt hi)
        cases cs with
        | nil =>
            have hlen := h.2 c (by simp)
            rw [Nat.add_div_left j hE]
            simp only [List.flatten_nil, List.append_nil, List.getElem?_cons_succ,
              List.getElem?_nil, Option.bind_none]
            exact List.getElem?_eq_none (by omega)
        | cons c' cs =>
            have hlen : c.length = E := h.1 c (by simp)
            rw [List.getElem?_append_right (by omega), hlen, Nat.add_sub_cancel_left,
              Nat.add_div_left j hE, Nat.add_mod_left, List.getElem?_cons_succ]
            exact ih (chunked_tail h) j

/-- Chunks of exactly `E` values hold `E` values each. -/
theorem length_flatten_of_forall {E : Nat} {cs : List (List α)} (h : ∀ c ∈ cs, c.length = E) :
    cs.flatten.length = E * cs.length := by
  induction cs with
  | nil => rfl
  | cons c cs ih =>
      rw [List.flatten_cons, List.length_append, h c List.mem_cons_self,
        ih fun d hd => h d (List.mem_cons_of_mem c hd), List.length_cons, Nat.mul_succ, Nat.add_comm]

/-- A single chunk longer than `E` is read past position `E` as nothing. -/
theorem getElem?_flatten_singleton_of_le {E : Nat} (hE : 0 < E) (c : List α) {i : Nat}
    (hi : E ≤ i) : ([c][i / E]?).bind (fun d => d[i % E]?) = none := by
  have h1 : 1 ≤ i / E := (Nat.one_le_div_iff hE).mpr hi
  obtain ⟨k, hk⟩ := Nat.exists_eq_add_of_le h1
  rw [hk, Nat.add_comm, List.getElem?_cons_succ]
  simp

end Chunks
