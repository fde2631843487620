import Mathlib
import Redpanda.Raft.GroupConfiguration

/-! # `quorum_match` agrees with `majority`

    The leader moves its commit index to `quorum_match` of the match
    indices (`do_maybe_update_leader_commit_idx`), trusting that a majority
    of voters has reached that value and no majority anything higher.

    For one voter list `quorum_match` is the order statistic at
    `(size - 1) / 2`.  At least `size - (size - 1) / 2 = size / 2 + 1`
    voters reach it (`majorityOf_quorumMatchOf`), and a higher bound misses
    the `(size - 1) / 2 + 1` smallest values, which leaves at most
    `size / 2` (`majorityOf_of_quorumMatchOf_lt`).  In joint consensus the
    minimum of the two values is reached by majorities of both lists, and a
    bound above it misses the list whose value is the minimum
    (`quorum_match_agrees_with_majority`). -/

namespace QuorumMatch

open RaftConfiguration OrderStatistic

variable {α β : Type}

/-! ## One voter list -/

section OneList

variable {range : List α}

theorem majorityOf_of_ne_nil {p : α → Bool} (hne : range ≠ []) :
    majorityOf p range = decide (range.length / 2 + 1 ≤ range.countP p) := by
  unfold majorityOf
  rw [List.isEmpty_eq_false_iff.mpr hne, Bool.false_or]

/-- A majority for one predicate is one for every weaker predicate. -/
theorem majorityOf_mono {p q : α → Bool} (hpq : ∀ n, p n = true → q n = true)
    (h : majorityOf p range = true) : majorityOf q range = true := by
  simp only [majorityOf, Bool.or_eq_true, decide_eq_true_eq] at h ⊢
  have hle : range.countP p ≤ range.countP q := List.countP_mono_left fun n _ hn => hpq n hn
  rcases h with h | h
  · exact .inl h
  · exact .inr (le_trans h hle)

variable [LinearOrder β] [Inhabited β] {f : α → β}

theorem quorumMatchOf_of_ne_nil (hne : range ≠ []) :
    quorumMatchOf f range = kth (range.map f) ((range.length - 1) / 2) default := by
  unfold quorumMatchOf
  rw [if_neg (by simpa using hne)]
  simp only [List.length_map]

omit [Inhabited β] in
theorem countP_le_apply (v : β) :
    range.countP (fun n => v ≤ f n) = (range.map f).countP (fun y => v ≤ y) := by
  rw [List.countP_map]
  rfl

omit [LinearOrder β] [Inhabited β] in
theorem idx_lt_length (hne : range ≠ []) : (range.length - 1) / 2 < (range.map f).length := by
  have hlen : 0 < range.length := List.length_pos_iff.mpr hne
  rw [List.length_map]
  omega

/-- The value `quorum_match` picks is one voter's. -/
theorem exists_eq_quorumMatchOf (hne : range ≠ []) : ∃ n ∈ range, f n = quorumMatchOf f range := by
  have hmem := kth_mem (d := default) (idx_lt_length (f := f) hne)
  rw [← quorumMatchOf_of_ne_nil hne] at hmem
  exact List.mem_map.mp hmem

/-- **A MAJORITY REACHES THE QUORUM MATCH**. -/
theorem majorityOf_quorumMatchOf (hne : range ≠ []) :
    majorityOf (fun n => quorumMatchOf f range ≤ f n) range = true := by
  have hlen : 0 < range.length := List.length_pos_iff.mpr hne
  have hcount := length_sub_le_countP_kth (d := default) (idx_lt_length (f := f) hne)
  rw [← quorumMatchOf_of_ne_nil hne, ← countP_le_apply, List.length_map] at hcount
  rw [majorityOf_of_ne_nil hne, decide_eq_true_eq]
  omega

/-- **NO MAJORITY REACHES PAST IT**. -/
theorem majorityOf_of_quorumMatchOf_lt (hne : range ≠ []) {w : β}
    (hw : quorumMatchOf f range < w) : majorityOf (fun n => w ≤ f n) range = false := by
  rw [quorumMatchOf_of_ne_nil hne] at hw
  have hcount := countP_add_le_of_kth_lt (idx_lt_length (f := f) hne) hw
  rw [← countP_le_apply, List.length_map] at hcount
  rw [majorityOf_of_ne_nil hne, decide_eq_false_iff_not]
  omega

end OneList

/-! ## The configuration -/

variable [LinearOrder β] [Inhabited β]

theorem quorum_match_agrees_with_majority (cfg : GroupConfiguration α) (f : α → β)
    (hcur : cfg.current.voters ≠ []) (hold : ∀ o, cfg.old = some o → o.voters ≠ []) :
    (∃ n, (n ∈ cfg.current.voters ∨ ∃ o, cfg.old = some o ∧ n ∈ o.voters) ∧
        f n = cfg.quorumMatch f) ∧
      cfg.majority (fun n => cfg.quorumMatch f ≤ f n) = true ∧
      (∀ w, cfg.quorumMatch f < w → cfg.majority (fun n => w ≤ f n) = false) ∧
      (∀ o, cfg.old = some o →
        cfg.quorumMatch f = min (quorumMatchOf f cfg.current.voters) (quorumMatchOf f o.voters)) := by
  cases ho : cfg.old with
  | none =>
      have hq : cfg.quorumMatch f = quorumMatchOf f cfg.current.voters := by
        unfold GroupConfiguration.quorumMatch
        rw [ho]
      have hm : ∀ p, cfg.majority p = majorityOf p cfg.current.voters := fun p => by
        unfold GroupConfiguration.majority
        rw [ho]
      obtain ⟨n, hn, hfn⟩ := exists_eq_quorumMatchOf (f := f) hcur
      refine ⟨⟨n, .inl hn, hq ▸ hfn⟩, ?_, fun w hw => ?_, fun o h => by cases h⟩
      · rw [hm, hq]
        exact majorityOf_quorumMatchOf hcur
      · rw [hm]
        exact majorityOf_of_quorumMatchOf_lt hcur (hq ▸ hw)
  | some o =>
      -- joint consensus: the minimum of the values of both voter lists
      have hov := hold o ho
      have hq : cfg.quorumMatch f =
          min (quorumMatchOf f cfg.current.voters) (quorumMatchOf f o.voters) := by
        unfold GroupConfiguration.quorumMatch
        rw [ho]
        dsimp only
        rw [if_neg (by simpa using hcur), if_neg (by simpa using hov)]
      have hm : ∀ p, cfg.majority p = (majorityOf p cfg.current.voters && majorityOf p o.voters) :=
        fun p => by
          unfold GroupConfiguration.majority
          rw [ho]
      refine ⟨?_, ?_, fun w hw => ?_, fun o' h => ?_⟩
      · rcases min_choice (quorumMatchOf f cfg.current.voters) (quorumMatchOf f o.voters) with h | h
        · obtain ⟨n, hn, hfn⟩ := exists_eq_quorumMatchOf (f := f) hcur
          exact ⟨n, .inl hn, by rw [hq, h, hfn]⟩
        · obtain ⟨n, hn, hfn⟩ := exists_eq_quorumMatchOf (f := f) hov
          exact ⟨n, .inr ⟨o, rfl, hn⟩, by rw [hq, h, hfn]⟩
      · -- both majorities reach their own value, hence the minimum
        rw [hm, hq, Bool.and_eq_true]
        refine ⟨majorityOf_mono (fun n hn => ?_) (majorityOf_quorumMatchOf (f := f) hcur),
          majorityOf_mono (fun n hn => ?_) (majorityOf_quorumMatchOf (f := f) hov)⟩
        · rw [decide_eq_true_eq] at hn ⊢
          exact le_trans (min_le_left _ _) hn
        · rw [decide_eq_true_eq] at hn ⊢
          exact le_trans (min_le_right _ _) hn
      · -- a bound above the minimum misses the list the minimum comes from
        rw [hq] at hw
        rw [hm]
        rcases min_choice (quorumMatchOf f cfg.current.voters) (quorumMatchOf f o.voters) with h | h
        · rw [majorityOf_of_quorumMatchOf_lt hcur (h ▸ hw), Bool.false_and]
        · rw [majorityOf_of_quorumMatchOf_lt hov (h ▸ hw), Bool.and_false]
      · cases h
        exact hq

/-- Replica 3 joins voters 1 and 2, which stay the old configuration. -/
def joiningThird : GroupConfiguration Nat := ⟨⟨[1, 2, 3], []⟩, none, some ⟨[1, 2], []⟩, 0⟩

/-- With match indices 5, 9 and 7 the new voters reach 7 and the old ones 5. -/
example : joiningThird.quorumMatch (fun n => [5, 9, 7].getD (n - 1) 0) = 5 := by decide

theorem quorum_match_of_joining_third :
    joiningThird.current.voters ≠ [] ∧ (∀ o, joiningThird.old = some o → o.voters ≠ []) ∧
      joiningThird.majority
        (fun n => joiningThird.quorumMatch (fun n => [5, 9, 7].getD (n - 1) 0) ≤
          [5, 9, 7].getD (n - 1) 0) = true := by
  have hcur : joiningThird.current.voters ≠ [] := by decide
  have hold : ∀ o, joiningThird.old = some o → o.voters ≠ [] := by
    intro o ho
    cases ho
    decide
  exact ⟨hcur, hold,
    (quorum_match_agrees_with_majority joiningThird (fun n => [5, 9, 7].getD (n - 1) 0)
      hcur hold).2.1⟩

end QuorumMatch
