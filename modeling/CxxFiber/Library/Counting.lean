import Mathlib.Algebra.BigOperators.Group.Finset.Piecewise
import Mathlib.Algebra.Order.BigOperators.Group.Finset
import Mathlib.Data.Set.Card

/-! Totals over a family of parties of which only finitely many weigh anything. -/
namespace Counting

variable {P A : Type*} [DecidableEq P] {w : A → ℕ} {x : P → A} {n m : ℕ} {p : P} {c : A}

/-- The weights of all parties add up to `n`. -/
def Total (w : A → ℕ) (x : P → A) (n : ℕ) : Prop :=
  ∃ B : Finset P, (∀ p, p ∉ B → w (x p) = 0) ∧ ∑ p ∈ B, w (x p) = n

omit [DecidableEq P] in
theorem Total.zero (h : ∀ p, w (x p) = 0) : Total w x 0 :=
  ⟨∅, fun p _ => h p, Finset.sum_empty⟩

/-- One party changes, and the total changes with it. -/
theorem Total.update (h : Total w x n) (hm : m + w (x p) = n + w c) :
    Total w (Function.update x p c) m := by
  obtain ⟨B, h0, rfl⟩ := h
  refine ⟨insert p B, fun q hq => ?_, ?_⟩
  · obtain ⟨hqp, hqB⟩ := not_or.mp (fun h => hq (Finset.mem_insert.mpr h))
    rw [Function.update_of_ne hqp]
    exact h0 q hqB
  · have hp := Finset.mem_insert_self p B
    have hold : ∑ q ∈ insert p B, w (x q) = ∑ q ∈ B, w (x q) :=
      Finset.sum_insert_of_eq_zero_if_notMem (h0 p)
    have hrest : ∑ q ∈ (insert p B).erase p, w (Function.update x p c q) =
        ∑ q ∈ (insert p B).erase p, w (x q) := by
      refine Finset.sum_congr rfl fun q hq => ?_
      rw [Function.update_of_ne (Finset.ne_of_mem_erase hq)]
    have h₁ := Finset.add_sum_erase _ (fun q => w (x q)) hp
    have h₂ := Finset.add_sum_erase _ (fun q => w (Function.update x p c q)) hp
    simp only [Function.update_self, hrest] at h₂
    omega

theorem Total.single_le (h : Total w x n) : w (x p) ≤ n := by
  obtain ⟨B, h0, rfl⟩ := h
  by_cases hp : p ∈ B
  · exact Finset.single_le_sum_of_canonicallyOrdered (f := fun q => w (x q)) hp
  · rw [h0 p hp]
    exact Nat.zero_le _

/-- Where every weight is one or zero, the total is the number of parties that weigh one. -/
theorem Total.card (h : Total w x n) (hw : ∀ a, w a = 0 ∨ w a = 1) :
    ∃ B : Finset P, (∀ p, p ∈ B ↔ w (x p) = 1) ∧ B.card = n := by
  obtain ⟨B, h0, rfl⟩ := h
  refine ⟨B.filter fun p => w (x p) = 1, fun p => ?_, ?_⟩
  · rw [Finset.mem_filter, and_iff_right_iff_imp]
    intro h1
    by_contra hp
    rw [h0 p hp] at h1
    exact nomatch h1
  · rw [Finset.card_filter]
    refine Finset.sum_congr rfl fun p _ => ?_
    rcases hw (x p) with h | h <;> simp [h]

omit [DecidableEq P] in
/-- Who weighs no more under `w` than under `w'` weighs no more in total; the total does not depend
on the set. -/
theorem Total.mono {A' : Type*} {y : P → A'} {w' : A' → ℕ} (h : Total w x n) (h' : Total w' y m)
    (hle : ∀ p, w (x p) ≤ w' (y p)) : n ≤ m := by
  classical
  obtain ⟨B, h0, rfl⟩ := h
  obtain ⟨C, h0', rfl⟩ := h'
  have hzero : ∀ p ∈ B, p ∉ C → w (x p) = 0 := by
    intro p _ hp
    have := hle p
    rw [h0' p hp] at this
    omega
  calc ∑ p ∈ B, w (x p) = ∑ p ∈ B ∩ C, w (x p) := by
        symm
        refine Finset.sum_subset Finset.inter_subset_left fun p hB hp => hzero p hB ?_
        exact fun hC => hp (Finset.mem_inter.mpr ⟨hB, hC⟩)
    _ ≤ ∑ p ∈ B ∩ C, w' (y p) := Finset.sum_le_sum fun p _ => hle p
    _ ≤ ∑ p ∈ C, w' (y p) := Finset.sum_le_sum_of_subset Finset.inter_subset_right

omit [DecidableEq P] in
theorem Total.eq_zero (h : Total w x n) (hz : ∀ p, w (x p) = 0) : n = 0 :=
  Nat.le_zero.mp <| h.mono (Total.zero hz) fun _ => le_rfl

/-- And strictly less when one party does. -/
theorem Total.lt (h : Total w x n) {w' : A → ℕ} (h' : Total w' x m) (hle : ∀ p, w (x p) ≤ w' (x p))
    (hlt : w (x p) < w' (x p)) : n < m := by
  have hw : ∀ q, w (x q) + (if q = p then 1 else 0) ≤ w' (x q) := by
    intro q
    split
    · next hq =>
      subst hq
      omega
    · exact hle q
  obtain ⟨B, h0, rfl⟩ := h
  have htot : Total (fun q => w (x q) + if q = p then 1 else 0) id
      (∑ q ∈ insert p B, w (x q) + 1) := by
    refine ⟨insert p B, fun q hq => ?_, ?_⟩
    · obtain ⟨hqp, hqB⟩ := not_or.mp fun h => hq (Finset.mem_insert.mpr h)
      simp [h0 q hqB, hqp]
    · simp [Finset.sum_add_distrib]
  have hsum : ∑ q ∈ insert p B, w (x q) = ∑ q ∈ B, w (x q) :=
    Finset.sum_insert_of_eq_zero_if_notMem (h0 p)
  have hm := htot.mono h' hw
  omega

omit [DecidableEq P] in
theorem Total.card_univ [Fintype P] : Total (fun _ : A => 1) x (Fintype.card P) :=
  ⟨Finset.univ, fun p hp => (hp (Finset.mem_univ p)).elim, by simp⟩

/-- The elements of a list without repetitions, counted with `countP`. -/
theorem ncard_setOf_mem {α : Type*} {l : List α} {p : α → Prop} [DecidablePred p] (hn : l.Nodup) :
    Set.ncard {a | a ∈ l ∧ p a} = l.countP p := by
  classical
  have hs : {a | a ∈ l ∧ p a} = ((l.filter p).toFinset : Set α) := by
    ext a
    simp
  rw [hs, Set.ncard_coe_finset, List.toFinset_card_of_nodup (hn.filter _),
    List.countP_eq_length_filter]

end Counting
