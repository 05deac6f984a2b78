import Mathlib.Order.Nat
import Mathlib.Data.Nat.Init

/-! A loop that takes one input in each turn until it has a result. -/
namespace Turns

variable {σ α ρ : Type*} {turn : σ → α → σ ⊕ ρ} {inputs : ℕ → α} {I : σ → Prop} {s t : σ} {r : ρ}
  {n m : ℕ}

/-- The state after `n` turns, or the result that an earlier turn had. -/
def after (turn : σ → α → σ ⊕ ρ) (inputs : ℕ → α) (s : σ) : ℕ → σ ⊕ ρ
  | 0 => .inl s
  | n + 1 => (after turn inputs s n).elim (fun t => turn t (inputs n)) .inr

theorem after_succ (h : after turn inputs s n = .inl t) :
    after turn inputs s (n + 1) = turn t (inputs n) := by
  rw [after, h, Sum.elim_inl]

/-- A loop that goes on has gone on in all turns before. -/
theorem after_inl_succ (h : after turn inputs s (n + 1) = .inl t) :
    ∃ u, after turn inputs s n = .inl u ∧ turn u (inputs n) = .inl t := by
  rw [after] at h
  cases hn : after turn inputs s n with
  | inl u => exact ⟨u, rfl, by rwa [hn, Sum.elim_inl] at h⟩
  | inr r =>
    rw [hn, Sum.elim_inr] at h
    exact nomatch h

theorem after_inl_of_le (h : after turn inputs s m = .inl t) (hle : n ≤ m) :
    ∃ u, after turn inputs s n = .inl u := by
  induction m, hle using Nat.le_induction generalizing t with
  | base => exact ⟨t, h⟩
  | succ m hle ih =>
    obtain ⟨u, hu, _⟩ := after_inl_succ h
    exact ih hu

/-- A result is that of one turn. -/
theorem after_inr (h : after turn inputs s n = .inr r) :
    ∃ m t, m < n ∧ after turn inputs s m = .inl t ∧ turn t (inputs m) = .inr r := by
  induction n with
  | zero => exact nomatch h
  | succ n ih =>
    rw [after] at h
    cases hn : after turn inputs s n with
    | inl t => exact ⟨n, t, n.lt_succ_self, hn, by rwa [hn, Sum.elim_inl] at h⟩
    | inr r' =>
      rw [hn, Sum.elim_inr] at h
      obtain ⟨m, t, hlt, hm, ht⟩ := ih (hn.trans h)
      exact ⟨m, t, hlt.trans n.lt_succ_self, hm, ht⟩

/-- The result stays. -/
theorem after_stays (h : after turn inputs s n = .inr r) (hle : n ≤ m) :
    after turn inputs s m = .inr r := by
  induction m, hle using Nat.le_induction with
  | base => exact h
  | succ m hle ih => rw [after, ih, Sum.elim_inr]

theorem after_unique {r' : ρ} (h : after turn inputs s n = .inr r)
    (h' : after turn inputs s m = .inr r') : r = r' := by
  rcases Nat.le_total n m with hle | hle
  · exact Sum.inr.inj ((after_stays h hle).symm.trans h')
  · exact Sum.inr.inj (h.symm.trans (after_stays h' hle))

/-- An invariant of the turns that go on, from some turn on. -/
theorem after_invariant (hI : ∀ n s t, I s → turn s (inputs n) = .inl t → I t)
    (hn : after turn inputs s n = .inl t) (ht : I t) {u : σ} (hle : n ≤ m)
    (hm : after turn inputs s m = .inl u) : I u := by
  induction m, hle using Nat.le_induction generalizing u with
  | base => exact Sum.inl.inj (hn.symm.trans hm) ▸ ht
  | succ m hle ih =>
    obtain ⟨v, hv, hturn⟩ := after_inl_succ hm
    exact hI m v u (ih hv) hturn

/-- A loop that goes on under an invariant has no result. -/
theorem after_forever (hI : ∀ n s, I s → ∃ t, turn s (inputs n) = .inl t ∧ I t) (hs : I s)
    (n : ℕ) : ∃ t, after turn inputs s n = .inl t ∧ I t := by
  induction n with
  | zero => exact ⟨s, rfl, hs⟩
  | succ n ih =>
    obtain ⟨t, ht, hI'⟩ := ih
    rw [after_succ ht]
    exact hI n t hI'

/-- A measure that never grows and that falls in each useful turn: with useful inputs again and
again, the loop has a result. -/
theorem after_ends {μ : σ → ℕ} {useful : α → Prop} (hfair : ∀ n, ∃ m, n ≤ m ∧ useful (inputs m))
    (hI : ∀ n s t, I s → turn s (inputs n) = .inl t → I t)
    (hle : ∀ n s t, I s → turn s (inputs n) = .inl t → μ t ≤ μ s)
    (hlt : ∀ n s t, I s → useful (inputs n) → turn s (inputs n) = .inl t → μ t < μ s)
    (hs : I s) : ∃ n r, after turn inputs s n = .inr r := by
  have hmain : ∀ k n t, after turn inputs s n = .inl t → I t → μ t < k →
      ∃ n r, after turn inputs s n = .inr r := by
    intro k
    induction k with
    | zero => exact fun n t _ _ hk => absurd hk (Nat.not_lt_zero _)
    | succ k ih =>
      intro n t hn ht hk
      obtain ⟨m, hnm, hu⟩ := hfair n
      cases hm : after turn inputs s m with
      | inr r => exact ⟨m, r, hm⟩
      | inl u =>
        have hIu := after_invariant (fun n s t h => hI n s t h) hn ht hnm hm
        have hμ : μ u ≤ μ t :=
          after_invariant (I := fun v => I v ∧ μ v ≤ μ t)
            (fun n v v' h h' => ⟨hI n v v' h.1 h', (hle n v v' h.1 h').trans h.2⟩)
            hn ⟨ht, le_refl _⟩ hnm hm |>.2
        cases hm' : turn u (inputs m) with
        | inr r => exact ⟨m + 1, r, (after_succ hm).trans hm'⟩
        | inl v =>
          have hv := hlt m u v hIu hu hm'
          exact ih (m + 1) v ((after_succ hm).trans hm') (hI m u v hIu hm') (by omega)
  exact hmain (μ s + 1) 0 s rfl hs (Nat.lt_succ_self _)

end Turns
