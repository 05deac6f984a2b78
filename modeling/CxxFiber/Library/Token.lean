import Mathlib.Data.List.Basic

/-! One token: free, or owned by one party. Moves are stated as bounds on the next state, so a
move may also lose the token. -/
namespace Token

variable {P : Type*}

structure State (P : Type*) where
  free : ℕ
  owns : P → Prop

/-- At most one token in all. -/
structure Single (s : State P) : Prop where
  bound : s.free ≤ 1
  unowned : 0 < s.free → ∀ p, ¬ s.owns p
  unique : ∀ p q, s.owns p → s.owns q → p = q

/-- What one step may do: give nothing out, take a free token, hand the token over, free it. -/
inductive Move (s t : State P) : Prop
  | stay : t.free ≤ s.free → (∀ p, t.owns p → s.owns p) → Move s t
  | take (q : P) : t.free < s.free → (∀ p, t.owns p → p = q ∨ s.owns p) → Move s t
  | pass (q r : P) : s.owns q → t.free ≤ s.free →
      (∀ p, t.owns p → p = r ∨ s.owns p ∧ p ≠ q) → Move s t
  | post (q : P) : s.owns q → t.free ≤ s.free + 1 → (∀ p, t.owns p → s.owns p ∧ p ≠ q) → Move s t

variable {s t : State P} {p : P}

theorem Single.free_eq_zero (h : Single s) (hp : s.owns p) : s.free = 0 := by
  by_contra hn
  exact h.unowned (Nat.pos_of_ne_zero hn) p hp

theorem single_step (hm : Move s t) (h : Single s) : Single t := by
  have hb := h.bound
  cases hm with
  | stay hf ho =>
    refine ⟨by omega, fun hp p hpo => ?_, fun p q hp hq => h.unique p q (ho p hp) (ho q hq)⟩
    exact h.unowned (by omega) p (ho p hpo)
  | take r hf ho =>
    have hnone := h.unowned (by omega)
    have heq : ∀ p, t.owns p → p = r := by
      intro p hp
      rcases ho p hp with hpr | hs
      · exact hpr
      · exact (hnone p hs).elim
    refine ⟨by omega, by omega, fun p q hp hq => ?_⟩
    rw [heq p hp, heq q hq]
  | pass q r hq hf ho =>
    have hz := h.free_eq_zero hq
    have heq : ∀ p, t.owns p → p = r := by
      intro p hp
      rcases ho p hp with hpr | ⟨hs, hne⟩
      · exact hpr
      · exact (hne (h.unique p q hs hq)).elim
    refine ⟨by omega, by omega, fun p p' hp hp' => ?_⟩
    rw [heq p hp, heq p' hp']
  | post q hq hf ho =>
    have hz := h.free_eq_zero hq
    have hnone : ∀ p, ¬ t.owns p := by
      intro p hp
      obtain ⟨hs, hne⟩ := ho p hp
      exact hne (h.unique p q hs hq)
    exact ⟨by omega, fun _ => hnone, fun p _ hp => (hnone p hp).elim⟩

end Token
