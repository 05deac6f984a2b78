import Mathlib.Logic.Equiv.Basic

/-! Things that are held, each by one holder at a time: taking, releasing and exchanging them. -/
namespace Holders

variable {O N : Type*} {h : O → Option N} {o a b : O} {n k : N}

/-- Nothing is held twice. -/
def Exclusive (h : O → Option N) : Prop :=
  ∀ o o' n, h o = some n → h o' = some n → o = o'

def Held (h : O → Option N) (n : N) : Prop := ∃ o, h o = some n

theorem Exclusive.existsUnique (hx : Exclusive h) (hn : Held h n) : ∃! o, h o = some n := by
  obtain ⟨o, ho⟩ := hn
  exact ⟨o, ho, fun o' ho' => hx o' o n ho' ho⟩

variable [DecidableEq O]

theorem Exclusive.take (hx : Exclusive h) (hn : ¬ Held h n) :
    Exclusive (Function.update h o (some n)) := by
  intro p q k hp hq
  by_cases hpo : p = o
  · by_cases hqo : q = o
    · rw [hpo, hqo]
    · rw [hpo, Function.update_self] at hp
      rw [Function.update_of_ne hqo, ← hp] at hq
      exact (hn ⟨q, hq⟩).elim
  · rw [Function.update_of_ne hpo] at hp
    by_cases hqo : q = o
    · rw [hqo, Function.update_self] at hq
      rw [← hq] at hp
      exact (hn ⟨p, hp⟩).elim
    · rw [Function.update_of_ne hqo] at hq
      exact hx p q k hp hq

theorem held_take (ho : h o = none) :
    Held (Function.update h o (some n)) k ↔ k = n ∨ Held h k := by
  constructor
  · rintro ⟨p, hp⟩
    by_cases hpo : p = o
    · rw [hpo, Function.update_self] at hp
      exact Or.inl (Option.some.inj hp).symm
    · rw [Function.update_of_ne hpo] at hp
      exact Or.inr ⟨p, hp⟩
  · rintro (rfl | ⟨p, hp⟩)
    · exact ⟨o, Function.update_self ..⟩
    · refine ⟨p, ?_⟩
      have hpo : p ≠ o := by
        rintro rfl
        rw [ho] at hp
        cases hp
      rwa [Function.update_of_ne hpo]

theorem Exclusive.release (hx : Exclusive h) : Exclusive (Function.update h o none) := by
  intro p q k hp hq
  have hpo : p ≠ o := by
    rintro rfl
    rw [Function.update_self] at hp
    cases hp
  have hqo : q ≠ o := by
    rintro rfl
    rw [Function.update_self] at hq
    cases hq
  rw [Function.update_of_ne hpo] at hp
  rw [Function.update_of_ne hqo] at hq
  exact hx p q k hp hq

theorem Exclusive.held_release (hx : Exclusive h) (ho : h o = some n) :
    Held (Function.update h o none) k ↔ Held h k ∧ k ≠ n := by
  constructor
  · rintro ⟨p, hp⟩
    have hpo : p ≠ o := by
      rintro rfl
      rw [Function.update_self] at hp
      cases hp
    rw [Function.update_of_ne hpo] at hp
    refine ⟨⟨p, hp⟩, ?_⟩
    rintro rfl
    exact hpo (hx p o k hp ho)
  · rintro ⟨⟨p, hp⟩, hk⟩
    refine ⟨p, ?_⟩
    have hpo : p ≠ o := by
      rintro rfl
      exact hk (Option.some.inj (hp.symm.trans ho))
    rwa [Function.update_of_ne hpo]

/-- Two holders exchange what they hold. -/
theorem Exclusive.swap (hx : Exclusive h) : Exclusive (h ∘ Equiv.swap a b) := by
  intro p q k hp hq
  exact (Equiv.swap a b).injective (hx _ _ k hp hq)

theorem held_swap : Held (h ∘ Equiv.swap a b) k ↔ Held h k := by
  constructor
  · rintro ⟨p, hp⟩
    exact ⟨Equiv.swap a b p, hp⟩
  · rintro ⟨p, hp⟩
    exact ⟨Equiv.swap a b p, by simpa using hp⟩

end Holders
