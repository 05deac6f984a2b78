import CxxFiber.Library.Runs
import Mathlib.Logic.Function.Basic

/-! Data that is read and written only by the holder of an exclusive right, beside any system that
gives the rights away. -/
namespace Critical

open Transition

variable {S A K P D : Type*} {Sys : S → A → S → Prop} {holds : S → K → P → Bool}

/-- The data of each right, and what its holder has read and not yet written back. -/
structure Cells (K P D : Type*) where
  data : K → D
  view : K → P → Option D

/-- `store k p f`: `p` writes what `f` makes of the value that it has read. -/
inductive Act (A K P D : Type*)
  | sys (a : A)
  | load (k : K) (p : P)
  | store (k : K) (p : P) (f : D → D)

/-- What is read under a right is of no use after it has been given up. -/
def Cells.forget (c : Cells K P D) (held : K → P → Bool) : Cells K P D where
  data := c.data
  view k p := if held k p then c.view k p else none

variable [DecidableEq K] [DecidableEq P]

def Cells.setView (c : Cells K P D) (k : K) (p : P) (x : Option D) : Cells K P D where
  data := c.data
  view := Function.update c.view k (Function.update (c.view k) p x)

def Cells.setData (c : Cells K P D) (k : K) (x : D) : Cells K P D where
  data := Function.update c.data k x
  view := c.view

/-- A load and the store that follows it are two steps, with any others between them. -/
inductive Step (Sys : S → A → S → Prop) (holds : S → K → P → Bool) :
    S × Cells K P D → Act A K P D → S × Cells K P D → Prop
  | sys {s a t c} : Sys s a t → Step Sys holds (s, c) (.sys a) (t, c.forget (holds t))
  | load {s c k p} : holds s k p = true →
      Step Sys holds (s, c) (.load k p) (s, c.setView k p (some (c.data k)))
  | store {s c k p f x} : holds s k p = true → c.view k p = some x →
      Step Sys holds (s, c) (.store k p f) (s, (c.setData k (f x)).setView k p none)

/-- The updates of `k` in the order in which they are written, each of them applied to what the
one before has left. -/
def applied (k : K) (as : List (Act A K P D)) (x : D) : D :=
  as.foldl (fun y a => match a with
    | .store k' _ f => if k' = k then f y else y
    | _ => y) x

/-- One holder at a time. -/
def Exclusive (held : K → P → Bool) : Prop :=
  ∀ k p q, held k p = true → held k q = true → p = q

/-- Only a holder has a view, and it is up to date. -/
def Fresh (holds : S → K → P → Bool) (s : S × Cells K P D) : Prop :=
  ∀ k p x, s.2.view k p = some x → holds s.1 k p = true ∧ x = s.2.data k

variable {s t : S × Cells K P D} {a : Act A K P D} {as : List (Act A K P D)} {k : K} {p : P}

theorem fresh_step (hst : Step Sys holds s a t) (he : Exclusive (holds s.1)) (h : Fresh holds s) :
    Fresh holds t := by
  intro k p x hv
  cases hst with
  | sys =>
    simp only [Cells.forget, Option.ite_none_right_eq_some] at hv
    exact ⟨hv.1, (h k p x hv.2).2⟩
  | @load s c l q hq =>
    by_cases hk : k = l
    · subst l
      by_cases hp : p = q
      · subst q
        have hx : some (c.data k) = some x := by simpa [Cells.setView] using hv
        exact ⟨hq, (Option.some.inj hx).symm⟩
      · exact h k p x (by simpa [Cells.setView, hp] using hv)
    · exact h k p x (by simpa [Cells.setView, hk] using hv)
  | @store s c l q f y hq =>
    by_cases hk : k = l
    · subst l
      by_cases hp : p = q
      · simp [Cells.setView, hp] at hv
      · have hold := h k p x (by simpa [Cells.setView, Cells.setData, hp] using hv)
        exact (hp (he k p q hold.1 hq)).elim
    · have hold := h k p x (by simpa [Cells.setView, Cells.setData, hk] using hv)
      exact ⟨hold.1, by simpa [Cells.setView, Cells.setData, hk] using hold.2⟩

/-- A step writes what its update makes of the present data. -/
theorem data_step (hst : Step Sys holds s a t) (h : Fresh holds s) :
    t.2.data k = applied k [a] (s.2.data k) := by
  cases hst with
  | sys | load => rfl
  | @store s c l q f y hq hv =>
    obtain ⟨-, rfl⟩ := h l q y hv
    by_cases hk : l = k
    · subst l
      simp [applied, Cells.setView, Cells.setData]
    · simp [applied, Cells.setView, Cells.setData, hk, Ne.symm hk]

/-- No update is lost: each one is made of what the one before has left. -/
theorem data_run {I : S → Prop} (hI : ∀ s a t, I s → Sys s a t → I t)
    (hE : ∀ s, I s → Exclusive (holds s)) (h : Run (Step Sys holds) s as t) (hi : I s.1)
    (hf : Fresh holds s) : t.2.data k = applied k as (s.2.data k) := by
  induction h with
  | refl => rfl
  | @step s u t a as hst _ ih =>
    have hu : I u.1 := by
      cases hst with
      | sys hs => exact hI _ _ _ hi hs
      | load | store => exact hi
    rw [ih hu (fresh_step hst (hE _ hi) hf), data_step hst hf]
    simp [applied]

end Critical
