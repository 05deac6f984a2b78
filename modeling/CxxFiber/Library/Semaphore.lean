import CxxFiber.Library.Runs

/-! A counting semaphore that also counts what it was given and what it gave away. -/
namespace Semaphore

open Transition

structure State where
  permits : ℕ
  taken : ℕ
  posted : ℕ
  deriving DecidableEq, Repr

inductive Act
  | take
  | post
  | pass
  deriving DecidableEq, Repr

/-- `pass` posts a permit to a party that is already waiting for it. -/
inductive Step (limit : ℕ) (s : State) : Act → State → Prop
  | take : 0 < s.permits →
      Step limit s .take { s with permits := s.permits - 1, taken := s.taken + 1 }
  | post : s.permits < limit →
      Step limit s .post { s with permits := s.permits + 1, posted := s.posted + 1 }
  | pass : s.permits = 0 →
      Step limit s .pass { s with taken := s.taken + 1, posted := s.posted + 1 }

variable {limit capacity : ℕ} {s t : State} {a : Act} {as : List Act}

def Conserved (capacity : ℕ) (s : State) : Prop := s.taken + s.permits = capacity + s.posted

theorem conserved_step (h : Step limit s a t) (hc : Conserved capacity s) :
    Conserved capacity t := by
  unfold Conserved at *
  cases h with
  | take hp => simp only; omega
  | post hp => simp only; omega
  | pass hp => simp only; omega

theorem conserved_run (h : Run (Step limit) ⟨capacity, 0, 0⟩ as s) : Conserved capacity s :=
  h.invariant (fun _ _ _ hc hs => conserved_step hs hc) (by simp [Conserved])

theorem permits_le_max_step (h : Step limit s a t) (hm : s.permits ≤ max capacity limit) :
    t.permits ≤ max capacity limit := by
  cases h with
  | take hp => simp only; omega
  | post hp => simp only; omega
  | pass hp => exact hm

/-- Handing over directly is posting and taking at once. -/
theorem pass_eq_post_take (hl : 0 < limit) (h : Step limit s .pass t) :
    Run (Step limit) s [.post, .take] t := by
  cases h with
  | pass hp =>
    refine .step (.post (by omega)) ?_
    exact .step (.take (Nat.succ_pos _)) .refl

/-- Whatever a semaphore does it can do by posting and taking alone. -/
theorem run_plain (hl : 0 < limit) (h : Run (Step limit) s as t) :
    ∃ bs, .pass ∉ bs ∧ Run (Step limit) s bs t := by
  induction h with
  | refl => exact ⟨[], by simp, .refl⟩
  | @step s u t a as hs _ ih =>
    obtain ⟨bs, hb, hr⟩ := ih
    cases a with
    | take => exact ⟨.take :: bs, by simp [hb], .step hs hr⟩
    | post => exact ⟨.post :: bs, by simp [hb], .step hs hr⟩
    | pass => exact ⟨.post :: .take :: bs, by simp [hb], (pass_eq_post_take hl hs).append hr⟩

theorem permits_le_max_run (h : Run (Step limit) s as t) (hm : s.permits ≤ max capacity limit) :
    t.permits ≤ max capacity limit :=
  h.invariant (I := fun s => s.permits ≤ max capacity limit)
    (fun _ _ _ hm hs => permits_le_max_step hs hm) hm

end Semaphore
