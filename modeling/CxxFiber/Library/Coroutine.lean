import CxxFiber.Library.Runs
import Mathlib.Logic.Function.Basic

/-! Threads that run their own code or one of many coroutines. Whoever is not running keeps its
place until it is switched to again. -/
namespace Coroutine

open Transition

/-- `own t` is where the code of a thread stands, `stored f` where a coroutine stands, and
`active t` the coroutine that a thread runs. -/
structure State (T F K L : Type*) where
  own : T → K
  stored : F → Option L
  active : T → Option F

inductive Act (T F L : Type*)
  | compute (t : T)
  | create (f : F) (l : L)
  | destroy (f : F)
  | resume (t : T) (f : F)
  | suspend (t : T)
  deriving DecidableEq

variable {T F K L : Type*} [DecidableEq T] [DecidableEq F] {call : K → K} {leave : L → L}

/-- `call` is what a thread makes of its own place when it resumes a coroutine, `leave` what a
coroutine makes of its place when it suspends itself. -/
inductive Step (call : K → K) (leave : L → L) (s : State T F K L) :
    Act T F L → State T F K L → Prop
  | own {t k} : s.active t = none →
      Step call leave s (.compute t) { s with own := Function.update s.own t k }
  | body {t f l} : s.active t = some f →
      Step call leave s (.compute t) { s with stored := Function.update s.stored f (some l) }
  | create {f l} : s.stored f = none → (∀ t, s.active t ≠ some f) →
      Step call leave s (.create f l) { s with stored := Function.update s.stored f (some l) }
  | destroy {f} : (∀ t, s.active t ≠ some f) →
      Step call leave s (.destroy f) { s with stored := Function.update s.stored f none }
  | resume {t f} : s.active t = none → (∀ u, s.active u ≠ some f) → s.stored f ≠ none →
      Step call leave s (.resume t f) { s with
        own := Function.update s.own t (call (s.own t))
        active := Function.update s.active t (some f) }
  | suspend {t f l} : s.active t = some f → s.stored f = some l →
      Step call leave s (.suspend t) { s with
        stored := Function.update s.stored f (some (leave l))
        active := Function.update s.active t none }

variable {s u : State T F K L} {t : T} {f : F} {a : Act T F L} {as : List (Act T F L)} {l : L}

/-- Steps that leave a suspended coroutine alone. -/
def Passes (f : F) : Act T F L → Prop
  | .create g _ | .destroy g | .resume _ g => g ≠ f
  | _ => True

/-- A coroutine is suspended at a place. -/
def Suspended (f : F) (l : L) (s : State T F K L) : Prop :=
  s.stored f = some l ∧ ∀ t, s.active t ≠ some f

theorem suspended_step (h : Step call leave s a u) (ha : Passes f a) (hs : Suspended f l s) :
    Suspended f l u := by
  obtain ⟨hl, hf⟩ := hs
  cases h with
  | own _ => exact ⟨hl, hf⟩
  | @body t g l' ht =>
    have hne : f ≠ g := by
      rintro rfl
      exact hf t ht
    exact ⟨by simpa [hne] using hl, hf⟩
  | create _ _ | destroy _ => exact ⟨by simpa [Ne.symm ha] using hl, hf⟩
  | @resume t g _ _ _ =>
    refine ⟨hl, fun v hv => ?_⟩
    by_cases hvt : v = t
    · subst v
      exact ha (by simpa using hv)
    · exact hf v (by simpa [hvt] using hv)
  | @suspend t g l' ht _ =>
    have hne : f ≠ g := by
      rintro rfl
      exact hf t ht
    refine ⟨by simpa [hne] using hl, fun v hv => ?_⟩
    by_cases hvt : v = t
    · subst v
      simp at hv
    · exact hf v (by simpa [hvt] using hv)

/-- However the others run, a suspended coroutine stays where it is. -/
theorem suspended_run (h : Run (Step call leave) s as u) (ha : ∀ a ∈ as, Passes f a)
    (hs : Suspended f l s) : Suspended f l u := by
  induction h with
  | refl => exact hs
  | step hst _ ih =>
    have hu := suspended_step hst (ha _ List.mem_cons_self) hs
    exact ih (fun a hm => ha a (List.mem_cons_of_mem _ hm)) hu

/-- A thread is inside the coroutine `f`, and its own code waits at `k`. -/
def Waiting (t : T) (f : F) (k : K) (s : State T F K L) : Prop :=
  s.active t = some f ∧ s.own t = k

theorem waiting_step {k : K} (h : Step call leave s a u) (ha : a ≠ .suspend t)
    (hs : Waiting t f k s) : Waiting t f k u := by
  obtain ⟨hf, hk⟩ := hs
  cases h with
  | @own v k' hv =>
    have hne : t ≠ v := by
      rintro rfl
      simp [hf] at hv
    exact ⟨hf, by simpa [hne] using hk⟩
  | body _ | create _ _ | destroy _ => exact ⟨hf, hk⟩
  | @resume v g hv _ _ =>
    have hne : t ≠ v := by
      rintro rfl
      simp [hf] at hv
    exact ⟨by simpa [hne] using hf, by simpa [hne] using hk⟩
  | @suspend v g l' hv _ =>
    have hne : t ≠ v := by
      rintro rfl
      exact ha rfl
    exact ⟨by simpa [hne] using hf, hk⟩

/-- Until the coroutine gives the thread back, the code of the thread stays where it is. -/
theorem waiting_run {k : K} (h : Run (Step call leave) s as u) (ha : .suspend t ∉ as)
    (hs : Waiting t f k s) : Waiting t f k u := by
  induction h with
  | refl => exact hs
  | @step s v u a as hst _ ih =>
    have hne : a ≠ .suspend t := by
      rintro rfl
      exact ha List.mem_cons_self
    exact ih (fun hm => ha (List.mem_cons_of_mem _ hm)) (waiting_step hst hne hs)

end Coroutine
