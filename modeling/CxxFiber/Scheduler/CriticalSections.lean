import CxxFiber.Library.Critical
import CxxFiber.Scheduler.Mutex

/-! What fibers do to the data that an `EFiberMutex` guards. -/
namespace CxxFiber.Scheduler

open Transition

variable {F W B T D : Type} [DecidableEq F] [DecidableEq W] [DecidableEq B] [DecidableEq T]
  {s u : State F W B T} {c : Critical.Cells B F D} {t : State F W B T × Critical.Cells B F D}
  {act : Act F W B T}
  {as : List (Critical.Act (Act F W B T) B F D)}

/-- Data `b` is loaded and stored only by a fiber that holds the mutex `b`; it may be suspended
anywhere in between. -/
def Section : State F W B T × Critical.Cells B F D → Critical.Act (Act F W B T) B F D →
    State F W B T × Critical.Cells B F D → Prop :=
  Critical.Step (Guarded MutexUse Step) fun s b f => s.held f b

theorem section_sys (hst : Step s act u) (hg : MutexUse s act)
    (h : Run Section (u, c.forget fun b f => u.held f b) as t) :
    Run Section (s, c) (.sys act :: as) t := by
  have hs : Guarded MutexUse Step s act u := ⟨hg, hst⟩
  exact .step (.sys hs) h

/-- The data is what the updates make of it one after the other, in the order in which they are
stored. -/
theorem no_lost_update {d : B → D} (h : Run Section (mutexes, ⟨d, fun _ _ => none⟩) as t) (b : B) :
    t.2.data b = Critical.applied b as (d b) := by
  refine Critical.data_run (I := fun s => Inv s ∧ ∀ b, Token.Single (token s b))
    (fun s act u hi hst => ?_) (fun s hi b f g hf hg => ?_) h
    ⟨inv_initial _ _, fun _ => single_initial⟩ (fun _ _ _ hv => by cases hv)
  · exact ⟨inv_step hst.2 hst.1.2 hi.1,
      fun b => Token.single_step (token_step hst.2 hst.1.1 hi.1) (hi.2 b)⟩
  · exact (hi.2 b).unique f g (Or.inl hf) (Or.inl hg)

/-- A fiber is suspended between its load and its store; another one finds the mutex locked, and
gets it later. -/
theorem no_lost_update_twice : ∃ (t : State (Fin 2) Unit Unit Unit × Critical.Cells Unit (Fin 2) ℕ)
    (as : List (Critical.Act (Act (Fin 2) Unit Unit Unit) Unit (Fin 2) ℕ)),
    t.2.data () = 2 ∧ t.2.data () = Critical.applied () as 0 := by
  refine ⟨_, _, ?_, no_lost_update (d := fun _ => 0) (
    section_sys (.schedule (s := mutexes) (f := 0) (w := ()) rfl) ⟨trivial, trivial, trivial⟩ <|
    section_sys (.schedule (f := 1) (w := ()) rfl) ⟨trivial, trivial, trivial⟩ <|
    section_sys (.poll (w := ()) rfl rfl) ⟨trivial, trivial, trivial⟩ <|
    section_sys (.dispatch (w := ()) rfl rfl) ⟨trivial, trivial, trivial⟩ <|
    section_sys (.tryWait (w := ()) (f := 0) (b := ()) ⟨rfl, rfl⟩ rfl rfl)
      ⟨trivial, trivial, trivial⟩ <|
    Run.step (.load (k := ()) (p := 0) rfl) <|
    section_sys (.yield (w := ()) (f := 0) ⟨rfl, rfl⟩ rfl) ⟨trivial, trivial, trivial⟩ <|
    section_sys (.switchRunnable (w := ()) rfl rfl) ⟨trivial, trivial, trivial⟩ <|
    section_sys (.requeue (w := ()) rfl) ⟨trivial, trivial, trivial⟩ <|
    section_sys (.poll (w := ()) rfl rfl) ⟨trivial, trivial, trivial⟩ <|
    section_sys (.dispatch (w := ()) rfl rfl) ⟨trivial, trivial, trivial⟩ <|
    section_sys (.tryWaitFail (w := ()) (f := 1) (b := ()) ⟨rfl, rfl⟩ rfl rfl)
      ⟨trivial, trivial, trivial⟩ <|
    section_sys (.yield (w := ()) (f := 1) ⟨rfl, rfl⟩ rfl) ⟨trivial, trivial, trivial⟩ <|
    section_sys (.switchRunnable (w := ()) rfl rfl) ⟨trivial, trivial, trivial⟩ <|
    section_sys (.requeue (w := ()) rfl) ⟨trivial, trivial, trivial⟩ <|
    section_sys (.poll (w := ()) rfl rfl) ⟨trivial, trivial, trivial⟩ <|
    section_sys (.dispatch (w := ()) rfl rfl) ⟨trivial, trivial, trivial⟩ <|
    Run.step (.store (k := ()) (p := 0) (f := (· + 1)) rfl rfl) <|
    section_sys (.wakeUpCounted (a := .fiber 0) (b := ()) ⟨⟨(), rfl, rfl⟩, rfl⟩ rfl)
      ⟨by simp [UnlocksHeld, mutexes], trivial, trivial⟩ <|
    section_sys (.finish (w := ()) (f := 0) ⟨rfl, rfl⟩ rfl) ⟨trivial, trivial, trivial⟩ <|
    section_sys (.switchOther (w := ()) rfl (by decide) (by decide)) ⟨trivial, trivial, trivial⟩ <|
    section_sys (.poll (w := ()) rfl rfl) ⟨trivial, trivial, trivial⟩ <|
    section_sys (.dispatch (w := ()) rfl rfl) ⟨trivial, trivial, trivial⟩ <|
    section_sys (.tryWait (w := ()) (f := 1) (b := ()) ⟨rfl, rfl⟩ rfl rfl)
      ⟨trivial, trivial, trivial⟩ <|
    Run.step (.load (k := ()) (p := 1) rfl) <|
    Run.step (.store (k := ()) (p := 1) (f := (· + 1)) rfl rfl) .refl) ()⟩
  rfl

end CxxFiber.Scheduler
