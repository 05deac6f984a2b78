import CxxFiber.Library.Fifo
import CxxFiber.Scheduler.Preservation

/-! Nobody overtakes a fiber that hangs on a blocker: not by a first check, not by `tryWait`, and
not by hanging later. -/
namespace CxxFiber.Scheduler

open Fifo Transition

variable {F W B T : Type} [DecidableEq F] [DecidableEq W] [DecidableEq B] [DecidableEq T]
  {s t u : State F W B T} {f g : F} {b c : B} {d : EFiberBlocker F} {a x : Agent F W T}
  {act : Act F W B T} {as bs : List (Act F W B T)} {capacity limit : B → ℕ}

/-- Whether a step is a `wakeUp` of `b`. -/
def wakes (b : B) : Act F W B T → Bool
  | .wakeUp _ c => decide (c = b)
  | _ => false

/-- What a step can do to one blocker. -/
inductive Serves (s : State F W B T) (b : B) : Act F W B T → EFiberBlocker F → Prop
  | keep {act : Act F W B T} : wakes b act = false → Serves s b act (s.blocker b)
  | tryWait {act : Act F W B T} {d r} : wakes b act = false →
      (s.blocker b).tryWait = (d, r) → Serves s b act d
  | swapOut {w f d r} : (s.blocker b).swapOut f = (d, r) → Serves s b (.swapOut w) d
  | remove {f d r} : (s.blocker b).remove f = (d, r) → Serves s b (.remove f b) d
  | wakeUp {a d r} : (s.blocker b).wakeUp = (d, r) → Serves s b (.wakeUp a b) d

theorem serves_step (hst : Step s act t) (b : B) : Serves s b act (t.blocker b) := by
  have hset : ∀ {c d}, Serves s c act d → t.blocker = Function.update s.blocker c d →
      (b ≠ c → wakes b act = false) → Serves s b act (t.blocker b) := by
    intro c d hs ht hw
    rw [ht]
    by_cases hbc : b = c
    · subst c
      simpa using hs
    · rw [Function.update_of_ne hbc]
      exact .keep (hw hbc)
  cases hst with
  | tryWait _ _ hd | tryWaitFail _ _ hd | check _ _ hd | threadTryWait _ hd =>
    exact hset (.tryWait rfl hd) rfl fun _ => rfl
  | removeTrue _ _ hd | removeFalse _ _ hd => exact hset (.remove hd) rfl fun _ => rfl
  | swapOutPermit _ hd | swapOutHung _ hd => exact hset (.swapOut hd) rfl fun _ => rfl
  | @wakeUpRefused a c d _ hd | @wakeUpCounted a c d _ hd | @wakeUpWaiter a c d _ _ hd =>
    refine hset (c := c) (.wakeUp hd) ?_ fun hne => by simpa [wakes] using Ne.symm hne
    cases a <;> rfl
  | timer | fileEvent | swapIn =>
    rw [swapIn_blocker]
    exact .keep rfl
  | _ => exact .keep rfl

/-- A permit is spare only while nobody waits for one. -/
def NoSpare (s : State F W B T) : Prop :=
  ∀ b, 0 < (s.blocker b).wakeup → (s.blocker b).waitQueue = []

theorem noSpare_step (hst : Step s act t) (h : NoSpare s) : NoSpare t := by
  intro b hw
  have hs := serves_step hst b
  generalize t.blocker b = d at hs hw ⊢
  cases hs with
  | keep => exact h b hw
  | @tryWait _ _ r _ hd =>
    cases r with
    | true =>
      obtain ⟨hpos, rfl⟩ := EFiberBlocker.tryWait_true.mp hd
      exact h b hpos
    | false =>
      obtain ⟨-, rfl⟩ := EFiberBlocker.tryWait_false.mp hd
      exact h b hw
  | @swapOut w f _ r hd =>
    cases r with
    | true =>
      obtain ⟨hz, rfl⟩ := EFiberBlocker.swapOut_hung.mp hd
      simp [hz] at hw
    | false =>
      obtain ⟨hpos, rfl⟩ := EFiberBlocker.swapOut_permit.mp hd
      exact h b hpos
  | remove hd =>
    obtain ⟨rfl, -⟩ := Prod.mk.inj hd
    simp [h b hw]
  | @wakeUp a _ r hd =>
    cases r with
    | refused =>
      obtain ⟨hq, -, rfl⟩ := EFiberBlocker.wakeUp_refused.mp hd
      exact hq
    | counted =>
      obtain ⟨hq, -, rfl⟩ := EFiberBlocker.wakeUp_counted.mp hd
      exact hq
    | waiter g =>
      obtain ⟨q, hq, rfl⟩ := EFiberBlocker.wakeUp_waiter.mp hd
      simp [h b hw] at hq

/-- `f` is not dequeued from `b`, and does not take itself out of its queue after a timeout. -/
def StillWaits (f : F) (b : B) (s : State F W B T) : Act F W B T → Prop
  | .wakeUp _ c => c = b → (s.blocker b).waitQueue.head? ≠ some f
  | .remove g c => c = b → g ≠ f
  | _ => True

/-- What a step does to the wait queue that `f` is in. -/
theorem pass_step (hst : Step s act t) (hg : StillWaits f b s act)
    (hf : f ∈ (s.blocker b).waitQueue) :
    Pass f (s.blocker b).waitQueue (wakes b act) (t.blocker b).waitQueue := by
  have hkeep : Pass f (s.blocker b).waitQueue false (s.blocker b).waitQueue := by
    simpa using Pass.push (x := f) (q := (s.blocker b).waitQueue) []
  have hs := serves_step hst b
  generalize t.blocker b = d at hs ⊢
  cases hs with
  | keep hw => rwa [hw]
  | @tryWait _ _ r hw hd =>
    rw [hw]
    cases r with
    | true =>
      obtain ⟨-, rfl⟩ := EFiberBlocker.tryWait_true.mp hd
      exact hkeep
    | false =>
      obtain ⟨-, rfl⟩ := EFiberBlocker.tryWait_false.mp hd
      exact hkeep
  | @swapOut w g _ r hd =>
    cases r with
    | true =>
      obtain ⟨-, rfl⟩ := EFiberBlocker.swapOut_hung.mp hd
      exact .push [g]
    | false =>
      obtain ⟨-, rfl⟩ := EFiberBlocker.swapOut_permit.mp hd
      exact hkeep
  | remove hd =>
    obtain ⟨rfl, -⟩ := Prod.mk.inj hd
    exact .leave (hg rfl)
  | @wakeUp a _ r hd =>
    have htrue : wakes b (Act.wakeUp a b) = true := by simp [wakes]
    rw [htrue]
    cases r with
    | refused =>
      obtain ⟨hq, -, -⟩ := EFiberBlocker.wakeUp_refused.mp hd
      simp [hq] at hf
    | counted =>
      obtain ⟨hq, -, -⟩ := EFiberBlocker.wakeUp_counted.mp hd
      simp [hq] at hf
    | waiter g =>
      obtain ⟨q, hq, rfl⟩ := EFiberBlocker.wakeUp_waiter.mp hd
      have hne : g ≠ f := by simpa [hq] using hg rfl
      rw [hq]
      exact .take hne

/-- How often `b` has been woken. -/
def wakeUps (b : B) (as : List (Act F W B T)) : ℕ := (as.map (wakes b)).count true

/-- While `f` waits, those before it are the only ones that can leave before it. -/
theorem pass_run (h : Run (Guarded (StillWaits f b) Step) s bs u)
    (hf : f ∈ (s.blocker b).waitQueue) : f ∈ (u.blocker b).waitQueue ∧
    (ahead f (u.blocker b).waitQueue).Sublist (ahead f (s.blocker b).waitQueue) ∧
    (ahead f (u.blocker b).waitQueue).length + wakeUps b bs ≤
      (ahead f (s.blocker b).waitQueue).length := by
  refine ahead_run (h.map (r := fun z => (z.blocker b).waitQueue)
    (I := fun z => f ∈ (z.blocker b).waitQueue) (fun z y v hz hst => ?_)
    (fun z y v hz hst => pass_step hst.2 hst.1 hz) hf) hf
  exact (ahead_pass (pass_step hst.2 hst.1 hz) hz).1

/-- Who gets what by a step: a permit that it finds, or its turn. -/
inductive Grants (s : State F W B T) (b : B) : Act F W B T → Agent F W T → Prop
  | tryWait {g : F} : 0 < (s.blocker b).wakeup → Grants s b (.tryWait g b) (.fiber g)
  | threadTryWait {v : T} : 0 < (s.blocker b).wakeup → Grants s b (.threadTryWait v b) (.thread v)
  | swapOut {w f} : s.worker w = .swapOut f b → 0 < (s.blocker b).wakeup →
      Grants s b (.swapOut w) (.fiber f)
  | wakeUp {a f q} : (s.blocker b).waitQueue = f :: q → Grants s b (.wakeUp a b) (.fiber f)

section

omit [DecidableEq F] [DecidableEq W] [DecidableEq B] [DecidableEq T]

theorem noSpare_initial : NoSpare (initial capacity limit : State F W B T) :=
  fun _ _ => rfl

end

/-- In a run in which no resume comes late, while `f` waits, a blocker is granted to those who were
before it and then to `f`, one of them at every `wakeUp`, and to nobody else; who is granted was
linked in this queue only, and once. -/
theorem granted_in_turn (h : Run (Guarded OnTime Step) (initial capacity limit) as s)
    (hf : f ∈ (s.blocker b).waitQueue)
    (h' : Run (Guarded (StillWaits f b) (Guarded OnTime Step)) s bs u)
    (hg : Grants u b act x) : ∃ g, x = .fiber g ∧
      (g = f ∨ g ∈ ahead f (s.blocker b).waitQueue) ∧
      wakeUps b bs ≤ (ahead f (s.blocker b).waitQueue).length ∧
      (wakeUps b bs = (ahead f (s.blocker b).waitQueue).length → g = f) ∧
      ∀ c, (u.blocker c).waitQueue.count g = if c = b then 1 else 0 := by
  have hpass : Run (Guarded (StillWaits f b) Step) s bs u :=
    h'.imp (I := fun _ => True) (fun _ _ _ _ hst => ⟨hst.1, hst.2.2⟩) (fun _ _ _ _ _ => trivial)
      trivial
  obtain ⟨hfu, hsub, hlen⟩ := pass_run hpass hf
  have hspare : ¬ 0 < (u.blocker b).wakeup := by
    intro hw
    have hs := h.unguarded.invariant (fun _ _ _ hi hst => noSpare_step hst hi) noSpare_initial
    have hu := hpass.unguarded.invariant (fun _ _ _ hi hst => noSpare_step hst hi) hs
    rw [hu b hw] at hfu
    exact List.not_mem_nil hfu
  obtain ⟨loc, -, hfacts⟩ : Inv u :=
    h'.invariant (fun _ _ _ hi hst => inv_step hst.2.2 hst.2.1 hi) (inv_run h)
  cases hg with
  | tryWait hw | threadTryWait hw | swapOut _ hw => exact (hspare hw).elim
  | @wakeUp a g q hq =>
    rw [hq] at hsub hlen
    have hhead : g = f ∨ g ∈ ahead f (g :: q) := by
      by_cases hgf : g = f
      · exact Or.inl hgf
      · exact Or.inr (by simp [ahead, hgf])
    refine ⟨g, rfl, hhead.imp_right fun hm => hsub.subset hm, by omega, fun hall => ?_,
      fun c => ?_⟩
    · refine hhead.resolve_right fun hm => ?_
      have hpos := List.length_pos_of_mem hm
      omega
    · have hm : g ∈ (u.blocker b).waitQueue := by simp [hq]
      split
      · next hc => exact hc ▸ List.count_eq_one_of_mem (hfacts.nodup b) hm
      · next hc => exact List.count_eq_zero.mpr fun hm' => hc (hfacts.entry_one hm' hm)

/-- Two fibers hang one behind the other; the second one is granted at the second `wakeUp`. -/
theorem granted_in_turn_second : ∃ s u : State (Fin 2) Unit Unit Unit,
    ∃ bs : List (Act (Fin 2) Unit Unit Unit),
    (s.blocker ()).waitQueue = [0, 1] ∧ wakeUps () bs = 1 ∧
    ∃ g, (.fiber 1 : Agent (Fin 2) Unit Unit) = .fiber g ∧
      (g = 1 ∨ g ∈ ahead 1 (s.blocker ()).waitQueue) ∧
      wakeUps () bs ≤ (ahead 1 (s.blocker ()).waitQueue).length ∧
      (wakeUps () bs = (ahead 1 (s.blocker ()).waitQueue).length → g = 1) ∧
      ∀ c, (u.blocker c).waitQueue.count g = if c = () then 1 else 0 := by
  refine ⟨_, _, _, ?_, ?_, granted_in_turn (x := .fiber 1)
    (.guard (.schedule (s := initial (fun _ => 0) fun _ => 1) (f := 0) (w := ()) rfl)
      ⟨trivial, trivial⟩ <|
    .guard (.schedule (f := 1) (w := ()) rfl) ⟨trivial, trivial⟩ <|
    .guard (.poll (w := ()) rfl rfl) ⟨trivial, trivial⟩ <|
    .guard (.dispatch (w := ()) rfl rfl) ⟨trivial, trivial⟩ <|
    .guard (.check (w := ()) (f := 0) (b := ()) (k := .wait) ⟨rfl, rfl⟩ rfl rfl)
      ⟨trivial, trivial⟩ <|
    .guard (.block (w := ()) (f := 0) ⟨rfl, rfl⟩ rfl) ⟨trivial, trivial⟩ <|
    .guard (.switchBlocked (w := ()) rfl rfl rfl) ⟨trivial, trivial⟩ <|
    .guard (.swapOutHung (w := ()) rfl rfl) ⟨trivial, trivial⟩ <|
    .guard (.poll (w := ()) rfl rfl) ⟨trivial, trivial⟩ <|
    .guard (.dispatch (w := ()) rfl rfl) ⟨trivial, trivial⟩ <|
    .guard (.check (w := ()) (f := 1) (b := ()) (k := .wait) ⟨rfl, rfl⟩ rfl rfl)
      ⟨trivial, trivial⟩ <|
    .guard (.block (w := ()) (f := 1) ⟨rfl, rfl⟩ rfl) ⟨trivial, trivial⟩ <|
    .guard (.switchBlocked (w := ()) rfl rfl rfl) ⟨trivial, trivial⟩ <|
    .guard (.swapOutHung (w := ()) rfl rfl) ⟨trivial, trivial⟩ .refl) ?_
    (.guard ⟨show OnTime _ (.wakeUp (.thread ()) ()) from ⟨trivial, trivial⟩, .wakeUpWaiter rfl rfl⟩
      (fun _ => by decide) .refl)
    (.wakeUp (a := .thread ()) (q := []) rfl)⟩
  · rfl
  · rfl
  · exact List.mem_cons_of_mem _ (List.mem_singleton.mpr rfl)

end CxxFiber.Scheduler
