import CxxFiber.Scheduler.Change
import CxxFiber.Scheduler.Untimed

/-! A fiber that waits on a blocker is in its queue, or somebody is about to resume it, as long as
resumptions find their fiber let go. -/
namespace CxxFiber.Scheduler

variable {F W B T : Type}
  {s t : State F W B T} {loc : F → Loc F W B T} {f g : F} {w : W} {b : B} {a : Agent F W T} {n : ℕ}
  {act : Act F W B T}

/-- A suspended fiber that its timer resumes is in nobody's hands; one that is resumed after a
`wakeUp` waits for no descriptor and is in no wait queue either. -/
def Timely (s : State F W B T) : Act F W B T → Prop
  | .timer _ f => (s.fiber f).suspended = true → Off s f
  | .swapIn a => ∀ g n, s.resume a = some (.owed g n) → (s.fiber g).suspended = true →
      Off s g ∧ (s.fiber g).events = none ∧ ∀ b, g ∉ (s.blocker b).waitQueue
  | _ => True

theorem inv_timer_off [DecidableEq F] [DecidableEq W] [DecidableEq T]
    (hi : Inv s) (hw : s.InEvents w) (ht : (s.fiber f).timer = some w)
    (hg : (s.fiber f).suspended = true → Off s f) :
    Inv ((s.modFiber f .timeEvent).swapIn (.worker w) f) := by
  obtain ⟨hb, htimed⟩ : (s.fiber f).boundQueue = some w ∧ Timed (s.fiber f).pc := by
    obtain ⟨_, _, hf⟩ := hi
    exact (hf.record f).timer w ht
  refine (inv_timeEvent hi).swapIn (by simp [hw.2]) fun loc hl hf hs => ?_
  have hsus : (s.fiber f).suspended = true := by
    simpa [EFiber.timeEvent, EFiber.suspended] using hs
  have hoff : loc f = .off := hl.off_iff.mpr ((hg hsus).frame rfl rfl rfl)
  refine ⟨hoff, Or.inr ⟨w, rfl, by simpa [EFiber.timeEvent] using hb⟩, fun b hm => ?_⟩
  have he := hf.entry b f hm
  simp only [State.modFiber, Function.update_self] at he ⊢
  rcases he with ⟨k, hk, _⟩ | ⟨hk, _⟩ | ⟨hk, _⟩ <;> simp_all [EFiber.timeEvent, Timed]

theorem inv_timely [DecidableEq F] [DecidableEq W] [DecidableEq B] [DecidableEq T]
    (hst : Step s act t) (hg : Timely s act) (hi : Inv s) : Inv t := by
  have hst' := hst
  cases hst with
  | timer hw ht => exact inv_timer_off hi hw ht hg
  | @swapIn a g n ha =>
    refine hi.swapIn (by simp [ha, Resume.fiber?]) fun loc hl _ hs => ?_
    obtain ⟨hoff, hev, hno⟩ := hg g n ha hs
    exact ⟨hl.off_iff.mpr hoff, Or.inl hev, fun b hm => (hno b hm).elim⟩
  | _ => exact inv_step hst' ⟨trivial, trivial⟩ hi

/-- In a wait on `b`, suspended, and let go by its worker. -/
def Hangs (s : State F W B T) (f : F) (b : B) : Prop :=
  (∃ k, (s.fiber f).pc = .parked b k) ∧ (s.fiber f).state = .blocked ∧
    ∀ w, (s.worker w).fiber? ≠ some f

/-- Somebody has dequeued the fiber in this suspension, or has found it suspended, and is about to
resume it. -/
def Owed (s : State F W B T) (f : F) : Prop :=
  ∃ a, s.resume a = some (.owed f (s.fiber f).suspensions) ∨ s.resume a = some (.tested f)

/-- No waiting fiber is forgotten. -/
def Kept (s : State F W B T) : Prop :=
  ∀ f b, Hangs s f b → f ∈ (s.blocker b).waitQueue ∨ Owed s f

theorem mem_update [DecidableEq B] {c : EFiberBlocker F} {b' : B} (hc : b = b' → f ∈ c.waitQueue)
    (hf : f ∈ (s.blocker b).waitQueue) : f ∈ (Function.update s.blocker b' c b).waitQueue := by
  by_cases hb : b = b'
  · subst b'
    simpa using hc rfl
  · simpa [hb] using hf

theorem kept_initial {capacity limit : B → ℕ} :
    Kept (initial capacity limit : State F W B T) := by
  intro f b h
  exact nomatch h.2.1

variable [DecidableEq F] [DecidableEq W] [DecidableEq B] [DecidableEq T]

/-- A fiber leaves a wait queue in a `wakeUp` or by its own `remove`. -/
theorem linked_step (hst : Step s act t) (hf : f ∈ (s.blocker b).waitQueue) :
    f ∈ (t.blocker b).waitQueue ∨
      (∃ a, act = .wakeUp a b ∧ t.resume a = some (.owed f (s.fiber f).suspensions)) ∨
      (∃ w, act = .remove f b ∧ s.Active w f) := by
  cases hst with
  | tryWait _ _ hc | tryWaitFail _ _ hc | threadTryWait _ hc | check _ _ hc =>
    refine Or.inl (mem_update (fun hb => ?_) hf)
    rw [tryWait_waitQueue hc, ← hb]
    exact hf
  | @removeTrue w g b' c ha _ hc | @removeFalse w g b' c ha _ hc =>
    obtain rfl : ((s.blocker b').remove g).1 = c := congrArg Prod.fst hc
    by_cases hg : f = g ∧ b = b'
    · obtain ⟨rfl, rfl⟩ := hg
      exact Or.inr (Or.inr ⟨w, rfl, ha⟩)
    · refine Or.inl (mem_update (fun hb => ?_) hf)
      subst hb
      exact (List.mem_erase_of_ne fun he => hg ⟨he, rfl⟩).mpr hf
  | swapOutPermit _ hc =>
    obtain ⟨-, rfl⟩ := EFiberBlocker.swapOut_permit.mp hc
    refine Or.inl (mem_update (fun hb => ?_) hf)
    exact hb ▸ hf
  | swapOutHung _ hc =>
    obtain ⟨-, rfl⟩ := EFiberBlocker.swapOut_hung.mp hc
    refine Or.inl (mem_update (fun hb => ?_) hf)
    exact List.mem_append_left _ (hb ▸ hf)
  | wakeUpRefused _ hc =>
    obtain ⟨-, -, rfl⟩ := EFiberBlocker.wakeUp_refused.mp hc
    rw [release_eq.2.1]
    refine Or.inl (mem_update (fun hb => ?_) hf)
    exact hb ▸ hf
  | wakeUpCounted _ hc =>
    obtain ⟨-, -, rfl⟩ := EFiberBlocker.wakeUp_counted.mp hc
    rw [release_eq.2.1]
    refine Or.inl (mem_update (fun hb => ?_) hf)
    exact hb ▸ hf
  | @wakeUpWaiter x b' c g _ hc =>
    obtain ⟨q, hq, rfl⟩ := EFiberBlocker.wakeUp_waiter.mp hc
    by_cases hg : f = g ∧ b = b'
    · obtain ⟨rfl, rfl⟩ := hg
      exact Or.inr (Or.inl ⟨x, rfl, by simp⟩)
    · left
      change f ∈ ((State.release _ b' x).blocker b).waitQueue
      rw [release_eq.2.1]
      refine mem_update (fun hb => ?_) hf
      subst hb
      rw [hq] at hf
      exact (List.mem_cons.mp hf).resolve_left fun he => hg ⟨he, rfl⟩
  | timer | fileEvent | swapIn =>
    left
    rw [swapIn_blocker]
    exact hf
  | _ => exact Or.inl hf

/-- What is outstanding of a `swapIn` changes only when it is run. -/
theorem resume_next {r : Resume F} (hst : Step s act t) (ha : s.resume a = some r) :
    t.resume a = some r ∨
      (∃ g n, act = .swapIn a ∧ r = .owed g n ∧ t.resume a =
        if (s.fiber g).suspended then some (.tested g) else none) ∨
      (∃ g, act = .write a ∧ r = .tested g) ∨ ∃ g, act = .add a ∧ r = .adding g := by
  have hne : ∀ {x}, s.resume x = none → a ≠ x := by
    rintro x hx rfl
    exact nomatch hx.symm.trans ha
  cases hst with
  | timer hw | fileEvent hw => exact Or.inl ((swapIn_resume (hne hw.2)).trans ha)
  | @swapIn x g m hx =>
    by_cases hxa : a = x
    · subst x
      obtain rfl := Option.some.inj (ha.symm.trans hx)
      exact Or.inr (Or.inl ⟨g, m, rfl, rfl, swapIn_resume_self⟩)
    · exact Or.inl ((swapIn_resume hxa).trans ha)
  | @write x g hx =>
    by_cases hxa : a = x
    · subst x
      exact Or.inr (Or.inr (Or.inl ⟨g, rfl, Option.some.inj (ha.symm.trans hx)⟩))
    · exact Or.inl (by simpa [hxa] using ha)
  | @add x g v hx =>
    by_cases hxa : a = x
    · subst x
      exact Or.inr (Or.inr (Or.inr ⟨g, rfl, Option.some.inj (ha.symm.trans hx)⟩))
    · exact Or.inl (by simpa [hxa] using ha)
  | wakeUpRefused | wakeUpCounted =>
    left
    rw [release_eq.2.2.2.2]
    exact ha
  | @wakeUpWaiter x b' c g hx hc =>
    left
    change Function.update _ x _ a = _
    rw [Function.update_of_ne (hne hx.resume_none), release_eq.2.2.2.2]
    exact ha
  | _ => exact Or.inl ha

theorem write_suspended (hst : Step s (.write a) t) (ha : s.resume a = some (.tested f)) :
    (t.fiber f).suspended = false := by
  cases hst with
  | write hx =>
    obtain rfl := Resume.tested.inj (Option.some.inj (hx.symm.trans ha))
    simp [EFiber.swapIn, EFiber.suspended]

/-- Who is about to resume a fiber goes on to, unless it has been resumed. -/
theorem owed_step (hst : Step s act t) (ho : Owed s f)
    (hn : (t.fiber f).suspensions = (s.fiber f).suspensions)
    (hs : (s.fiber f).suspended = true) : Owed t f ∨ (t.fiber f).suspended = false := by
  obtain ⟨a, ha | ha⟩ := ho
  · rcases resume_next hst ha with h | ⟨g, n, -, hr, h⟩ | ⟨g, -, hr⟩ | ⟨g, -, hr⟩
    · exact Or.inl ⟨a, Or.inl (hn ▸ h)⟩
    · obtain ⟨rfl, -⟩ := Resume.owed.inj hr
      exact Or.inl ⟨a, Or.inr (by rw [h, if_pos hs])⟩
    · exact nomatch hr
    · exact nomatch hr
  · rcases resume_next hst ha with h | ⟨g, n, -, hr, -⟩ | ⟨g, rfl, -⟩ | ⟨g, -, hr⟩
    · exact Or.inl ⟨a, Or.inr h⟩
    · exact nomatch hr
    · exact Or.inr (write_suspended hst ha)
    · exact nomatch hr

section

omit [DecidableEq F] [DecidableEq W] [DecidableEq B] [DecidableEq T]

theorem Hangs.suspended (h : Hangs s f b) : (s.fiber f).suspended = true := by
  simp [EFiber.suspended, h.2.1]

end

theorem linked_swapOut (hst : Step s (.swapOut w) t) (hw : s.worker w = .swapOut f b)
    (h0 : (s.blocker b).wakeup = 0) : f ∈ (t.blocker b).waitQueue := by
  cases hst with
  | swapOutPermit hw' hc =>
    obtain ⟨rfl, rfl⟩ := WorkerPc.swapOut.inj (hw.symm.trans hw')
    have hpos := (EFiberBlocker.swapOut_permit.mp hc).1
    omega
  | swapOutHung hw' hc =>
    obtain ⟨rfl, rfl⟩ := WorkerPc.swapOut.inj (hw.symm.trans hw')
    obtain ⟨-, rfl⟩ := EFiberBlocker.swapOut_hung.mp hc
    simp

/-- A worker lets a fiber go in a wait only when `swapOut` has put it into the queue. -/
theorem hangs_step (hst : Step s act t) (hi : Inv s) (hf : Hangs t f b) :
    (t.fiber f).suspensions = (s.fiber f).suspensions ∧
      (Hangs s f b ∨ f ∈ (t.blocker b).waitQueue) := by
  obtain ⟨⟨k, hp⟩, hs, hfree⟩ := hf
  obtain ⟨loc, hl, hfacts⟩ := hi
  have hplace : ∀ w, (s.worker w).fiber? = some f →
      PlaceOk (s.fiber f) (.held w (s.worker w) : Loc F W B T) := by
    intro w hw
    have hpl := hfacts.place f
    rwa [(hl.held w f _).mpr ⟨rfl, hw⟩] at hpl
  have hq : ∀ w, s.worker w = .requeue f → (s.fiber f).pc = .parked b k →
      (s.fiber f).state ≠ .blocked := by
    intro w hw hpc hb
    have hpl := hplace w (by rw [hw]; rfl)
    rw [hw] at hpl
    have hsus := hpl.1.2 (by simp [hpc, Suspending])
    simp [EFiber.suspended, hb] at hsus
  obtain ⟨⟨hp', hs', hn⟩, hfree' | ⟨w, b', rfl, hw, h0⟩⟩ := letGo_parked hst hq hp hs hfree
  · exact ⟨hn, Or.inl ⟨⟨k, hp'⟩, hs', hfree'⟩⟩
  · have hpl := hplace w (by rw [hw]; rfl)
    rw [hw] at hpl
    obtain ⟨_, _, _, hpc⟩ := hpl
    have hbb : b' = b := by
      rcases hpc with hpc | ⟨k', hpc⟩
      · cases hpc.symm.trans hp'
      · exact (FiberPc.parked.inj (hpc.symm.trans hp')).1
    exact ⟨hn, Or.inr (hbb ▸ linked_swapOut hst hw h0)⟩

theorem kept_step (hst : Step s act t) (hi : Inv s) (h : Kept s) : Kept t := by
  intro f b hf
  obtain ⟨hn, hs | hq⟩ := hangs_step hst hi hf
  · rcases h f b hs with hm | ho
    · rcases linked_step hst hm with hm | ⟨a, _, ha⟩ | ⟨w, _, ha⟩
      · exact Or.inl hm
      · exact Or.inr ⟨a, Or.inl (hn ▸ ha)⟩
      · exact (hs.2.2 w (by rw [ha.1]; rfl)).elim
    · rcases owed_step hst ho hn hs.suspended with ho | hno
      · exact Or.inr ho
      · exact nomatch hno.symm.trans hf.suspended
  · exact Or.inl hq

end CxxFiber.Scheduler
