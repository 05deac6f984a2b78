import CxxFiber.Scheduler.Preservation

/-! Run queues hold no fiber twice, and none that a worker has in its hands. -/
namespace CxxFiber.Scheduler

open Transition

variable {F W B T : Type}
  {s t : State F W B T} {loc : F → Loc F W B T} {f : F} {w v : W} {a : Agent F W T}
  {capacity limit : B → ℕ} {acts : List (Act F W B T)}

/-- `f` is in no run queue and no worker has polled it. -/
def Idle (s : State F W B T) (f : F) : Prop :=
  (∀ w, f ∉ s.taskQueue w) ∧ ∀ w, (s.worker w).fiber? ≠ some f

/-- The queue discipline. `adding`, `requeue` and `fresh` are the states in which one of the
three callers of `add` is about to run. -/
structure RunQueuesExclusive (s : State F W B T) : Prop where
  once : ∀ w, (s.taskQueue w).Nodup
  one : ∀ f w v, f ∈ s.taskQueue w → f ∈ s.taskQueue v → w = v
  polled : ∀ f w v, (s.worker w).fiber? = some f → f ∉ s.taskQueue v
  single : ∀ f w v, (s.worker w).fiber? = some f → (s.worker v).fiber? = some f → w = v
  adding : ∀ a f, s.resume a = some (.adding f) → Idle s f
  requeue : ∀ w f, s.worker w = .requeue f →
    (∀ v, f ∉ s.taskQueue v) ∧ ∀ v, v ≠ w → (s.worker v).fiber? ≠ some f
  fresh : ∀ f, (s.fiber f).state = .new → Idle s f

theorem Located.idle (h : Located s loc) (hq : ∀ w, loc f ≠ .queued w)
    (hh : ∀ w p, loc f ≠ .held w p) : Idle s f := by
  refine ⟨fun w hm => ?_, fun w hw => ?_⟩
  · exact hq w ((h.queue w f).mp hm)
  · exact hh w _ ((h.held w f _).mpr ⟨rfl, hw⟩)

/-- One place for each fiber is all the discipline asks for. -/
theorem Inv.exclusive (hi : Inv s) : RunQueuesExclusive s := by
  obtain ⟨loc, hl, hf⟩ := hi
  have hpolled : ∀ f w v, (s.worker w).fiber? = some f → f ∉ s.taskQueue v := by
    intro f w v hw hm
    have hh := (hl.held w f _).mpr ⟨rfl, hw⟩
    have hq := (hl.queue v f).mp hm
    rw [hh] at hq
    exact nomatch hq
  have hsingle : ∀ f w v, (s.worker w).fiber? = some f → (s.worker v).fiber? = some f →
      w = v := by
    intro f w v hw hv
    have h₁ := (hl.held w f _).mpr ⟨rfl, hw⟩
    have h₂ := (hl.held v f _).mpr ⟨rfl, hv⟩
    rw [h₁] at h₂
    exact (Loc.held.inj h₂).1
  refine ⟨hl.nodup, fun f w v hw hv => ?_, hpolled, hsingle, fun a f ha => ?_,
    fun w f hw => ?_, fun f hn => ?_⟩
  · have h₁ := (hl.queue w f).mp hw
    have h₂ := (hl.queue v f).mp hv
    rw [h₁] at h₂
    exact Loc.queued.inj h₂
  · have hloc := (hl.resuming a f _).mpr ⟨ha, rfl⟩
    exact hl.idle (by simp [hloc]) (by simp [hloc])
  · have hp : (s.worker w).fiber? = some f := by rw [hw]; rfl
    exact ⟨fun v => hpolled f w v hp, fun v hne hv => hne (hsingle f v w hv hp)⟩
  · have hloc := hf.place_new hn
    exact hl.idle (by simp [hloc]) (by simp [hloc])

variable [DecidableEq F] [DecidableEq W] [DecidableEq B] [DecidableEq T]

theorem run_queues_exclusive (h : Run (Guarded OnTime Step) (initial capacity limit) acts s) :
    RunQueuesExclusive s := (inv_run h).exclusive

/-- A timed wait that is hung, times out and is re-queued by the timer. -/
theorem run_queues_exclusive_timeout : ∃ s : State Unit Unit Unit Unit,
    s.taskQueue () = [()] ∧ (s.fiber ()).isIoWaitTimeout = true ∧ RunQueuesExclusive s := by
  refine ⟨_, ?_, ?_, run_queues_exclusive <|
    .guard (.schedule (s := initial (fun _ => 0) fun _ => 1) (f := ()) (w := ()) rfl)
      ⟨trivial, trivial⟩ <|
    .guard (.poll (w := ()) rfl rfl) ⟨trivial, trivial⟩ <|
    .guard (.dispatch (w := ()) rfl rfl) ⟨trivial, trivial⟩ <|
    .guard (.check (w := ()) (f := ()) (b := ()) (k := .tryWait true) ⟨rfl, rfl⟩ rfl rfl)
      ⟨trivial, trivial⟩ <|
    .guard (.block (w := ()) (f := ()) ⟨rfl, rfl⟩ rfl) ⟨trivial, trivial⟩ <|
    .guard (.switchBlocked (w := ()) rfl rfl rfl) ⟨trivial, trivial⟩ <|
    .guard (.swapOutHung (w := ()) rfl rfl) ⟨trivial, trivial⟩ <|
    .guard (.pollEmpty (w := ()) rfl rfl) ⟨trivial, trivial⟩ <|
    .guard (.timer (w := ()) (f := ()) ⟨Or.inl rfl, rfl⟩ rfl) ⟨nofun, nofun⟩ <|
    .guard (.write (a := .worker ()) rfl) ⟨trivial, trivial⟩ <|
    .guard (.add (a := .worker ()) (v := ()) rfl rfl) ⟨trivial, trivial⟩ .refl⟩
  · rfl
  · rfl

/-- A `wakeUp` lands between the check of a timed wait and its `swapOut`, so the fiber is
re-queued with its timer armed and its state still BLOCKED; the timer queues it again. -/
theorem run_queues_not_exclusive : ∃ s : State Unit Unit Unit Unit,
    Reachable Step (initial (fun _ => 0) fun _ => 1) s ∧ ¬ RunQueuesExclusive s := by
  refine ⟨_, ⟨_,
    .step (.schedule (f := ()) (w := ()) rfl) <|
    .step (.poll (w := ()) rfl rfl) <|
    .step (.dispatch (w := ()) rfl rfl) <|
    .step (.check (w := ()) (f := ()) (b := ()) (k := .tryWait true) ⟨rfl, rfl⟩ rfl rfl) <|
    .step (.wakeUpCounted (a := .thread ()) (b := ()) rfl rfl) <|
    .step (.block (w := ()) (f := ()) ⟨rfl, rfl⟩ rfl) <|
    .step (.switchBlocked (w := ()) rfl rfl rfl) <|
    .step (.swapOutPermit (w := ()) rfl rfl) <|
    .step (.requeue (w := ()) rfl) <|
    .step (.poll (w := ()) rfl rfl) <|
    .step (.timer (w := ()) (f := ()) ⟨Or.inr ⟨(), rfl⟩, rfl⟩ rfl) <|
    .step (.write (a := .worker ()) rfl) <|
    .step (.add (a := .worker ()) (v := ()) rfl rfl) .refl⟩, fun h => ?_⟩
  exact h.polled () () () rfl (List.mem_singleton.mpr rfl)

end CxxFiber.Scheduler
