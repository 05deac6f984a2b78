import CxxFiber.Library.Fifo
import CxxFiber.Scheduler.Change
import CxxFiber.Scheduler.RunQueue

/-! Fibers run in the order in which they were queued. -/
namespace CxxFiber.Scheduler

open Fifo Transition

variable {F W B T : Type} [DecidableEq F] [DecidableEq W] [DecidableEq B] [DecidableEq T]
  {s t u v : State F W B T} {f g : F} {w : W} {act : Act F W B T}
  {as bs acts : List (Act F W B T)} {capacity limit : B → ℕ}

/-- What a step does to one run queue. -/
theorem serve_step (hst : Step s act t) (w : W) :
    Serve (s.taskQueue w) (decide (act = .poll w)) (t.taskQueue w) := by
  have hkeep : ∀ {q : List F}, Serve q false q := fun {q} => by
    simpa using Serve.push (q := q) []
  have hadd : ∀ {x : State F W B T} {v f}, x.taskQueue = s.taskQueue →
      Serve (s.taskQueue w) false ((x.add v f).taskQueue w) := by
    intro x v f hx
    by_cases hv : w = v
    · subst v
      simpa [hx] using Serve.push [f]
    · simpa [hv, hx] using hkeep
  cases hst with
  | @poll v f q hw hq =>
    by_cases hv : v = w
    · subst v
      simpa [hq] using Serve.take
    · simpa [hv, Ne.symm hv] using hkeep
  | schedule | requeue | add => simpa using hadd rfl
  | timer | fileEvent | swapIn =>
    rw [swapIn_taskQueue]
    simpa using hkeep
  | @wakeUpRefused a | @wakeUpCounted a | @wakeUpWaiter a => cases a <;> exact hkeep
  | _ => exact hkeep

/-- How often a worker has polled. -/
def polls (as : List (Act F W B T)) (w : W) : ℕ := (as.map fun a => decide (a = .poll w)).count true

theorem queue_run (h : Run Step s as t) : ∃ added, polls as w ≤ (s.taskQueue w ++ added).length ∧
    t.taskQueue w = (s.taskQueue w ++ added).drop (polls as w) :=
  serve_run <| h.map (I := fun _ => True) (fun _ _ _ _ _ => trivial)
    (fun _ _ _ _ hst => serve_step hst w) trivial

/-- Whoever had more fibers before it than have been polled is still in the queue, behind the
rest of them. -/
theorem queued_of_polls (h : Run Step s as t) {i : ℕ} (hi : (s.taskQueue w)[i]? = some f)
    (hle : polls as w ≤ i) : (t.taskQueue w)[i - polls as w]? = some f := by
  obtain ⟨added, -, hq⟩ := queue_run (w := w) h
  have hlt := (List.getElem?_eq_some_iff.mp hi).1
  rw [hq, List.getElem?_drop, Nat.add_sub_cancel' hle, List.getElem?_append_left hlt, hi]

theorem polls_append : polls (as ++ bs) w = polls as w + polls bs w := by
  simp [polls]

/-- A worker does not go idle while someone is in its queue. -/
theorem not_idle (h : Run Step s as t) {i : ℕ} (hi : (s.taskQueue w)[i]? = some f)
    (hle : polls as w ≤ i) : .pollEmpty w ∉ as := by
  induction h generalizing i with
  | refl => exact List.not_mem_nil
  | @step s u t act as hst _ ih =>
    have hpolls : polls ([act] ++ as) w = polls [act] w + polls as w := polls_append
    rw [List.singleton_append] at hpolls
    have hu := queued_of_polls (.step hst .refl) hi (by omega)
    refine fun hm => (List.mem_cons.mp hm).elim (fun he => ?_) (ih hu (by omega))
    subst he
    cases hst with
    | pollEmpty _ hq => simp [hq] at hi

/-- A fiber that a worker has polled stays with it until it is dispatched. -/
theorem polled_step (hst : Step s act t) (hp : s.worker w = .polled f) (ha : act ≠ .dispatch w) :
    t.worker w = .polled f := by
  have hm := moves_step hst w
  generalize t.worker w = p at hm ⊢
  cases hm with
  | keep => exact hp
  | dispatch hw => exact (ha rfl).elim
  | _ hw => simp [hp] at hw

theorem polled_run (h : Run Step s as t) (hp : s.worker w = .polled f) (ha : .dispatch w ∉ as) :
    t.worker w = .polled f := by
  induction h with
  | refl => exact hp
  | step hst _ ih =>
    obtain ⟨hne, hrest⟩ := not_or.mp fun hm => ha (List.mem_cons.mpr hm)
    exact ih (polled_step hst hp (Ne.symm hne)) hrest

/-- In a run in which no resume comes late, a fiber with `n` others before it in a run queue is the
`n + 1`st that its worker runs from then on, and is in no queue then; whoever is queued later runs
later, and the worker does not go idle before. -/
theorem runs_in_turn (hs : Run (Guarded OnTime Step) (initial capacity limit) acts s)
    (h : Run (Guarded OnTime Step) s as u) {u' : State F W B T} (hp : Step u (.poll w) u')
    (hr : Run (Guarded OnTime Step) u' bs v) (hb : .dispatch w ∉ bs) (hd : Step v (.dispatch w) t)
    (hi : (s.taskQueue w)[polls as w]? = some f) :
    t.worker w = .running f ∧ (∀ x, f ∉ t.taskQueue x) ∧ .pollEmpty w ∉ as := by
  have hrun : t.worker w = .running f := by
    have hhead := queued_of_polls h.unguarded hi (Nat.le_refl _)
    have hpolled : u'.worker w = .polled f := by
      cases hp with
      | poll hw hq =>
        rw [hq, Nat.sub_self] at hhead
        obtain rfl := Option.some.inj hhead
        simp
    have hv := polled_run hr.unguarded hpolled hb
    cases hd with
    | dispatch hw _ =>
      rw [hv] at hw
      obtain rfl := WorkerPc.polled.inj hw
      simp
  have hall : Run (Guarded OnTime Step) (initial capacity limit) _ t :=
    hs.append <| h.append <| .guard hp ⟨trivial, trivial⟩ <| hr.append <|
      .guard hd ⟨trivial, trivial⟩ .refl
  exact ⟨hrun, fun x => (run_queues_exclusive hall).polled f w x (by rw [hrun]; rfl),
    not_idle h.unguarded hi (Nat.le_refl _)⟩

/-- Two fibers in one queue: the first one yields, and the second one runs. -/
theorem runs_in_turn_second : ∃ t : State (Fin 2) Unit Unit Unit,
    t.worker () = .running 1 ∧ t.taskQueue () = [0] := by
  refine ⟨_, (runs_in_turn
    (.guard (s := initial (fun _ => 0) fun _ => 1) (.schedule (f := 0) (w := ()) rfl)
      ⟨trivial, trivial⟩ <|
    .guard (.schedule (f := 1) (w := ()) rfl) ⟨trivial, trivial⟩ .refl)
    (.guard (.poll (w := ()) rfl rfl) ⟨trivial, trivial⟩ <|
    .guard (.dispatch (w := ()) (f := 0) rfl rfl) ⟨trivial, trivial⟩ <|
    .guard (.yield (w := ()) (f := 0) ⟨rfl, rfl⟩ rfl) ⟨trivial, trivial⟩ <|
    .guard (.switchRunnable (w := ()) (f := 0) rfl rfl) ⟨trivial, trivial⟩ <|
    .guard (.requeue (w := ()) (f := 0) rfl) ⟨trivial, trivial⟩ .refl)
    (.poll (w := ()) rfl rfl) .refl List.not_mem_nil (.dispatch rfl rfl) rfl).1, rfl⟩

end CxxFiber.Scheduler
