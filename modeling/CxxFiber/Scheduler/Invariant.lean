import CxxFiber.Scheduler.Model

/-! Where each fiber is, and what its place says about its fields. -/
namespace CxxFiber.Scheduler

variable {F W B T : Type}

/-- The one place of a fiber. `off` is neither queued nor in anyone's hands: not yet scheduled,
parked or retired. -/
inductive Loc (F W B T : Type)
  | off
  | queued (w : W)
  | held (w : W) (p : WorkerPc F B)
  | resuming (a : Agent F W T) (x : Resume F)

/-- Let go by its worker, and not yet made runnable by the `swapIn` that may be under way. -/
def Loc.Parked : Loc F W B T → Prop
  | .off | .resuming _ (.tested _) => True
  | _ => False

/-- A `swapIn` has found it suspended. -/
def Loc.Tested : Loc F W B T → Prop
  | .resuming _ (.tested _) => True
  | _ => False

theorem Loc.Parked.off {l : Loc F W B T} (h : l.Parked) (ht : ¬ l.Tested) : l = .off := by
  unfold Loc.Parked Loc.Tested at *
  split at h <;> simp_all

@[simp] theorem Loc.not_tested_held {w : W} {p : WorkerPc F B} :
    ¬ (Loc.held w p : Loc F W B T).Tested := id

theorem Loc.Tested.parked {l : Loc F W B T} (h : l.Tested) : l.Parked := by
  unfold Loc.Parked Loc.Tested at *
  split at h <;> simp_all

/-- Inside the yield of a wait, a sleep or an io hook that nobody has granted. -/
def Suspending : FiberPc B → Prop
  | .parked _ _ | .sleeping | .polling _ => True
  | _ => False

/-- Inside the yield of a wait, or in a plain yield. -/
def InWait : FiberPc B → Prop
  | .parked _ _ | .user => True
  | _ => False

/-- The suspensions that may have armed a timer. -/
def Timed : FiberPc B → Prop
  | .parked _ k | .granted _ k => k = .tryWait true
  | .sleeping | .polling _ => True
  | _ => False

/-- What holds of a fiber's fields wherever it is. -/
structure RecordOk (r : EFiber B W) : Prop where
  unbound : r.state = .new → r.boundQueue = none
  timer : ∀ w, r.timer = some w → r.boundQueue = some w ∧ Timed r.pc
  events : ∀ w, r.events = some w → r.boundQueue = some w ∧ ∃ b, r.pc = .polling b
  resumed : Suspending r.pc → r.suspended = false → r.state = .runnable
  parked : ∀ b k, r.pc = .parked b k → r.suspended = true → r.blocker = some b

/-- On its way to user code: if the fiber was suspended, somebody has resumed it. -/
def Resumed (r : EFiber B W) : Prop :=
  r.state ≠ .new ∧ (Suspending r.pc → r.suspended = false)

/-- About to be parked on `b`, by a wait or by a plain yield in state BLOCKED. -/
def Parking (r : EFiber B W) (b : B) : Prop :=
  r.state = .blocked ∧ r.blocker = some b ∧ (r.pc = .user ∨ ∃ k, r.pc = .parked b k)

/-- What a fiber's place says about its fields. -/
def PlaceOk (r : EFiber B W) : Loc F W B T → Prop
  | .off => True
  | .queued w => Resumed r ∧ (r.boundQueue = some w ∨ r.boundQueue = none)
  | .resuming a (.tested _) => r.suspended = true ∧
      (r.events = none ∨ ∃ w, a = .worker w ∧ r.boundQueue = some w)
  | .resuming _ (.adding _) => Resumed r
  | .resuming _ (.owed _ _) => False
  | .held w (.polled _) => Resumed r ∧ (r.boundQueue = some w ∨ r.boundQueue = none)
  | .held w (.running _) | .held w (.requeue _) => Resumed r ∧ r.boundQueue = some w
  | .held w (.switching _) => r.state ≠ .new ∧ r.boundQueue = some w ∧
      (∀ b k, r.pc = .parked b k → r.state = .blocked) ∧
      (r.state = .blocked → ∀ b, r.blocker = some b → Parking r b)
  | .held w (.swapOut _ b) => r.boundQueue = some w ∧ Parking r b
  | .held _ _ => False

/-- What an entry in the wait queue of `b` says about its fiber: it is parked, or its timer has
expired. The last case is a plain yield of a fiber whose state was left BLOCKED. -/
def EntryOk (r : EFiber B W) (l : Loc F W B T) (b : B) : Prop :=
  (∃ k, r.pc = .parked b k ∧ (r.suspended = true ∧ l = .off ∨
    (r.suspended = false ∨ l.Tested) ∧ k = .tryWait true ∧ r.isIoWaitTimeout = true)) ∨
  (r.pc = .removing b ∧ r.suspended = false) ∨
  (r.pc = .user ∧ r.suspended = true ∧ r.blocker = some b ∧ l = .off)

/-- What an outstanding `swapIn` for the `n`-th suspension says about its fiber. -/
def OwedOk (r : EFiber B W) (l : Loc F W B T) (queued : Prop) (n : ℕ) : Prop :=
  n ≤ r.suspensions ∧
    (n = r.suspensions → r.suspended = true → l.Parked ∧ ¬ queued ∧ InWait r.pc)

structure Located (s : State F W B T) (loc : F → Loc F W B T) : Prop where
  nodup : ∀ w, (s.taskQueue w).Nodup
  queue : ∀ w f, f ∈ s.taskQueue w ↔ loc f = .queued w
  held : ∀ w f p, loc f = .held w p ↔ s.worker w = p ∧ p.fiber? = some f
  resuming : ∀ a f x, loc f = .resuming a x ↔ s.resume a = some x ∧ x.fiber? = some f

structure Facts (s : State F W B T) (loc : F → Loc F W B T) : Prop where
  record : ∀ f, RecordOk (s.fiber f)
  place : ∀ f, PlaceOk (s.fiber f) (loc f)
  entry : ∀ b f, f ∈ (s.blocker b).waitQueue → EntryOk (s.fiber f) (loc f) b
  nodup : ∀ b, (s.blocker b).waitQueue.Nodup
  owed : ∀ a g n, s.resume a = some (.owed g n) →
    OwedOk (s.fiber g) (loc g) (∃ b, g ∈ (s.blocker b).waitQueue) n

variable {s t : State F W B T} {loc : F → Loc F W B T} {f g : F} {w v : W} {b : B}
  {a : Agent F W T} {p p' : WorkerPc F B} {q : List F} {l : Loc F W B T} {n : ℕ} {x y : Resume F}

namespace Located

theorem take [DecidableEq F] [DecidableEq W]
    (h : Located s loc) (hw : s.worker w = .head) (hq : s.taskQueue w = f :: q) :
    Located ((s.setQueue w q).setWorker w (.polled f))
      (Function.update loc f (.held w (.polled f))) := by
  have hn := h.nodup w
  have hf := (h.queue w f).mp (by simp [hq])
  constructor
  · intro v
    have := h.nodup v
    simp only [State.setQueue, State.setWorker, Function.update_apply]
    grind
  · intro v g
    have := h.queue v g
    simp only [State.setQueue, State.setWorker, Function.update_apply]
    grind
  · intro v g p
    have := h.held v g p
    simp only [State.setQueue, State.setWorker, Function.update_apply]
    grind [WorkerPc.fiber?]
  · intro a g x
    have := h.resuming a g x
    simp only [State.setQueue, State.setWorker, Function.update_apply]
    grind

/-- A worker moves on with the fiber it has. -/
theorem stage [DecidableEq F] [DecidableEq W]
    (h : Located s loc) (hw : (s.worker w).fiber? = some f) (hp : p.fiber? = some f) :
    Located (s.setWorker w p) (Function.update loc f (.held w p)) := by
  have hf := (h.held w f _).mpr ⟨rfl, hw⟩
  constructor
  · exact h.nodup
  · intro v g
    have := h.queue v g
    simp only [State.setWorker, Function.update_apply]
    grind
  · intro v g p'
    have := h.held v g p'
    simp only [State.setWorker, Function.update_apply]
    grind
  · intro a g x
    have := h.resuming a g x
    simp only [State.setWorker, Function.update_apply]
    grind

/-- A worker lets go of its fiber. -/
theorem drop [DecidableEq F] [DecidableEq W]
    (h : Located s loc) (hw : (s.worker w).fiber? = some f) :
    Located (s.setWorker w .head) (Function.update loc f .off) := by
  have hf := (h.held w f _).mpr ⟨rfl, hw⟩
  constructor
  · exact h.nodup
  · intro v g
    have := h.queue v g
    simp only [State.setWorker, Function.update_apply]
    grind
  · intro v g p'
    have := h.held v g p'
    simp only [State.setWorker, Function.update_apply]
    grind [WorkerPc.fiber?]
  · intro a g x
    have := h.resuming a g x
    simp only [State.setWorker, Function.update_apply]
    grind

/-- A worker without a fiber moves between the loop head and the event loop. -/
theorem free [DecidableEq W]
    (h : Located s loc) (hw : (s.worker w).fiber? = none) (hp : p.fiber? = none) :
    Located (s.setWorker w p) loc := by
  constructor
  · exact h.nodup
  · exact h.queue
  · intro v g p'
    have := h.held v g p'
    simp only [State.setWorker, Function.update_apply]
    grind
  · exact h.resuming

theorem enqueue [DecidableEq F] [DecidableEq W] (h : Located s loc) (hf : loc f = .off) :
    Located (s.add w f) (Function.update loc f (.queued w)) := by
  have hq := h.queue w f
  constructor
  · intro v
    have := h.nodup v
    simp only [State.add, State.setQueue, Function.update_apply]
    grind
  · intro v g
    have := h.queue v g
    simp only [State.add, State.setQueue, Function.update_apply]
    grind
  · intro v g p
    have := h.held v g p
    simp only [State.add, State.setQueue, Function.update_apply]
    grind
  · intro a g x
    have := h.resuming a g x
    simp only [State.add, State.setQueue, Function.update_apply]
    grind

/-- `swapIn` has found a parked fiber suspended. -/
theorem resume [DecidableEq F] [DecidableEq W] [DecidableEq T]
    (h : Located s loc) (hf : loc f = .off)
    (ha : (s.resume a).bind Resume.fiber? = none) (hx : x.fiber? = some f) :
    Located (s.setResume a (some x)) (Function.update loc f (.resuming a x)) := by
  constructor
  · exact h.nodup
  · intro v g
    have := h.queue v g
    simp only [State.setResume, Function.update_apply]
    grind
  · intro v g p
    have := h.held v g p
    simp only [State.setResume, Function.update_apply]
    grind
  · intro a' g y
    have := h.resuming a' g y
    simp only [State.setResume, Function.update_apply]
    grind

/-- `swapIn` goes on with the fiber it has. -/
theorem proceed [DecidableEq F] [DecidableEq W] [DecidableEq T]
    (h : Located s loc) (ha : s.resume a = some x) (hx : x.fiber? = some f)
    (hy : y.fiber? = some f) :
    Located (s.setResume a (some y)) (Function.update loc f (.resuming a y)) := by
  have hf := (h.resuming a f x).mpr ⟨ha, hx⟩
  constructor
  · exact h.nodup
  · intro v g
    have := h.queue v g
    simp only [State.setResume, Function.update_apply]
    grind
  · intro v g p
    have := h.held v g p
    simp only [State.setResume, Function.update_apply]
    grind
  · intro a' g z
    have := h.resuming a' g z
    simp only [State.setResume, Function.update_apply]
    grind

/-- The outstanding `add` of `a` is done or dropped. -/
theorem settle [DecidableEq F] [DecidableEq W] [DecidableEq T]
    (h : Located s loc) (ha : s.resume a = some x) (hx : x.fiber? = some f) :
    Located (s.setResume a none) (Function.update loc f .off) := by
  have hf := (h.resuming a f x).mpr ⟨ha, hx⟩
  constructor
  · exact h.nodup
  · intro v g
    have := h.queue v g
    simp only [State.setResume, Function.update_apply]
    grind
  · intro v g p
    have := h.held v g p
    simp only [State.setResume, Function.update_apply]
    grind
  · intro a' g y
    have := h.resuming a' g y
    simp only [State.setResume, Function.update_apply]
    grind

/-- An agent that adds nothing before or after. -/
theorem quiet [DecidableEq F] [DecidableEq W] [DecidableEq T]
    (h : Located s loc) {r : Option (Resume F)}
    (ha : (s.resume a).bind Resume.fiber? = none) (hr : r.bind Resume.fiber? = none) :
    Located (s.setResume a r) loc := by
  constructor
  · exact h.nodup
  · exact h.queue
  · exact h.held
  · intro a' g y
    have := h.resuming a' g y
    simp only [State.setResume, Function.update_apply]
    grind

/-- The state determines the place of every fiber. -/
theorem unique {loc' : F → Loc F W B T} (h : Located s loc) (h' : Located s loc') :
    loc' = loc := by
  funext f
  cases hc : loc f with
  | queued w => exact (h'.queue w f).mp ((h.queue w f).mpr hc)
  | held w p => exact (h'.held w f p).mpr ((h.held w f p).mp hc)
  | resuming a x => exact (h'.resuming a f x).mpr ((h.resuming a f x).mp hc)
  | off =>
    cases hc' : loc' f with
    | queued w => exact absurd ((h.queue w f).mp ((h'.queue w f).mpr hc')) (by simp [hc])
    | held w p => exact absurd ((h.held w f p).mpr ((h'.held w f p).mp hc')) (by simp [hc])
    | resuming a x =>
      exact absurd ((h.resuming a f x).mpr ((h'.resuming a f x).mp hc')) (by simp [hc])
    | off => rfl

end Located

/-- Only the fields of the fibers, the blockers and the history change. -/
theorem Located.frame (h : Located s loc) (hq : t.taskQueue = s.taskQueue)
    (hw : t.worker = s.worker) (hr : t.resume = s.resume) : Located t loc := by
  constructor
  · simpa only [hq] using h.nodup
  · simpa only [hq] using h.queue
  · simpa only [hw] using h.held
  · simpa only [hr] using h.resuming

theorem EntryOk.away {r : EFiber B W} {l l' : Loc F W B T} (h : EntryOk r l b) (hl : ¬ l.Parked) :
    EntryOk r l' b := by
  rcases h with ⟨k, hp, ⟨_, rfl⟩ | ⟨hs | ht, hk⟩⟩ | hr | ⟨_, _, _, rfl⟩
  · exact (hl trivial).elim
  · exact Or.inl ⟨k, hp, Or.inr ⟨Or.inl hs, hk⟩⟩
  · exact (hl ht.parked).elim
  · exact Or.inr (Or.inl hr)
  · exact (hl trivial).elim

theorem OwedOk.away {r : EFiber B W} {l l' : Loc F W B T} {Q Q' : Prop} (h : OwedOk r l Q n)
    (hl : ¬ l.Parked) : OwedOk r l' Q' n :=
  ⟨h.1, fun hn hs => (hl (h.2 hn hs).1).elim⟩

/-- Only `f` changes its fields or its place, and no wait queue changes. -/
theorem Facts.move [DecidableEq F] (h : Facts s loc) (hg : ∀ g, g ≠ f → t.fiber g = s.fiber g)
    (hb : ∀ b, (t.blocker b).waitQueue = (s.blocker b).waitQueue)
    (ha : ∀ a g n, t.resume a = some (.owed g n) → s.resume a = some (.owed g n))
    (hr : RecordOk (t.fiber f)) (hl : PlaceOk (t.fiber f) l)
    (he : ∀ b, f ∈ (s.blocker b).waitQueue → EntryOk (s.fiber f) (loc f) b →
      EntryOk (t.fiber f) l b)
    (ho : ∀ Q n, OwedOk (s.fiber f) (loc f) Q n → OwedOk (t.fiber f) l Q n) :
    Facts t (Function.update loc f l) := by
  constructor
  · intro g
    by_cases hgf : g = f
    · subst g
      exact hr
    · simpa only [hg g hgf] using h.record g
  · intro g
    by_cases hgf : g = f
    · subst g
      simpa using hl
    · simpa [hgf, hg g hgf] using h.place g
  · intro b g hm
    rw [hb] at hm
    by_cases hgf : g = f
    · subst g
      simpa using he b hm (h.entry b f hm)
    · simpa [hgf, hg g hgf] using h.entry b g hm
  · intro b
    simpa only [hb] using h.nodup b
  · intro a g n ho'
    have := h.owed a g n (ha a g n ho')
    by_cases hgf : g = f
    · subst g
      simpa [hb] using ho _ n this
    · simpa [hgf, hg g hgf, hb] using this

/-- A fiber that is somewhere moves on with the same fields. -/
theorem Facts.carry [DecidableEq F] (h : Facts s loc) (hf : t.fiber = s.fiber)
    (hb : ∀ b, (t.blocker b).waitQueue = (s.blocker b).waitQueue)
    (ha : ∀ a g n, t.resume a = some (.owed g n) → s.resume a = some (.owed g n))
    (hne : ¬ (loc f).Parked) (hl : PlaceOk (s.fiber f) l) :
    Facts t (Function.update loc f l) :=
  h.move (fun _ _ => by rw [hf]) hb ha (hf ▸ h.record f) (hf ▸ hl)
    (fun _ _ he => hf ▸ he.away hne) (fun _ _ ho => hf ▸ ho.away hne)

theorem Facts.place_new (h : Facts s loc) (hn : (s.fiber f).state = .new) : loc f = .off := by
  have hp := h.place f
  cases hc : loc f with
  | off => rfl
  | held w p => cases p <;> simp_all [PlaceOk, Resumed, Parking]
  | queued w => simp_all [PlaceOk, Resumed]
  | resuming a x => cases x <;> simp_all [PlaceOk, Resumed, EFiber.suspended]

theorem Located.active (h : Located s loc) (ha : s.Active w f) :
    loc f = .held w (.running f) := (h.held w f _).mpr ⟨ha.1, rfl⟩

theorem Facts.active (h : Facts s loc) (hl : Located s loc) (ha : s.Active w f) :
    Resumed (s.fiber f) ∧ (s.fiber f).boundQueue = some w := by
  have hp := h.place f
  rw [hl.active ha] at hp
  exact hp

/-- While a worker is in its event loop, a suspended fiber bound to it is parked. -/
theorem Facts.parked (h : Facts s loc) (hl : Located s loc) (hw : s.InEvents w)
    (hb : (s.fiber f).boundQueue = some w) (hpc : Suspending (s.fiber f).pc)
    (hs : (s.fiber f).suspended = true) : (loc f).Parked := by
  have hp := h.place f
  have hheld : ∀ p, loc f = .held w p → p = .polled f := by
    intro p hc
    obtain ⟨hwp, hpf⟩ := (hl.held w f p).mp hc
    rcases hw.1 with hi | ⟨g, hg⟩
    · simp [← hwp, hi, WorkerPc.fiber?] at hpf
    · rw [hg] at hwp
      subst hwp
      simpa [WorkerPc.fiber?] using hpf
  cases hc : loc f with
  | off => trivial
  | queued v => simp_all [PlaceOk, Resumed]
  | resuming a x => cases x <;> simp_all [PlaceOk, Resumed, Loc.Parked]
  | held v p =>
    have hv : v = w ∨ ∃ g, p = .polled g := by
      cases p <;> simp_all [PlaceOk]
    rcases hv with rfl | ⟨g, rfl⟩
    · have := hheld p hc
      simp_all [PlaceOk, Resumed]
    · simp_all [PlaceOk, Resumed]

/-- Every fiber has one place, and its place agrees with its fields. -/
def Inv (s : State F W B T) : Prop := ∃ loc, Located s loc ∧ Facts s loc

theorem inv_initial (capacity limit : B → ℕ) :
    Inv (initial capacity limit : State F W B T) := by
  refine ⟨fun _ => .off, ?_, ?_⟩
  · constructor <;> simp [initial, WorkerPc.fiber?]
  · constructor <;> simp [initial, EFiber.create, PlaceOk]
    intro _
    constructor <;> simp [Suspending]

/-- Wait queues may shrink, permits and history may change. -/
theorem Inv.frame (hi : Inv s) (hf : t.fiber = s.fiber)
    (hb : ∀ b, (t.blocker b).waitQueue.Sublist (s.blocker b).waitQueue)
    (hq : t.taskQueue = s.taskQueue) (hw : t.worker = s.worker) (hr : t.resume = s.resume) :
    Inv t := by
  obtain ⟨loc, hl, h⟩ := hi
  refine ⟨loc, hl.frame hq hw hr, ?_⟩
  constructor
  · simpa only [hf] using h.record
  · simpa only [hf] using h.place
  · intro b f hm
    simpa only [hf] using h.entry b f ((hb b).subset hm)
  · intro b
    exact (h.nodup b).sublist (hb b)
  · intro a g n ho
    rw [hr] at ho
    have := h.owed a g n ho
    refine ⟨by simpa only [hf] using this.1, fun hn hs => ?_⟩
    rw [hf] at hn hs
    obtain ⟨hoff, hnot, hpc⟩ := this.2 hn hs
    exact ⟨hoff, fun ⟨b, hm⟩ => hnot ⟨b, (hb b).subset hm⟩, hf ▸ hpc⟩

variable [DecidableEq F]

/-- The steps of a running fiber that keep it running. -/
theorem Inv.local {u : EFiber B W → EFiber B W} (hi : Inv s) (ha : s.Active w f)
    (hr : RecordOk (s.fiber f) → RecordOk (u (s.fiber f)))
    (hp : Resumed (s.fiber f) → Resumed (u (s.fiber f)))
    (he : ∀ b, f ∈ (s.blocker b).waitQueue →
      EntryOk (s.fiber f) (.held w (.running f) : Loc F W B T) b →
      EntryOk (u (s.fiber f)) (.held w (.running f) : Loc F W B T) b)
    (hb : (u (s.fiber f)).boundQueue = (s.fiber f).boundQueue)
    (hs : (u (s.fiber f)).suspended = (s.fiber f).suspended)
    (hn : (u (s.fiber f)).suspensions = (s.fiber f).suspensions) : Inv (s.modFiber f u) := by
  obtain ⟨loc, hl, hf⟩ := hi
  obtain ⟨hres, hbound⟩ := hf.active hl ha
  have hloc := hl.active ha
  refine ⟨Function.update loc f (.held w (.running f)), ?_,
    hf.move (fun _ hg => by simp [hg]) (fun _ => rfl) (fun _ _ _ h => h) ?_ ?_ ?_ ?_⟩
  · rw [← hloc, Function.update_eq_self]
    exact hl.frame rfl rfl rfl
  · simpa using hr (hf.record f)
  · simpa [PlaceOk, hb, hbound] using hp hres
  · simpa [hloc] using he
  · intro Q n ho
    simp_all [OwedOk, Loc.Parked]

variable [DecidableEq W]

/-- The steps of a running fiber that give the context back to the worker. -/
theorem Inv.leave {u : EFiber B W → EFiber B W} (hi : Inv s) (ha : s.Active w f)
    (hpc : (s.fiber f).pc = .user ∨ ∃ b k, (s.fiber f).pc = .checked b k)
    (hr : RecordOk (s.fiber f) → (s.fiber f).state ≠ .new →
      (s.fiber f).boundQueue = some w → RecordOk (u (s.fiber f)))
    (hp : (s.fiber f).state ≠ .new → (s.fiber f).boundQueue = some w →
      PlaceOk (u (s.fiber f)) (.held w (.switching f) : Loc F W B T))
    (hn : (u (s.fiber f)).suspended = false ∧
        (s.fiber f).suspensions ≤ (u (s.fiber f)).suspensions ∨
      (s.fiber f).suspensions < (u (s.fiber f)).suspensions) :
    Inv ((s.modFiber f u).setWorker w (.switching f)) := by
  obtain ⟨loc, hl, hf⟩ := hi
  obtain ⟨hres, hbound⟩ := hf.active hl ha
  have hloc := hl.active ha
  refine ⟨_,
    (hl.frame (t := s.modFiber f u) rfl rfl rfl).stage (by simp [ha.1, WorkerPc.fiber?]) rfl,
    hf.move (fun _ hg => by simp [hg]) (fun _ => rfl) (fun _ _ _ h => h) ?_ ?_ ?_ ?_⟩
  · simpa using hr (hf.record f) hres.1 hbound
  · simpa using hp hres.1 hbound
  · rcases hpc with hpc | ⟨b, k, hpc⟩ <;> simp [EntryOk, hpc, hloc]
  · intro Q n ho
    have hle := ho.1
    rcases hn with ⟨hs, hle'⟩ | hlt
    · exact ⟨by simpa using Nat.le_trans hle hle', by simp [hs]⟩
    · exact ⟨by simpa using Nat.le_trans hle (Nat.le_of_lt hlt), fun h => by simp at h; omega⟩

/-- The fiber of `w` moves to another stage of the loop with the same fields. -/
theorem Inv.stage (hi : Inv s) (hw : (s.worker w).fiber? = some f) (hp : p.fiber? = some f)
    (hl : PlaceOk (s.fiber f) (.held w (s.worker w) : Loc F W B T) →
      PlaceOk (s.fiber f) (.held w p : Loc F W B T)) : Inv (s.setWorker w p) := by
  obtain ⟨loc, hl', hf⟩ := hi
  have hloc := (hl'.held w f _).mpr ⟨rfl, hw⟩
  have hpl := hf.place f
  rw [hloc] at hpl
  exact ⟨_, hl'.stage hw hp,
    hf.carry rfl (fun _ => rfl) (fun _ _ _ h => h) (by simp [hloc, Loc.Parked]) (hl hpl)⟩

variable [DecidableEq T]

/-- The test of `swapIn` for a fiber that is off if it is suspended, and whose entry in a wait
queue, if any, has timed out. -/
theorem Inv.swapIn (hi : Inv s) (ha : (s.resume a).bind Resume.fiber? = none)
    (hp : ∀ loc, Located s loc → Facts s loc → (s.fiber g).suspended = true → loc g = .off ∧
      ((s.fiber g).events = none ∨ ∃ w, a = .worker w ∧ (s.fiber g).boundQueue = some w) ∧
      ∀ b, g ∈ (s.blocker b).waitQueue →
        (s.fiber g).pc = .parked b (.tryWait true) ∧ (s.fiber g).isIoWaitTimeout = true) :
    Inv (s.swapIn a g) := by
  obtain ⟨loc, hl, hf⟩ := hi
  unfold State.swapIn
  split
  · next hs =>
    obtain ⟨ho, hwho, hq⟩ := hp loc hl hf hs
    refine ⟨_, hl.resume ho ha rfl, hf.move (fun _ _ => rfl) (fun _ => rfl) (fun a' g' n => ?_)
      (hf.record g) ⟨hs, hwho⟩ (fun b hm _ => ?_) fun Q n hn => ?_⟩
    · by_cases h : a' = a <;> simp [h]
    · obtain ⟨hpc, hflag⟩ := hq b hm
      exact Or.inl ⟨_, hpc, Or.inr ⟨Or.inr trivial, rfl, hflag⟩⟩
    · exact ⟨hn.1, fun h hs => ⟨trivial, (hn.2 h hs).2⟩⟩
  · refine ⟨loc, hl.quiet ha rfl, ⟨hf.record, hf.place, hf.entry, hf.nodup, ?_⟩⟩
    intro a' g' n h
    by_cases hh : a' = a
    · simp [hh] at h
    · exact hf.owed a' g' n (by simpa [hh] using h)

/-- The writes of `swapIn`. -/
theorem Inv.write (hi : Inv s) (ha : s.resume a = some (.tested g)) :
    Inv ((s.modFiber g EFiber.swapIn).setResume a (some (.adding g))) := by
  obtain ⟨loc, hl, hf⟩ := hi
  have hloc := (hl.resuming a g _).mpr ⟨ha, rfl⟩
  have hs : (s.fiber g).suspended = true := by
    have hp := hf.place g
    rw [hloc] at hp
    exact hp.1
  have hr := hf.record g
  refine ⟨_, (hl.frame (t := s.modFiber g _) rfl rfl rfl).proceed ha rfl rfl,
    hf.move (fun _ hg => by simp [hg]) (fun _ => rfl) ?_ ?_ ?_ ?_ ?_⟩
  · intro a' g' n
    by_cases h : a' = a <;> simp [h]
  · have := hr.timer
    have := hr.events
    constructor <;> simp_all [EFiber.swapIn, EFiber.suspended]
  · simp [PlaceOk, Resumed, EFiber.swapIn, EFiber.suspended]
  · intro b _ he
    rw [hloc] at he
    rcases he with ⟨k, hp, ⟨_, ho⟩ | ⟨_, hk⟩⟩ | ⟨_, hn⟩ | ⟨_, _, _, ho⟩
    · cases ho
    · exact Or.inl ⟨k, by simpa [EFiber.swapIn] using hp,
        Or.inr (by simpa [EFiber.swapIn, EFiber.suspended] using hk)⟩
    · simp [hs] at hn
    · cases ho
  · intro Q n hn
    simpa [OwedOk, EFiber.swapIn, EFiber.suspended] using hn.1

end CxxFiber.Scheduler
