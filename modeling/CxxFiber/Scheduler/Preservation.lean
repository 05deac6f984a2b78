import CxxFiber.Scheduler.Invariant

/-! The steps of the scheduler keep every fiber in one place, as long as no resume comes late. -/
namespace CxxFiber.Scheduler

variable {F W B T : Type}
  {s t : State F W B T} {loc : F → Loc F W B T} {f g : F} {w v : W} {b : B}
  {a : Agent F W T} {q : List F} {n : ℕ} {k : WaitKind} {c : EFiberBlocker F}
  {timer reads : Bool} {act : Act F W B T}

/-- Nobody is between the test and the writes of a `swapIn` of `f`. -/
def Untested (s : State F W B T) (f : F) : Prop := ∀ a, s.resume a ≠ some (.tested f)

/-- Neither way of resuming a fiber comes late: a timer does not expire for a fiber that was already
re-queued because its `swapOut` found a permit, and the `swapIn` that follows a `wakeUp` does not
reach a fiber suspended anew since it was dequeued. -/
def InTime (s : State F W B T) : Act F W B T → Prop
  | .timer _ f => ∀ b k, (s.fiber f).pc ≠ .granted b k
  | .swapIn a => ∀ g n, s.resume a = some (.owed g n) → (s.fiber g).suspended = true →
      n = (s.fiber g).suspensions
  | _ => True

/-- And neither tests a suspended fiber while the other is between its test and its writes. -/
def Alone (s : State F W B T) : Act F W B T → Prop
  | .timer _ f => Untested s f
  | .swapIn a => ∀ g n, s.resume a = some (.owed g n) → (s.fiber g).suspended = true → Untested s g
  | _ => True

def OnTime (s : State F W B T) (act : Act F W B T) : Prop := InTime s act ∧ Alone s act

/-- Nobody else is about to resume a fiber. -/
theorem untested_of_owed [DecidableEq F] [DecidableEq W] [DecidableEq T]
    {r : Agent F W T → Option (Resume F)}
    (h : s.resume = Function.update r a (some (.owed g n))) (hr : ∀ x, r x = none) :
    Untested s f := by
  intro x hx
  rw [h] at hx
  by_cases hxa : x = a
  · subst x
    simp at hx
  · simp [hxa, hr] at hx

theorem Located.not_tested (h : Located s loc) (hu : Untested s f) : ¬ (loc f).Tested := by
  intro ht
  cases hc : loc f with
  | resuming a x =>
    obtain ⟨ha, hx⟩ := (h.resuming a f x).mp hc
    rw [hc] at ht
    cases x with
    | tested g =>
      obtain rfl : g = f := Option.some.inj hx
      exact hu a ha
    | owed | adding => exact ht
  | _ =>
    rw [hc] at ht
    exact ht

theorem tryWait_waitQueue {r : Bool} (h : (s.blocker b).tryWait = (c, r)) :
    c.waitQueue = (s.blocker b).waitQueue := by
  cases r with
  | true => rw [(EFiberBlocker.tryWait_true.mp h).2]
  | false => rw [(EFiberBlocker.tryWait_false.mp h).2]

/-- A blocker whose wait queue only loses entries. -/
theorem inv_setBlocker [DecidableEq B]
    (hi : Inv s) (hc : c.waitQueue.Sublist (s.blocker b).waitQueue) :
    Inv (s.setBlocker b c) := by
  refine hi.frame rfl (fun b' => ?_) rfl rfl rfl
  by_cases h : b' = b
  · subst h
    simpa using hc
  · simp [h]

theorem inv_setHeld [DecidableEq F] [DecidableEq B]
    (hi : Inv s) {h : Bool} : Inv (s.setHeld f b h) :=
  hi.frame rfl (fun _ => .refl _) rfl rfl rfl

theorem inv_release [DecidableEq F] [DecidableEq B] (hi : Inv s) : Inv (s.release b a) := by
  cases a with
  | fiber f => exact inv_setHeld hi
  | worker w | thread t => exact hi

theorem inv_schedule [DecidableEq F] [DecidableEq W] (hi : Inv s) (hn : (s.fiber f).state = .new) :
    Inv ((s.modFiber f .schedule).add w f) := by
  obtain ⟨loc, hl, hf⟩ := hi
  have hr := hf.record f
  have hb := hr.unbound hn
  refine ⟨_, (hl.frame (t := s.modFiber f _) rfl rfl rfl).enqueue (hf.place_new hn),
    hf.move (fun _ hg => by simp [hg]) (fun _ => rfl) (fun _ _ _ h => h) ?_ ?_ ?_ ?_⟩
  · have := hr.timer
    have := hr.events
    constructor <;> simp_all [EFiber.schedule, EFiber.suspended]
  · simp_all [PlaceOk, Resumed, EFiber.schedule, EFiber.suspended]
  · simp_all [EntryOk, EFiber.schedule, EFiber.suspended]
  · simp_all [OwedOk, EFiber.schedule, EFiber.suspended]

theorem inv_poll [DecidableEq F] [DecidableEq W]
    (hi : Inv s) (hw : s.worker w = .head) (hq : s.taskQueue w = f :: q) :
    Inv ((s.setQueue w q).setWorker w (.polled f)) := by
  obtain ⟨loc, hl, hf⟩ := hi
  have hloc : loc f = .queued w := (hl.queue w f).mp (by simp [hq])
  have hp := hf.place f
  rw [hloc] at hp
  exact ⟨_, hl.take hw hq,
    hf.carry rfl (fun _ => rfl) (fun _ _ _ h => h) (by simp [hloc, Loc.Parked]) hp⟩

theorem inv_free [DecidableEq W] {p : WorkerPc F B} (hi : Inv s) (hw : (s.worker w).fiber? = none)
    (hp : p.fiber? = none) : Inv (s.setWorker w p) := by
  obtain ⟨loc, hl, hf⟩ := hi
  exact ⟨loc, hl.free hw hp, ⟨hf.record, hf.place, hf.entry, hf.nodup, hf.owed⟩⟩

theorem inv_dispatch [DecidableEq F] [DecidableEq W] (hi : Inv s) (hw : s.worker w = .polled f) :
    Inv ((s.modFiber f (.bind w)).setWorker w (.running f)) := by
  obtain ⟨loc, hl, hf⟩ := hi
  have hloc := (hl.held w f _).mpr ⟨hw, rfl⟩
  have hp := hf.place f
  rw [hloc] at hp
  have hr := hf.record f
  have hbind : ((s.fiber f).bind w).boundQueue = some w := by
    rcases hp.2 with h | h <;> simp [EFiber.bind, h]
  refine ⟨_, (hl.frame (t := s.modFiber f _) rfl rfl rfl).stage
    (by simp [hw, WorkerPc.fiber?]) rfl,
    hf.move (fun _ hg => by simp [hg]) (fun _ => rfl) (fun _ _ _ h => h) ?_ ?_ ?_ ?_⟩
  · simp only [State.modFiber, State.setWorker, Function.update_self]
    refine ⟨fun hn => (hp.1.1 hn).elim, ?_, ?_, hr.resumed, hr.parked⟩
    · intro v hv
      obtain ⟨hb, ht⟩ := hr.timer v hv
      exact ⟨by simp [EFiber.bind, hb], ht⟩
    · intro v hv
      obtain ⟨hb, hpc⟩ := hr.events v hv
      exact ⟨by simp [EFiber.bind, hb], hpc⟩
  · simp only [State.modFiber, State.setWorker, Function.update_self]
    exact ⟨hp.1, hbind⟩
  · intro b _ he
    simp only [State.modFiber, State.setWorker, Function.update_self]
    exact he.away (by simp [hloc, Loc.Parked])
  · intro Q n ho
    simp only [State.modFiber, State.setWorker, Function.update_self]
    exact ho.away (by simp [hloc, Loc.Parked])

theorem inv_yield [DecidableEq F] [DecidableEq W]
    (hi : Inv s) (ha : s.Active w f) (hp : (s.fiber f).pc = .user) :
    Inv (s.setWorker w (.switching f)) := by
  refine hi.stage (by rw [ha.1]; rfl) rfl fun hpl => ?_
  rw [ha.1] at hpl
  simp_all [PlaceOk, Resumed, Parking]

theorem inv_finish [DecidableEq F] [DecidableEq W]
    (hi : Inv s) (ha : s.Active w f) (hp : (s.fiber f).pc = .user) :
    Inv ((s.modFiber f .terminate).setWorker w (.switching f)) := by
  refine hi.leave ha (Or.inl hp) (fun hr hs hb => ?_) (fun hs hb => ?_) (Or.inl ?_)
  · have := hr.timer
    have := hr.events
    constructor <;> simp_all [EFiber.terminate, Suspending, Timed]
  · simpa [PlaceOk, EFiber.terminate] using hb
  · simp [EFiber.terminate, EFiber.suspended]

theorem inv_block [DecidableEq F] [DecidableEq W]
    (hi : Inv s) (ha : s.Active w f) (hp : (s.fiber f).pc = .checked b k) :
    Inv ((s.modFiber f (.block w b k)).setWorker w (.switching f)) := by
  refine hi.leave ha (Or.inr ⟨b, k, hp⟩) (fun hr hs hb => ?_) (fun hs hb => ?_) (Or.inr ?_)
  · have := hr.timer
    have := hr.events
    by_cases hk : k = .tryWait true <;> constructor <;>
      simp_all [EFiber.block, EFiber.setupTimer, EFiber.suspended, Timed]
  · by_cases hk : k = .tryWait true <;>
      simp_all [PlaceOk, Parking, EFiber.block, EFiber.setupTimer]
  · simp [EFiber.block]
    split <;> simp [EFiber.setupTimer]

theorem inv_sleep [DecidableEq F] [DecidableEq W]
    (hi : Inv s) (ha : s.Active w f) (hp : (s.fiber f).pc = .user) :
    Inv ((s.modFiber f (.sleep w)).setWorker w (.switching f)) := by
  refine hi.leave ha (Or.inl hp) (fun hr hs hb => ?_) (fun hs hb => ?_) (Or.inr ?_)
  · have := hr.events
    constructor <;> simp_all [EFiber.sleep, EFiber.setupTimer, EFiber.suspended, Timed]
  · simp_all [PlaceOk, EFiber.sleep, EFiber.setupTimer]
  · simp [EFiber.sleep, EFiber.setupTimer]

theorem inv_pollEvents [DecidableEq F] [DecidableEq W]
    (hi : Inv s) (ha : s.Active w f) (hp : (s.fiber f).pc = .user) :
    Inv ((s.modFiber f (.pollEvents w timer reads)).setWorker w (.switching f)) := by
  refine hi.leave ha (Or.inl hp) (fun hr hs hb => ?_) (fun hs hb => ?_) (Or.inr ?_)
  · have := hr.timer
    cases timer <;> constructor <;>
      simp_all [EFiber.pollEvents, EFiber.setupTimer, EFiber.suspended, Timed]
  · cases timer <;> simp_all [PlaceOk, EFiber.pollEvents, EFiber.setupTimer]
  · cases timer <;> simp [EFiber.pollEvents, EFiber.setupTimer]

/-- The fields of a fiber back in its own code. -/
theorem RecordOk.back {r r' : EFiber B W} (h : RecordOk r) (hs : r'.state = r.state)
    (hb : r'.boundQueue = r.boundQueue) (ht : r'.timer = none) (he : r'.events = none)
    (hp : ¬ Suspending r'.pc) (hk : ∀ b k, r'.pc ≠ .parked b k) : RecordOk r' := by
  have := h.unbound
  constructor <;> simp_all

theorem RecordOk.timer_none {r : EFiber B W} (h : RecordOk r) (hp : ¬ Timed r.pc) :
    r.timer = none := by
  cases ht : r.timer with
  | none => rfl
  | some w => exact (hp (h.timer w ht).2).elim

theorem RecordOk.events_none {r : EFiber B W} (h : RecordOk r) (hp : ∀ b, r.pc ≠ .polling b) :
    r.events = none := by
  cases he : r.events with
  | none => rfl
  | some w =>
    obtain ⟨b, hb⟩ := (h.events w he).2
    exact (hp b hb).elim

theorem inv_check [DecidableEq F] (hi : Inv s) (ha : s.Active w f) (hp : (s.fiber f).pc = .user) :
    Inv (s.modFiber f (.setPc (.checked b k))) := by
  refine hi.local ha (fun hr => ?_) (fun hs => ?_) (fun b' _ he => ?_) rfl rfl rfl
  · exact hr.back rfl rfl (hr.timer_none (by simp [hp, Timed])) (hr.events_none (by simp [hp]))
      (by simp [EFiber.setPc, Suspending]) (by simp [EFiber.setPc])
  · exact ⟨hs.1, by simp [EFiber.setPc, Suspending]⟩
  · simp [EntryOk, hp] at he

/-- A wait that returns leaves no entry behind unless it has timed out. -/
theorem inv_waitReturn [DecidableEq F]
    {u : EFiber B W → EFiber B W} (hi : Inv s) (ha : s.Active w f)
    (hp : (s.fiber f).pc = .parked b k ∨ (s.fiber f).pc = .granted b k)
    (hk : k = .wait ∨ (s.fiber f).isIoWaitTimeout = false)
    (hu : u (s.fiber f) = { s.fiber f with
      timer := none, isIoWaitTimeout := (u (s.fiber f)).isIoWaitTimeout, pc := .user }) :
    Inv (s.modFiber f u) := by
  refine hi.local ha (fun hr => ?_) (fun hs => ?_) (fun b' _ he => ?_) (by rw [hu]) ?_ (by rw [hu])
  · refine hr.back (by rw [hu]) (by rw [hu]) (by rw [hu]) ?_ (by rw [hu]; simp [Suspending])
      (by rw [hu]; simp)
    rw [hu]
    rcases hp with hp | hp <;> exact hr.events_none (by simp [hp])
  · rw [hu]
    exact ⟨hs.1, by simp [Suspending]⟩
  · rcases hp with hp | hp <;> rcases hk with hk | hk <;> simp_all [EntryOk]
  · rw [hu]
    rfl

theorem inv_timedOut [DecidableEq F] (hi : Inv s) (ha : s.Active w f)
    (hp : (s.fiber f).pc = .parked b k ∨ (s.fiber f).pc = .granted b k) :
    Inv (s.modFiber f fun r => (r.cancelTimer.isWaitTimeout).setPc (.removing b)) := by
  refine hi.local ha (fun hr => ?_) (fun hs => ?_) (fun b' _ he => ?_) rfl rfl rfl
  · refine hr.back rfl rfl rfl ?_ (by simp [EFiber.setPc, Suspending]) (by simp [EFiber.setPc])
    rcases hp with hp | hp <;> exact hr.events_none (by simp [hp])
  · exact ⟨hs.1, by simp [EFiber.setPc, Suspending]⟩
  · rcases hp with hp | hp
    · obtain ⟨k', hk, ⟨_, ho⟩ | ⟨ht, _⟩⟩ | hr | ⟨hu, _⟩ := he
      · simp at ho
      · have hbb : b = b' := by simp_all
        exact Or.inr (Or.inl ⟨by simp [EFiber.setPc, hbb], ht.resolve_right id⟩)
      · simp [hp] at hr
      · simp [hp] at hu
    · simp [EntryOk, hp] at he

theorem inv_remove [DecidableEq F] [DecidableEq B]
    {r : Bool} (hi : Inv s) (ha : s.Active w f) (hp : (s.fiber f).pc = .removing b)
    (hc : (s.blocker b).remove f = (c, r)) :
    Inv ((s.setBlocker b c).modFiber f (.setPc .user)) := by
  have hce : c = { s.blocker b with waitQueue := (s.blocker b).waitQueue.erase f } := by
    simpa [EFiberBlocker.remove] using (congrArg Prod.fst hc).symm
  have hn : (s.blocker b).waitQueue.Nodup := by
    obtain ⟨_, _, hf⟩ := hi
    exact hf.nodup b
  have hi' : Inv (s.setBlocker b c) := inv_setBlocker hi (by simp [hce, List.erase_sublist])
  refine hi'.local (w := w) ha (fun hr => ?_) (fun hs => ?_) (fun b' hm he => ?_) rfl rfl rfl
  · exact hr.back rfl rfl (hr.timer_none (by simp [hp, Timed])) (hr.events_none (by simp [hp]))
      (by simp [EFiber.setPc, Suspending]) (by simp [EFiber.setPc])
  · exact ⟨hs.1, by simp [EFiber.setPc, Suspending]⟩
  · have hbb : b' = b := by simp_all [EntryOk]
    subst b'
    simp only [State.setBlocker, Function.update_self, hce] at hm
    exact (hn.not_mem_erase hm).elim

theorem inv_sleepReturn [DecidableEq F]
    (hi : Inv s) (ha : s.Active w f) (hp : (s.fiber f).pc = .sleeping) :
    Inv (s.modFiber f fun r => r.cancelTimer.setPc .user) := by
  refine hi.local ha (fun hr => ?_) (fun hs => ?_) (fun b' _ he => ?_) rfl rfl rfl
  · exact hr.back rfl rfl rfl (hr.events_none (by simp [hp]))
      (by simp [EFiber.setPc, Suspending]) (by simp [EFiber.setPc])
  · exact ⟨hs.1, by simp [EFiber.setPc, Suspending]⟩
  · simp [EntryOk, hp] at he

theorem inv_pollReturn [DecidableEq F]
    (hi : Inv s) (ha : s.Active w f) (hp : (s.fiber f).pc = .polling reads) :
    Inv (s.modFiber f (.pollDone reads)) := by
  refine hi.local ha (fun hr => ?_) (fun hs => ?_) (fun b' _ he => ?_) ?_ ?_ ?_
  · cases reads <;> exact hr.back rfl rfl rfl rfl (by simp [EFiber.pollDone, Suspending])
      (by simp [EFiber.pollDone])
  · cases reads <;> exact ⟨hs.1, by simp [EFiber.pollDone, Suspending]⟩
  · simp [EntryOk, hp] at he
  · cases reads <;> rfl
  · cases reads <;> rfl
  · cases reads <;> rfl

theorem inv_switchRunnable [DecidableEq F] [DecidableEq W]
    (hi : Inv s) (hw : s.worker w = .switching f)
    (hs : (s.fiber f).state = .runnable) : Inv (s.setWorker w (.requeue f)) := by
  refine hi.stage (by rw [hw]; rfl) rfl fun hpl => ?_
  rw [hw] at hpl
  exact ⟨⟨hpl.1, by simp [EFiber.suspended, hs]⟩, hpl.2.1⟩

theorem inv_switchBlocked [DecidableEq F] [DecidableEq W]
    (hi : Inv s) (hw : s.worker w = .switching f)
    (hs : (s.fiber f).state = .blocked) (hb : (s.fiber f).blocker = some b) :
    Inv (s.setWorker w (.swapOut f b)) := by
  refine hi.stage (by rw [hw]; rfl) rfl fun hpl => ?_
  rw [hw] at hpl
  exact ⟨hpl.2.1, hpl.2.2.2 hs b hb⟩

theorem inv_switchOther [DecidableEq F] [DecidableEq W]
    (hi : Inv s) (hw : s.worker w = .switching f) :
    Inv (s.setWorker w .head) := by
  obtain ⟨loc, hl, hf⟩ := hi
  have hloc := (hl.held w f _).mpr ⟨hw, rfl⟩
  exact ⟨_, hl.drop (by rw [hw]; rfl),
    hf.carry rfl (fun _ => rfl) (fun _ _ _ h => h) (by simp [hloc, Loc.Parked]) trivial⟩

theorem inv_requeue [DecidableEq F] [DecidableEq W] (hi : Inv s) (hw : s.worker w = .requeue f) :
    Inv ((s.add w f).setWorker w .head) := by
  obtain ⟨loc, hl, hf⟩ := hi
  have hloc := (hl.held w f _).mpr ⟨hw, rfl⟩
  have hp := hf.place f
  rw [hloc] at hp
  have hl' := (hl.drop (f := f) (by rw [hw]; rfl)).enqueue (w := w) (f := f) (by simp)
  rw [Function.update_idem] at hl'
  exact ⟨_, hl', hf.carry rfl (fun _ => rfl) (fun _ _ _ h => h) (by simp [hloc, Loc.Parked])
    ⟨hp.1, Or.inl hp.2⟩⟩

theorem inv_swapOutPermit [DecidableEq F] [DecidableEq W] [DecidableEq B]
    (hi : Inv s) (hw : s.worker w = .swapOut f b)
    (hc : (s.blocker b).swapOut f = (c, false)) :
    Inv (((s.setBlocker b c).modFiber f .grant).setWorker w (.requeue f)) := by
  obtain ⟨-, rfl⟩ := EFiberBlocker.swapOut_permit.mp hc
  obtain ⟨loc, hl, hf⟩ := inv_setBlocker (b := b) (c := { s.blocker b with
    wakeup := (s.blocker b).wakeup - 1 }) hi (.refl _)
  have hloc := (hl.held w f _).mpr ⟨hw, rfl⟩
  have hp := hf.place f
  rw [hloc] at hp
  obtain ⟨hb, hs, hbl, hpc⟩ := hp
  have hr := hf.record f
  refine ⟨_, (hl.frame (t := (s.setBlocker b _).modFiber f _) rfl rfl rfl).stage
    (by simp [hw, WorkerPc.fiber?]) rfl,
    hf.move (fun _ hg => by simp [hg]) (fun _ => rfl) (fun _ _ _ h => h) ?_ ?_ ?_ ?_⟩
  · have := hr.timer
    have := hr.events
    rcases hpc with hpc | ⟨k, hpc⟩ <;> constructor <;>
      simp_all [EFiber.grant, EFiber.suspended, EFiber.setPc, Suspending, Timed]
  · rcases hpc with hpc | ⟨k, hpc⟩ <;>
      simp_all [PlaceOk, Resumed, EFiber.grant, EFiber.setPc, Suspending]
  · rcases hpc with hpc | ⟨k, hpc⟩ <;> simp_all [EntryOk, EFiber.suspended]
  · intro Q n ho
    have : OwedOk (s.fiber f) (.held w (.requeue f) : Loc F W B T) Q n :=
      ho.away (by simp [hloc, Loc.Parked])
    rcases hpc with hpc | ⟨k, hpc⟩ <;>
      simp_all [OwedOk, EFiber.grant, EFiber.suspended, EFiber.setPc, Loc.Parked]

/-- A fiber that is still in its worker's hands has no entry in any queue. -/
theorem Facts.unlinked (h : Facts s loc) (hl : Located s loc) (hw : s.worker w = .swapOut f b)
    (b' : B) : f ∉ (s.blocker b').waitQueue := by
  intro hm
  have hp := h.place f
  have hloc := (hl.held w f _).mpr ⟨hw, rfl⟩
  rw [hloc] at hp
  obtain ⟨-, hs, -, hpc⟩ := hp
  have hsus : (s.fiber f).suspended = true := by simp [EFiber.suspended, hs]
  have he := h.entry b' f hm
  rcases hpc with hpc | ⟨k, hpc⟩ <;> simp_all [EntryOk]

theorem inv_swapOutHung [DecidableEq F] [DecidableEq W] [DecidableEq B]
    (hi : Inv s) (hw : s.worker w = .swapOut f b)
    (hc : (s.blocker b).swapOut f = (c, true)) :
    Inv ((s.setBlocker b c).setWorker w .head) := by
  obtain ⟨loc, hl, hf⟩ := hi
  obtain ⟨-, rfl⟩ := EFiberBlocker.swapOut_hung.mp hc
  have hloc := (hl.held w f _).mpr ⟨hw, rfl⟩
  have hp := hf.place f
  rw [hloc] at hp
  obtain ⟨hb, hs, hbl, hpc⟩ := hp
  have hsus : (s.fiber f).suspended = true := by simp [EFiber.suspended, hs]
  have hnot := hf.unlinked hl hw
  refine ⟨_, (hl.frame (t := s.setBlocker b _) rfl rfl rfl).drop (f := f)
    (by simp [hw, WorkerPc.fiber?]), hf.record, ?_, ?_, ?_, ?_⟩
  · intro g
    by_cases hgf : g = f
    · simp [hgf, PlaceOk]
    · simpa [hgf] using hf.place g
  · intro b' g hm
    by_cases hgf : g = f
    · subst g
      have hbb : b' = b := by
        by_contra hne
        exact hnot b' (by simpa [hne] using hm)
      subst b'
      rcases hpc with hpc | ⟨k, hpc⟩ <;> simp_all [EntryOk]
    · have hm' : g ∈ (s.blocker b').waitQueue := by
        by_cases hbb : b' = b <;> simp_all
      simpa [hgf] using hf.entry b' g hm'
  · intro b'
    by_cases hbb : b' = b
    · subst b'
      simpa [List.nodup_append] using ⟨hf.nodup b, fun g hg hgf => hnot b (hgf ▸ hg)⟩
    · simpa [hbb] using hf.nodup b'
  · intro a g n ha
    have ho := hf.owed a g n ha
    by_cases hgf : g = f
    · subst g
      simpa using ho.away (by simp [hloc, Loc.Parked])
    · refine ⟨ho.1, fun hn hs => ?_⟩
      obtain ⟨hpark, hno, hpc⟩ := ho.2 hn hs
      refine ⟨by simpa [hgf] using hpark, ?_, hpc⟩
      rintro ⟨b', hm⟩
      refine hno ⟨b', ?_⟩
      by_cases hbb : b' = b <;> simp_all

/-- The flag a timer sets marks an entry as timed out. -/
theorem inv_timeEvent [DecidableEq F] (hi : Inv s) : Inv (s.modFiber f .timeEvent) := by
  obtain ⟨loc, hl, hf⟩ := hi
  have hr := hf.record f
  have hp := hf.place f
  refine ⟨Function.update loc f (loc f), ?_, hf.move (fun _ hg => by simp [hg]) (fun _ => rfl)
    (fun _ _ _ h => h) ?_ ?_ ?_ ?_⟩
  · rw [Function.update_eq_self]
    exact hl.frame rfl rfl rfl
  · simp only [State.modFiber, Function.update_self]
    exact ⟨hr.unbound, by simp [EFiber.timeEvent], hr.events, hr.resumed, hr.parked⟩
  · simp only [State.modFiber, Function.update_self]
    cases hc : loc f with
    | held v p => cases p <;> exact hc ▸ hp
    | resuming a x => cases x <;> exact hc ▸ hp
    | off | queued v => exact hc ▸ hp
  · intro b _ he
    simp only [State.modFiber, Function.update_self]
    rcases he with ⟨k, hk, ho | ht⟩ | hr | ho
    · exact Or.inl ⟨k, hk, Or.inl ho⟩
    · exact Or.inl ⟨k, hk, Or.inr ⟨ht.1, ht.2.1, rfl⟩⟩
    · exact Or.inr (Or.inl hr)
    · exact Or.inr (Or.inr ho)
  · intro Q n ho
    simp only [State.modFiber, Function.update_self]
    exact ho

theorem inv_timer [DecidableEq F] [DecidableEq W] [DecidableEq T]
    (hi : Inv s) (hw : s.InEvents w) (ht : (s.fiber f).timer = some w)
    (hg : (∀ b k, (s.fiber f).pc ≠ .granted b k) ∧ Untested s f) :
    Inv ((s.modFiber f .timeEvent).swapIn (.worker w) f) := by
  obtain ⟨hb, hpc⟩ : (s.fiber f).boundQueue = some w ∧ Timed (s.fiber f).pc := by
    obtain ⟨_, _, hf⟩ := hi
    exact (hf.record f).timer w ht
  have hsus : Suspending (s.fiber f).pc := by
    cases hc : (s.fiber f).pc <;> simp_all [Timed, Suspending]
  refine (inv_timeEvent hi).swapIn (by simp [hw.2]) fun loc hl hf hs => ?_
  have hoff : loc f = .off := by
    refine (hf.parked (w := w) hl hw ?_ ?_ hs).off (hl.not_tested hg.2)
    · simp only [State.modFiber, Function.update_self]
      exact hb
    · simp only [State.modFiber, Function.update_self]
      exact hsus
  refine ⟨hoff, Or.inr ⟨w, rfl, by simpa [EFiber.timeEvent] using hb⟩, fun b hm => ?_⟩
  have he := hf.entry b f hm
  simp only [State.modFiber, Function.update_self] at he ⊢
  rcases he with ⟨k, hk, _⟩ | ⟨hk, _⟩ | ⟨hk, _⟩ <;>
    simp_all [EFiber.timeEvent, Timed, Suspending]

/-- A fiber that waits for events is resumed by its own worker only, in one callback at a time. -/
theorem Facts.untested (h : Facts s loc) (hl : Located s loc) (hw : s.InEvents w)
    (he : (s.fiber f).events = some w) : Untested s f := by
  intro a ha
  have hpl := h.place f
  rw [(hl.resuming a f _).mpr ⟨ha, rfl⟩] at hpl
  obtain ⟨v, rfl, hv⟩ := hpl.2.resolve_left (by simp [he])
  obtain rfl := Option.some.inj (((h.record f).events w he).1.symm.trans hv)
  exact nomatch hw.2.symm.trans ha

theorem inv_fileEvent [DecidableEq F] [DecidableEq W] [DecidableEq T]
    (hi : Inv s) (hw : s.InEvents w) (he : (s.fiber f).events = some w) :
    Inv (s.swapIn (.worker w) f) := by
  obtain ⟨hb, r, hpc⟩ : (s.fiber f).boundQueue = some w ∧ ∃ r, (s.fiber f).pc = .polling r := by
    obtain ⟨_, _, hf⟩ := hi
    exact (hf.record f).events w he
  refine hi.swapIn (by simp [hw.2]) fun loc hl hf hs => ?_
  refine ⟨(hf.parked hl hw hb (by simp [hpc, Suspending]) hs).off ?_, Or.inr ⟨w, rfl, hb⟩,
    fun b hm => ?_⟩
  · exact hl.not_tested (hf.untested hl hw he)
  · simpa [EntryOk, hpc] using hf.entry b f hm

theorem inv_swapIn [DecidableEq F] [DecidableEq W] [DecidableEq T]
    (hi : Inv s) (ha : s.resume a = some (.owed g n))
    (hn : (s.fiber g).suspended = true → n = (s.fiber g).suspensions)
    (hu : (s.fiber g).suspended = true → Untested s g) : Inv (s.swapIn a g) := by
  refine hi.swapIn (by simp [ha, Resume.fiber?]) fun loc hl hf hs => ?_
  obtain ⟨hpark, hno, hpc⟩ := (hf.owed a g n ha).2 (hn hs) hs
  have he : (s.fiber g).events = none :=
    (hf.record g).events_none fun b hb => by simp [hb, InWait] at hpc
  exact ⟨hpark.off (hl.not_tested (hu hs)), Or.inl he, fun b hm => (hno ⟨b, hm⟩).elim⟩

theorem inv_add [DecidableEq F] [DecidableEq W] [DecidableEq T]
    (hi : Inv s) (ha : s.resume a = some (.adding g))
    (hb : (s.fiber g).boundQueue = some v) : Inv ((s.add v g).setResume a none) := by
  obtain ⟨loc, hl, hf⟩ := hi
  have hloc := (hl.resuming a g _).mpr ⟨ha, rfl⟩
  have hp := hf.place g
  rw [hloc] at hp
  have hl' := (hl.settle ha rfl).enqueue (w := v) (f := g) (by simp)
  rw [Function.update_idem] at hl'
  refine ⟨_, hl', hf.carry rfl (fun _ => rfl) (fun a' g' n h => ?_) (by simp [hloc, Loc.Parked])
    ⟨hp, Or.inl hb⟩⟩
  by_cases hne : a' = a
  · simp [hne] at h
  · simpa [hne] using h

theorem State.MayCall.resume_none (h : s.MayCall a) : s.resume a = none := by
  cases a with
  | worker w => exact h.elim
  | fiber f =>
    obtain ⟨⟨w, ha⟩, _⟩ := h
    exact ha.2
  | thread t => exact h

/-- No fiber has entries in two queues. -/
theorem Facts.entry_one {b' : B} (h : Facts s loc) (hm : g ∈ (s.blocker b).waitQueue)
    (hm' : g ∈ (s.blocker b').waitQueue) : b = b' := by
  have he := h.entry b g hm
  have he' := h.entry b' g hm'
  simp only [EntryOk] at he he'
  grind

/-- A suspended fiber with an entry is parked in a wait. -/
theorem Facts.entry_suspended (h : Facts s loc) (hm : g ∈ (s.blocker b).waitQueue)
    (hs : (s.fiber g).suspended = true) : (loc g).Parked ∧ InWait (s.fiber g).pc := by
  have he := h.entry b g hm
  refine ⟨?_, ?_⟩
  · rcases he with ⟨k, _, ⟨_, ho⟩ | ⟨hn | ht, _⟩⟩ | hr | ⟨_, _, _, ho⟩
    · exact ho ▸ trivial
    · simp [hs] at hn
    · exact ht.parked
    · simp [hs] at hr
    · exact ho ▸ trivial
  · rcases he with ⟨k, hp, _⟩ | ⟨_, hn⟩ | ⟨hp, _⟩
    · simp [hp, InWait]
    · simp [hs] at hn
    · simp [hp, InWait]

/-- A `swapIn` that somebody idle now owes. -/
theorem Inv.owe [DecidableEq F] [DecidableEq W] [DecidableEq T]
    (hi : Inv s) (ha : s.resume a = none)
    (hg : ∀ loc, Located s loc → (s.fiber g).suspended = true → (loc g).Parked ∧
      InWait (s.fiber g).pc ∧ ∀ b, g ∉ (s.blocker b).waitQueue) :
    Inv (s.setResume a (some (.owed g (s.fiber g).suspensions))) := by
  obtain ⟨loc, hl, hf⟩ := hi
  refine ⟨loc, hl.quiet (by simp [ha]) (by simp [Resume.fiber?]), hf.record, hf.place, hf.entry,
    hf.nodup, ?_⟩
  intro a' g' n ho
  by_cases h : a' = a
  · subst h
    simp only [State.setResume, Function.update_self, Option.some.injEq, Resume.owed.injEq] at ho
    obtain ⟨rfl, rfl⟩ := ho
    refine ⟨Nat.le_refl _, fun _ hs => ?_⟩
    obtain ⟨hpark, hpc, hno⟩ := hg loc hl hs
    exact ⟨hpark, fun ⟨b, hm⟩ => hno b hm, hpc⟩
  · exact hf.owed a' g' n (by simpa [h] using ho)

variable [DecidableEq B]

theorem release_eq [DecidableEq F] :
    (s.release b a).fiber = s.fiber ∧ (s.release b a).blocker = s.blocker ∧
    (s.release b a).taskQueue = s.taskQueue ∧ (s.release b a).worker = s.worker ∧
    (s.release b a).resume = s.resume := by
  cases a <;> exact ⟨rfl, rfl, rfl, rfl, rfl⟩

theorem inv_wakeUpWaiter [DecidableEq F] [DecidableEq W] [DecidableEq T]
    (hi : Inv s) (ha : s.resume a = none)
    (hc : (s.blocker b).wakeUp = (c, .waiter g)) :
    Inv ((s.setBlocker b c).setResume a (some (.owed g (s.fiber g).suspensions))) := by
  obtain ⟨q, hq, rfl⟩ := EFiberBlocker.wakeUp_waiter.mp hc
  have hm : g ∈ (s.blocker b).waitQueue := by simp [hq]
  have hi' : Inv (s.setBlocker b { s.blocker b with waitQueue := q }) :=
    inv_setBlocker hi (by simp [hq])
  refine hi'.owe ha fun loc' hl' hs => ?_
  obtain ⟨loc, hl, hf⟩ := hi
  obtain ⟨hpark, hpc⟩ := hf.entry_suspended hm hs
  refine ⟨hl.unique (hl'.frame rfl rfl rfl) ▸ hpark, hpc, fun b' hm' => ?_⟩
  have hn := hf.nodup b
  rw [hq, List.nodup_cons] at hn
  by_cases hbb : b' = b
  · subst b'
    exact hn.1 (by simpa using hm')
  · exact hbb (hf.entry_one (by simpa [hbb] using hm') hm)

theorem inv_wakeUpOther {r : Woken F} (hi : Inv s) (hc : (s.blocker b).wakeUp = (c, r))
    (hr : r = .refused ∨ r = .counted) : Inv (s.setBlocker b c) := by
  refine inv_setBlocker hi ?_
  rcases hr with rfl | rfl
  · rw [(EFiberBlocker.wakeUp_refused.mp hc).2.2]
  · rw [(EFiberBlocker.wakeUp_counted.mp hc).2.2]

variable [DecidableEq F] [DecidableEq W] [DecidableEq T]

theorem inv_step (h : Step s act t) (hg : OnTime s act) (hi : Inv s) : Inv t := by
  cases h with
  | schedule hn => exact inv_schedule hi hn
  | poll hw hq => exact inv_poll hi hw hq
  | pollEmpty hw _ => exact inv_free hi (by rw [hw]; rfl) rfl
  | endIdle hw _ => exact inv_free hi (by rw [hw]; rfl) rfl
  | timer hw ht => exact inv_timer hi hw ht hg
  | fileEvent hw he => exact inv_fileEvent hi hw he
  | dispatch hw _ => exact inv_dispatch hi hw
  | yield ha hp => exact inv_yield hi ha hp
  | finish ha hp => exact inv_finish hi ha hp
  | tryWait _ _ hc => exact inv_setHeld (inv_setBlocker hi (by rw [tryWait_waitQueue hc]))
  | tryWaitFail _ _ hc => exact inv_setBlocker hi (by rw [tryWait_waitQueue hc])
  | threadTryWait _ hc => exact inv_setBlocker hi (by rw [tryWait_waitQueue hc])
  | check ha hp hc => exact inv_check (inv_setBlocker hi (by rw [tryWait_waitQueue hc])) ha hp
  | block ha hp => exact inv_block hi ha hp
  | @waitReturn _ f _ ha hp =>
    have ht : (s.fiber f).timer = none := by
      obtain ⟨_, _, hf⟩ := hi
      rcases hp with hp | hp <;> exact (hf.record f).timer_none (by simp [hp, Timed])
    exact inv_setHeld (inv_waitReturn hi ha hp (Or.inl rfl) (by simp [EFiber.setPc, ← ht]))
  | tryWaitReturn ha hp ht =>
    exact inv_setHeld (inv_waitReturn hi ha hp (Or.inr ht) rfl)
  | timedOut ha hp _ => exact inv_timedOut hi ha hp
  | removeTrue ha hp hc => exact inv_remove hi ha hp hc
  | removeFalse ha hp hc => exact inv_setHeld (inv_remove hi ha hp hc)
  | sleep ha hp => exact inv_sleep hi ha hp
  | sleepReturn ha hp => exact inv_sleepReturn hi ha hp
  | pollEvents ha hp => exact inv_pollEvents hi ha hp
  | pollReturn ha hp => exact inv_pollReturn hi ha hp
  | switchRunnable hw hs => exact inv_switchRunnable hi hw hs
  | switchBlocked hw hs hb => exact inv_switchBlocked hi hw hs hb
  | switchOther hw _ _ => exact inv_switchOther hi hw
  | swapOutPermit hw hc => exact inv_swapOutPermit hi hw hc
  | swapOutHung hw hc => exact inv_swapOutHung hi hw hc
  | requeue hw => exact inv_requeue hi hw
  | wakeUpRefused _ hc => exact inv_release (inv_wakeUpOther hi hc (Or.inl rfl))
  | wakeUpCounted _ hc => exact inv_release (inv_wakeUpOther hi hc (Or.inr rfl))
  | @wakeUpWaiter a b _ _ ha hc =>
    have hi' := inv_release (b := b) (a := a) (inv_wakeUpWaiter hi ha.resume_none hc)
    cases a <;> exact hi'
  | swapIn ha => exact inv_swapIn hi ha (hg.1 _ _ ha) (hg.2 _ _ ha)
  | write ha => exact hi.write ha
  | add ha hb => exact inv_add hi ha hb

/-- Every fiber keeps one place along a run in which no resume comes late. -/
theorem inv_run {capacity limit : B → ℕ} {acts : List (Act F W B T)}
    (h : Transition.Run (Transition.Guarded OnTime Step) (initial capacity limit) acts s) :
    Inv s :=
  h.invariant (fun _ _ _ hi hs => inv_step hs.2 hs.1 hi) (inv_initial capacity limit)

end CxxFiber.Scheduler
