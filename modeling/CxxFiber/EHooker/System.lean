import CxxFiber.EHooker.Readiness
import CxxFiber.Library.Runs

/-! The fibers of one worker on their `EIoWaiter`. The part of a call before the fiber parks and
the part after it has been resumed are atomic: the other fibers run on the same thread. -/
namespace CxxFiber.EHooker

open EcoAe Transition

/-- `comm_io_on_fiber` on a descriptor in user-blocking mode, with its socket timeouts. -/
structure CommIo where
  fd : ℕ
  event : PollEvents
  recvTimeout : ℤ
  sendTimeout : ℤ

namespace CommIo

def milliseconds (io : CommIo) : ℤ :=
  let ms := if io.event = ⟨true, false⟩ then io.recvTimeout else io.sendTimeout
  if ms = 0 then -1 else ms

def call (io : CommIo) : HookCall := .poll [⟨io.fd, io.event, ⟨false, false⟩⟩] io.milliseconds

end CommIo

/-- What a fiber is suspended in; the hooked sleeps are `EFiber::sleep`. -/
inductive Park
  | sleep
  | wait
  | tryWait (timeout : ℤ)
  | hook (c : HookCall)
  | commIo (io : CommIo)

inductive Outcome
  | returned (n : ℕ)
  | calledAgain
  | etimedout
  deriving DecidableEq, Repr

/-- What a `poll` or `select` that parked has come to, and whether the timer that it armed has
fired since. -/
structure Report where
  call : HookCall
  outcome : Outcome
  expired : Bool

namespace Park

def call : Park → Option HookCall
  | .hook c => some c
  | .commIo io => some io.call
  | _ => none

def parks (p : Park) : Bool := p.call.elim true HookCall.parks

/-- `EFiber::sleep` always arms a timer, an untimed wait never. -/
def timer : Park → Bool
  | .sleep => true
  | .wait => false
  | .tryWait timeout => decide (0 < timeout)
  | .hook c => c.timer
  | .commIo io => io.call.timer

def readsFlag : Park → Bool
  | .sleep => false
  | .wait => false
  | .tryWait _ => true
  | .hook c => c.readsFlag
  | .commIo io => io.call.readsFlag

def regs (p : Park) : List (ℕ × Mask) := p.call.elim [] HookCall.regs

def fds (p : Park) : List ℕ := p.call.elim [] HookCall.fds

def delMask (p : Park) : Mask := p.call.elim .all HookCall.delMask

/-- The `poll` or `select` that the fiber is in. -/
def polled (p : Park) : Option HookCall := p.call.filter HookCall.polls

/-- `comm_io_on_fiber` turns a returned 0 into ETIMEDOUT and else calls `fn` again. -/
def outcome (p : Park) (ret : ℕ) : Outcome :=
  match p with
  | .commIo _ => if ret = 0 then .etimedout else .calledAgain
  | _ => .returned ret

end Park

namespace Park

variable {p : Park} {c : HookCall}

theorem regs_fds (p : Park) : p.regs.map Prod.fst = p.fds := by
  unfold regs fds
  cases p.call <;> rfl

theorem polled_eq_some : p.polled = some c ↔ p.call = some c ∧ c.polls = true :=
  Option.filter_eq_some_iff

theorem timer_of_call (h : p.call = some c) : p.timer = c.timer := by
  cases p with
  | hook c' => exact congrArg HookCall.timer (Option.some.inj h)
  | commIo io => exact congrArg HookCall.timer (Option.some.inj h)
  | sleep => exact nomatch h
  | wait => exact nomatch h
  | tryWait timeout => exact nomatch h

theorem fds_of_call (h : p.call = some c) : p.fds = c.fds := by
  rw [fds, h]
  rfl

theorem regs_of_call (h : p.call = some c) : p.regs = c.regs := by
  rw [regs, h]
  rfl

end Park

inductive Phase
  | user
  | parked (p : Park) (resumed : Bool)

/-- `armed` says whether the fiber's own timer is pending, `expired` whether it has fired since
the fiber parked. `stale` counts entries in the run queue besides the one of a resumed fiber. -/
structure Fiber where
  isIoWaitTimeout : Bool
  armed : Bool
  expired : Bool
  phase : Phase
  stale : ℕ

namespace Fiber

/-- `swapIn`. -/
def resume (x : Fiber) : Fiber :=
  match x.phase with
  | .user => x
  | .parked p _ => { x with phase := .parked p true }

/-- `timeEventProc`. -/
def timeEventProc (x : Fiber) : Fiber :=
  resume { x with isIoWaitTimeout := true, armed := false, expired := true }

/-- A `swapIn` that finds the fiber in the run queue with its old state adds it once more. -/
def queueAgain (x : Fiber) : Fiber := { x with stale := x.stale + 1 }

/-- The worker runs the fiber from such an entry. -/
def runStale (x : Fiber) : Fiber := resume { x with stale := x.stale - 1 }

/-- `setupTimer` clears the flag. -/
def park (x : Fiber) (p : Park) : Fiber where
  isIoWaitTimeout := !p.timer && x.isIoWaitTimeout
  armed := p.timer
  expired := false
  phase := .parked p false
  stale := x.stale

/-- `cancelTimer`, then `isWaitTimeout` clears the flag. -/
def leave (x : Fiber) (p : Park) : Fiber where
  isIoWaitTimeout := !p.readsFlag && x.isIoWaitTimeout
  armed := false
  expired := x.expired
  phase := .user
  stale := x.stale

end Fiber

variable {F : Type} [DecidableEq F]

structure State (F : Type) where
  waiter : EIoWaiter F
  fiber : F → Fiber
  reports : List Report

namespace State

def setFiber (s : State F) (f : F) (x : Fiber) : State F :=
  { s with fiber := Function.update s.fiber f x }

def enter (s : State F) (f : F) (p : Park) (api : ℕ → Bool) : State F :=
  { s.setFiber f ((s.fiber f).park p) with waiter := register s.waiter f api p.regs }

def leave (s : State F) (f : F) (p : Park) : State F :=
  { s.setFiber f ((s.fiber f).leave p) with
    waiter := delFileEvents s.waiter p.delMask p.fds
    reports := p.polled.elim s.reports fun c =>
      ⟨c, p.outcome (c.returns s.waiter (s.fiber f).isIoWaitTimeout), (s.fiber f).expired⟩ ::
        s.reports }

end State

inductive Act (F : Type)
  | enter (f : F) (p : Park) (api : ℕ → Bool)
  | timeEvent (f : F)
  | fileEvent (f : F)
  | wakeUp (f : F)
  | queueAgain (f : F)
  | runStale (f : F)
  | strayEvent
  | leave (f : F)

/-- `wakeUp` stands for every `swapIn` of a blocker, which may come late and find the fiber in
another suspension; a second entry may come up at any time, and outlives the suspension. What comes
after `fileEventProc` has read a deleted record is not modelled. -/
inductive Step : State F → Act F → State F → Prop
  | enter {s : State F} {f : F} {p : Park} (api : ℕ → Bool)
      (hu : (s.fiber f).phase = .user) (hp : p.parks = true) :
      Step s (.enter f p api) (s.enter f p api)
  | timeEvent {s : State F} {f : F} (ha : (s.fiber f).armed = true) :
      Step s (.timeEvent f) (s.setFiber f (s.fiber f).timeEventProc)
  | fileEvent {s : State F} {f : F} (timeout : ℤ) (batch : List (ℕ × EpollEvents))
      (hr : Resumed s.waiter timeout batch f) :
      Step s (.fileEvent f) (s.setFiber f (s.fiber f).resume)
  | wakeUp {s : State F} {f : F} {p : Park} {r : Bool} (hp : (s.fiber f).phase = .parked p r) :
      Step s (.wakeUp f) (s.setFiber f (s.fiber f).resume)
  | queueAgain {s : State F} {f : F} :
      Step s (.queueAgain f) (s.setFiber f (s.fiber f).queueAgain)
  | runStale {s : State F} {f : F} (hr : 0 < (s.fiber f).stale) :
      Step s (.runStale f) (s.setFiber f (s.fiber f).runStale)
  | strayEvent {s : State F} (timeout : ℤ) (batch : List (ℕ × EpollEvents))
      (i : Invocation ℕ) (hi : i ∈ s.waiter.poll.processFileEvents timeout batch)
      (hp : i.proc = .fileEventProc) (hd : i.clientData.bind s.waiter.heap = none) :
      Step s .strayEvent s
  | leave {s : State F} {f : F} {p : Park} (hp : (s.fiber f).phase = .parked p true) :
      Step s (.leave f) (s.leave f p)

/-- Nobody has parked yet; the slot of the signal pipe names no fiber. -/
structure Initial (s : State F) : Prop where
  named : ∀ fd, s.waiter.named fd = none
  fiber : ∀ f, s.fiber f = ⟨false, false, false, .user, 0⟩
  reports : s.reports = []

/-- The state of a new worker, but for its pipe. -/
def idle (F : Type) (setsize : ℕ) : State F :=
  ⟨.create setsize, fun _ => ⟨false, false, false, .user, 0⟩, []⟩

omit [DecidableEq F] in
theorem initial_idle (setsize : ℕ) : Initial (idle F setsize) := ⟨fun _ => rfl, fun _ => rfl, rfl⟩

section Table

variable {w : EIoWaiter F} {f g : F} {api : ℕ → Bool} {fd : ℕ} {m : Mask} {d : Direction}
  {regs : List (ℕ × Mask)} {fds : List ℕ}

omit [DecidableEq F]

theorem register_named_of_notMem (h : fd ∉ regs.map Prod.fst) :
    (register w f api regs).named fd = w.named fd := by
  induction regs generalizing w api with
  | nil => rfl
  | cons r regs ih =>
    obtain ⟨hr, hregs⟩ := not_or.mp (fun h' => h (by simpa using h'))
    rw [register, ih (by simpa using hregs), EIoWaiter.setFileEvent_named,
      if_neg (fun h' => hr h'.1)]

/-- A slot keeps its name or gets that of the caller. -/
theorem register_named (h : (register w f api regs).named fd = some g) :
    w.named fd = some g ∨ g = f ∧ fd < w.poll.setsize ∧ fd ∈ regs.map Prod.fst := by
  induction regs generalizing w api with
  | nil => exact Or.inl h
  | cons r regs ih =>
    rcases ih h with h | ⟨hg, hlt, hm⟩
    · rw [EIoWaiter.setFileEvent_named] at h
      split at h
      · next hr =>
        obtain ⟨hfd, hlt, -⟩ := hr
        rw [hfd]
        exact Or.inr ⟨(Option.some.inj h).symm, hlt, List.mem_cons_self⟩
      · exact Or.inl h
    · exact Or.inr ⟨hg, by simpa using hlt, List.mem_cons_of_mem _ hm⟩

theorem register_named_keep (h : w.named fd = some f) :
    (register w f api regs).named fd = some f := by
  induction regs generalizing w api with
  | nil => exact h
  | cons r regs ih =>
    refine ih ?_
    rw [EIoWaiter.setFileEvent_named]
    split
    · rfl
    · exact h

/-- A successful registration lasts through the rest of the loop. -/
theorem register_self {k : ℕ} (h : regs[k]? = some (fd, m)) (hr : Registers w (api k) fd)
    (hd : m.has d = true) : (register w f api regs).named fd = some f ∧
      ((register w f api regs).mask fd).has d = true := by
  induction regs generalizing w api k with
  | nil => exact nomatch h
  | cons r regs ih =>
    cases k with
    | zero =>
      obtain rfl := Option.some.inj h
      have hok : fd < w.poll.setsize ∧ api 0 = true := hr
      rw [register]
      refine ⟨register_named_keep ?_, register_mask_mono ?_⟩
      · rw [EIoWaiter.setFileEvent_named, if_pos ⟨rfl, hok⟩]
      · rw [EIoWaiter.setFileEvent_mask, if_pos ⟨rfl, hok⟩]
        simp [hd]
    | succ k =>
      exact ih (k := k) h ⟨by simpa using hr.1, hr.2⟩

@[simp] theorem delFileEvents_setsize :
    (delFileEvents w m fds).poll.setsize = w.poll.setsize := by
  induction fds generalizing w with
  | nil => rfl
  | cons fd fds ih => simp [delFileEvents, ih]

theorem delFileEvents_of_notMem (h : fd ∉ fds) :
    (delFileEvents w m fds).mask fd = w.mask fd ∧
      (delFileEvents w m fds).named fd = w.named fd := by
  induction fds generalizing w with
  | nil => exact ⟨rfl, rfl⟩
  | cons fd' fds ih =>
    obtain ⟨hne, hfds⟩ := not_or.mp (fun h' => h (List.mem_cons.mpr h'))
    obtain ⟨hmask, hnamed⟩ := ih (w := w.delFileEvent fd' m) hfds
    rw [EIoWaiter.delFileEvent_mask, if_neg hne] at hmask
    rw [EIoWaiter.delFileEvent_named, if_neg (fun h' => hne h'.1)] at hnamed
    exact ⟨hmask, hnamed⟩

theorem delFileEvents_named (h : (delFileEvents w m fds).named fd = some g) :
    w.named fd = some g ∧ (fd ∈ fds → w.poll.setsize ≤ fd) := by
  induction fds generalizing w with
  | nil => exact ⟨h, nofun⟩
  | cons fd' fds ih =>
    obtain ⟨hnamed, hlt⟩ := ih h
    rw [EIoWaiter.delFileEvent_named] at hnamed
    split at hnamed
    · exact nomatch hnamed
    · next hne =>
      refine ⟨hnamed, fun hm => ?_⟩
      rcases List.mem_cons.mp hm with rfl | hm
      · exact Nat.le_of_not_lt fun h' => hne ⟨rfl, h'⟩
      · simpa using hlt hm

/-- The slot that resumes a fiber names it and is registered. -/
theorem Resumed.slot {timeout : ℤ} {batch : List (ℕ × EpollEvents)}
    (h : Resumed w timeout batch f) : ∃ fd, w.named fd = some f ∧ w.mask fd ≠ .none := by
  obtain ⟨i, hi, hf⟩ := h
  have hp : w.poll.maxfd ≠ -1 ∨ timeout ≠ 0 := by
    by_contra hn
    simp [Poll.processFileEvents, hn] at hi
  simp only [Poll.processFileEvents, hp, if_true, List.mem_flatMap] at hi
  obtain ⟨⟨fd, e⟩, -, hd⟩ := hi
  refine ⟨fd, ?_, ?_⟩
  · rwa [(dispatch_fd hd).2] at hf
  · exact dispatch_mask hd

end Table

/-- The timer of a fiber is the one that its suspension armed. -/
def Fiber.Ok (x : Fiber) : Prop :=
  match x.phase with
  | .user => x.armed = false
  | .parked p r => (x.armed = true → p.timer = true) ∧ (x.expired = true → p.timer = true) ∧
    (r = false → x.armed = p.timer ∧ x.expired = false)

namespace Fiber

variable {x : Fiber} {p : Park} {r : Bool}

@[simp] theorem resume_isIoWaitTimeout : x.resume.isIoWaitTimeout = x.isIoWaitTimeout := by
  unfold resume
  split <;> rfl

@[simp] theorem resume_expired : x.resume.expired = x.expired := by
  unfold resume
  split <;> rfl

theorem resume_phase : x.resume.phase = .parked p r ↔ r = true ∧ ∃ r', x.phase = .parked p r' := by
  obtain ⟨flag, armed, expired, phase, stale⟩ := x
  cases phase with
  | user => simp [resume]
  | parked p' r' => simp [resume, and_comm, eq_comm]

theorem timeEventProc_phase :
    x.timeEventProc.phase = .parked p r ↔ r = true ∧ ∃ r', x.phase = .parked p r' := resume_phase

theorem runStale_phase :
    x.runStale.phase = .parked p r ↔ r = true ∧ ∃ r', x.phase = .parked p r' := resume_phase

theorem ok_park : (x.park p).Ok := by
  simp [Ok, park]

theorem ok_leave : (x.leave p).Ok := rfl

theorem Ok.resume (h : x.Ok) : x.resume.Ok := by
  obtain ⟨flag, armed, expired, phase, stale⟩ := x
  cases phase with
  | user => exact h
  | parked p r => exact ⟨h.1, h.2.1, nofun⟩

theorem Ok.runStale (h : x.Ok) : x.runStale.Ok := Ok.resume (x := { x with stale := x.stale - 1 }) h

theorem Ok.timeEventProc (h : x.Ok) (ha : x.armed = true) : x.timeEventProc.Ok := by
  obtain ⟨flag, armed, expired, phase, stale⟩ := x
  cases phase with
  | user =>
    have hno : armed = false := h
    rw [hno] at ha
    cases ha
  | parked p r => exact ⟨nofun, fun _ => h.1 ha, nofun⟩

end Fiber

/-- What holds of the fibers and the table in every run. -/
structure Placed (s : State F) : Prop where
  ok : ∀ f, (s.fiber f).Ok
  slot : ∀ fd f, s.waiter.named fd = some f →
    fd < s.waiter.poll.setsize ∧ ∃ p r, (s.fiber f).phase = .parked p r ∧ fd ∈ p.fds

variable {s t : State F} {a : Act F} {as : List (Act F)} {f g : F} {x : Fiber} {p q : Park}
  {r : Bool} {api : ℕ → Bool}

theorem setFiber_self : (s.setFiber f x).fiber f = x := Function.update_self ..

theorem setFiber_of_ne (h : g ≠ f) : (s.setFiber f x).fiber g = s.fiber g :=
  Function.update_of_ne h ..

omit [DecidableEq F] in
theorem placed_initial (h : Initial s) : Placed s where
  ok f := by
    rw [h.fiber]
    rfl
  slot fd f hf := by
    rw [h.named] at hf
    exact nomatch hf

/-- A resumed fiber stays where it is parked. -/
theorem placed_setFiber (hs : Placed s) (hx : x.Ok)
    (hp : ∀ p r, (s.fiber f).phase = .parked p r → ∃ r', x.phase = .parked p r') :
    Placed (s.setFiber f x) where
  ok g := by
    by_cases hg : g = f
    · rw [hg, setFiber_self]
      exact hx
    · rw [setFiber_of_ne hg]
      exact hs.ok g
  slot fd g hg := by
    obtain ⟨hlt, p, r, hphase, hfd⟩ := hs.slot fd g hg
    by_cases hgf : g = f
    · subst hgf
      obtain ⟨r', hx⟩ := hp p r hphase
      exact ⟨hlt, p, r', by rwa [setFiber_self], hfd⟩
    · exact ⟨hlt, p, r, by rwa [setFiber_of_ne hgf], hfd⟩

theorem enter_self : (s.enter f p api).fiber f = (s.fiber f).park p := Function.update_self ..

theorem enter_of_ne (h : g ≠ f) : (s.enter f p api).fiber g = s.fiber g :=
  Function.update_of_ne h ..

theorem leave_self : (s.leave f p).fiber f = (s.fiber f).leave p := Function.update_self ..

theorem leave_of_ne (h : g ≠ f) : (s.leave f p).fiber g = s.fiber g := Function.update_of_ne h ..

theorem placed_enter (hs : Placed s) (hu : (s.fiber f).phase = .user) :
    Placed (s.enter f p api) where
  ok g := by
    by_cases hg : g = f
    · rw [hg, enter_self]
      exact Fiber.ok_park
    · rw [enter_of_ne hg]
      exact hs.ok g
  slot fd g hg := by
    have hsize : (s.enter f p api).waiter.poll.setsize = s.waiter.poll.setsize := register_setsize
    rw [hsize]
    rcases register_named hg with hold | ⟨rfl, hlt, hfd⟩
    · obtain ⟨hlt, q, r, hq, hfd⟩ := hs.slot fd g hold
      have hgf : g ≠ f := by
        rintro rfl
        rw [hu] at hq
        exact nomatch hq
      exact ⟨hlt, q, r, by rwa [enter_of_ne hgf], hfd⟩
    · refine ⟨hlt, p, false, ?_, by rwa [Park.regs_fds] at hfd⟩
      rw [enter_self]
      rfl

/-- The slots of a call are all deleted when it ends. -/
theorem placed_leave (hs : Placed s) (hp : (s.fiber f).phase = .parked p true) :
    Placed (s.leave f p) where
  ok g := by
    by_cases hg : g = f
    · rw [hg, leave_self]
      exact Fiber.ok_leave
    · rw [leave_of_ne hg]
      exact hs.ok g
  slot fd g hg := by
    have hsize : (s.leave f p).waiter.poll.setsize = s.waiter.poll.setsize := delFileEvents_setsize
    obtain ⟨hold, hdel⟩ := delFileEvents_named hg
    obtain ⟨hlt, q, r, hq, hfd⟩ := hs.slot fd g hold
    have hgf : g ≠ f := by
      rintro rfl
      obtain ⟨rfl, -⟩ := Phase.parked.inj (hp.symm.trans hq)
      have := hdel hfd
      omega
    exact ⟨by rwa [hsize], q, r, by rwa [leave_of_ne hgf], hfd⟩

theorem placed_step (hs : Placed s) (h : Step s a t) : Placed t := by
  cases h with
  | enter _ hu _ => exact placed_enter hs hu
  | timeEvent ha => exact placed_setFiber hs ((hs.ok _).timeEventProc ha) fun p r hp => ⟨true,
      Fiber.resume_phase.mpr ⟨rfl, r, hp⟩⟩
  | fileEvent _ _ _ => exact placed_setFiber hs (hs.ok _).resume fun p r hp => ⟨true,
      Fiber.resume_phase.mpr ⟨rfl, r, hp⟩⟩
  | wakeUp _ => exact placed_setFiber hs (hs.ok _).resume fun p r hp => ⟨true,
      Fiber.resume_phase.mpr ⟨rfl, r, hp⟩⟩
  | @queueAgain f =>
    have hok : (s.fiber f).queueAgain.Ok := hs.ok f
    exact placed_setFiber hs hok fun p r hp => ⟨r, hp⟩
  | runStale _ => exact placed_setFiber hs (hs.ok _).runStale fun p r hp => ⟨true,
      Fiber.runStale_phase.mpr ⟨rfl, r, hp⟩⟩
  | strayEvent _ _ _ _ _ _ => exact hs
  | leave hp => exact placed_leave hs hp

end CxxFiber.EHooker
