import CxxFiber.Scheduler.Join.Sleepers

/-! `EFiberScheduler::interrupt`: whose io waiters it signals, and which loops that wakes. -/
namespace CxxFiber.Interrupt

open Transition
open Scheduler (Agent WorkerPc)
open Join (Stage NotStarted notStarted_step sched_step)

variable {n : ℕ} {F B T : Type}

section Steps

variable [DecidableEq F] [DecidableEq B] [DecidableEq T]

/-- Where a call of `interrupt` stands: it has set the flag, has the io waiters `rest` before it,
or has made the timers of `w` due and not signalled `w` yet. -/
inductive CallPc (n : ℕ)
  | idle
  | flagged
  | next (rest : List (Fin (n + 1)))
  | fired (w : Fin (n + 1)) (rest : List (Fin (n + 1)))
  deriving DecidableEq, Repr

/-- `stale`: an earlier `join(int)` has left its stubs. `due w`: a timer of `w` is due. `returned`
is history: some call of `interrupt` has returned. -/
structure State (n : ℕ) (F B T : Type) where
  join : Join.State n F B T
  stale : Bool
  due : Fin (n + 1) → Bool
  pc : Agent F (Fin (n + 1)) T → CallPc n
  returned : Bool

def initial (stale : Bool) (capacity limit : B → ℕ) : State n F B T where
  join := Join.initial capacity limit
  stale := stale
  due _ := false
  pc _ := .idle
  returned := false

/-- `tick` is time, `processed` a pass over the timers. -/
inductive Act (n : ℕ) (F B T : Type)
  | setFlag (a : Agent F (Fin (n + 1)) T)
  | findWaiters (a : Agent F (Fin (n + 1)) T)
  | interrupt (a : Agent F (Fin (n + 1)) T)
  | signal (a : Agent F (Fin (n + 1)) T)
  | leave (a : Agent F (Fin (n + 1)) T)
  | tick (w : Fin (n + 1))
  | processed (w : Fin (n + 1))
  | strand (f : F)
  | join (act : Join.Act n F B T)

namespace State

@[simp] def setPc (s : State n F B T) (a : Agent F (Fin (n + 1)) T) (c : CallPc n) :
    State n F B T := { s with pc := Function.update s.pc a c }

@[simp] def setDue (s : State n F B T) (w : Fin (n + 1)) (b : Bool) : State n F B T :=
  { s with due := Function.update s.due w b }

/-- A running fiber or an outside thread, not inside another call. -/
def MayInterrupt (s : State n F B T) (a : Agent F (Fin (n + 1)) T) : Prop :=
  s.join.MaySchedule a ∧ s.join.call a = .idle ∧ s.pc a = .idle

/-- `currentIoWaiter()`: the thread that a fiber runs on is a worker, another thread has no io
waiter of this scheduler. -/
def currentIoWaiter (s : State n F B T) : Agent F (Fin (n + 1)) T → List (Fin (n + 1))
  | .fiber f => (List.finRange (n + 1)).filter fun w => decide (s.join.sched.worker w = .running f)
  | _ => []

/-- The io waiters that `interrupt` goes through. The stubs are those of this `join(int)` once it
has been called with more than one thread; no worker has a stub that is left of an earlier one. -/
def waiters (s : State n F B T) (a : Agent F (Fin (n + 1)) T) : List (Fin (n + 1)) :=
  if n ≠ 0 ∧ s.join.caller ≠ .before then List.finRange (n + 1)
  else if s.stale then []
  else s.currentIoWaiter a

/-- `scheduleIgnoreBalance` puts into the queue of a stub that no worker polls. -/
def Strands (s : State n F B T) : Prop := s.stale = true ∧ (n = 0 ∨ s.join.caller = .before)

/-- A step of `join` that is none of `interrupt`, by a party that is not inside `interrupt`. -/
def Allows (s : State n F B T) : Join.Act n F B T → Prop
  | .interrupt => False
  | .schedule _ => ¬ s.Strands
  | .countCall a _ => s.pc a = .idle ∧ ¬ s.Strands
  | .sched act => s.pc (Join.party act) = .idle
  | _ => True

end State

inductive Step (s : State n F B T) : Act n F B T → State n F B T → Prop
  | setFlag {a u} : s.MayInterrupt a → Join.Step s.join .interrupt u →
      Step s (.setFlag a) { s.setPc a .flagged with join := u }
  | findWaiters {a} : s.pc a = .flagged →
      Step s (.findWaiters a) (s.setPc a (.next (s.waiters a)))
  -- `fire_all`; `timer` tells whether there is one
  | interrupt {a w r} (timer : Bool) : s.pc a = .next (w :: r) →
      Step s (.interrupt a) ((s.setDue w (s.due w || timer)).setPc a (.fired w r))
  | signal {a w r u} : s.pc a = .fired w r → Join.Step s.join (.signal w) u →
      Step s (.signal a) { s.setPc a (.next r) with join := u }
  | leave {a} : s.pc a = .next [] →
      Step s (.leave a) { s.setPc a .idle with returned := true }
  | tick {w} : Step s (.tick w) (s.setDue w true)
  | processed {w} (b : Bool) : Join.Awake (s.join.stage w) →
      Step s (.processed w) (s.setDue w b)
  | strand {f} : s.Strands → s.join.life f = .fresh →
      Step s (.strand f) { s with join := s.join.count f }
  | join {a u} : s.Allows a → Join.Step s.join a u → Step s (.join a) { s with join := u }

/-- Once a call of `interrupt` has returned, a worker is not blocked without something to wake it:
a blocked worker has not observed the flag, or it had left its loop. -/
def Wakes (s : State n F B T) : Prop :=
  s.returned = true → ∀ w, s.join.stage w = .blocked → 0 < s.join.pipe w ∨ s.due w = true

/-- Past the test of the flag, on the way to its fiber or into the multiplexer. -/
def Tested : Stage n F → Prop
  | .counted _ | .empty | .hanging | .blocked => True
  | _ => False

/-- In the multiplexer, or on the way into it with no further test. -/
def Blocks (x : Join.State n F B T) (w : Fin (n + 1)) : Prop :=
  match x.stage w with
  | .counted m => 0 < m ∧ x.sched.taskQueue w = []
  | .empty | .hanging | .blocked => True
  | _ => False

/-- The condition on a step: a thread that is none of a single worker's fibers sets the flag only
while that worker does not block, or has a byte or a due timer. -/
def Seen (s : State n F B T) : Act n F B T → Prop
  | .setFlag (.thread _) =>
    n = 0 → ∀ w, Blocks s.join w → 0 < s.join.pipe w ∨ s.due w = true
  | _ => True

end Steps

variable {x y : Join.State n F B T} {act : Join.Act n F B T} {v w : Fin (n + 1)}
  {s t : State n F B T} {a : Act n F B T} {as : List (Act n F B T)} {stale : Bool}
  {capacity limit : B → ℕ}

/-- What the worker of the scheduler does in a stage of its loop without a fiber. -/
def Resting : Stage n F → WorkerPc F B → Prop
  | .off, p | .loop, p | .counted _, p | .retiring _, p => p = .head
  | .empty, p | .hanging, p | .blocked, p | .events _, p => p = .idle
  | _, _ => True

def Tied (x : Join.State n F B T) : Prop := ∀ w, Resting (x.stage w) (x.sched.worker w)

theorem worker_rest [DecidableEq F] [DecidableEq B] [DecidableEq T]
    {z u : Scheduler.State F (Fin (n + 1)) B T}
    {b : Scheduler.Act F (Fin (n + 1)) B T} (hst : Scheduler.Step z b u) (hb : ¬ Join.OfLoop b)
    (hw : z.worker w = .head ∨ z.worker w = .idle) : u.worker w = z.worker w := by
  have hset : ∀ {v p q}, u.worker = Function.update z.worker v p → z.worker v = q →
      q ≠ .head → q ≠ .idle → u.worker w = z.worker w := by
    intro v p q hu hv hh hi
    have hne : w ≠ v := by
      rintro rfl
      rcases hw with hw | hw
      · exact hh (hv.symm.trans hw)
      · exact hi (hv.symm.trans hw)
    rw [hu, Function.update_of_ne hne]
  cases hst with
  | schedule | poll | pollEmpty | endIdle => exact (hb trivial).elim
  | dispatch hv | switchRunnable hv | switchBlocked hv | switchOther hv | swapOutPermit hv
  | swapOutHung hv | requeue hv => exact hset rfl hv (by simp) (by simp)
  | yield ha | finish ha | block ha | sleep ha | pollEvents ha =>
    exact hset rfl ha.1 (by simp) (by simp)
  | timer | fileEvent | swapIn =>
    unfold Scheduler.State.swapIn
    split <;> rfl
  | @wakeUpRefused a | @wakeUpCounted a | @wakeUpWaiter a => cases a <;> rfl
  | _ => rfl

theorem settled_resting (z u : Scheduler.State F (Fin (n + 1)) B T) (w : Fin (n + 1)) :
    Resting (Join.settled z u w) (u.worker w) := by
  unfold Join.settled
  split
  case h_1 f hu _ =>
    split <;> exact hu
  case h_2 hu _ => exact hu
  case h_3 => trivial

/-- One worker moves. -/
theorem Tied.move {c : Stage n F} {p : WorkerPc F B} (h : Tied x)
    (hy : y.stage = Function.update x.stage v c)
    (hs : y.sched.worker = Function.update x.sched.worker v p) (hc : Resting c p) : Tied y := by
  intro w
  rw [hy, hs]
  by_cases hw : w = v
  · subst v
    rwa [Function.update_self, Function.update_self]
  · rw [Function.update_of_ne hw, Function.update_of_ne hw]
    exact h w

theorem Tied.stage {c : Stage n F} (h : Tied x) (hy : y.stage = Function.update x.stage v c)
    (hs : y.sched = x.sched) (hc : Resting c (x.sched.worker v)) : Tied y :=
  h.move hy (by rw [hs, Function.update_eq_self]) hc

theorem tied_step [DecidableEq F] [DecidableEq B] [DecidableEq T]
    (hst : Join.Step x act y) (hn : NotStarted x) (h : Tied x) : Tied y := by
  cases hst with
  | @start i hi hc =>
    simp only [NotStarted, hc] at hn
    have hr := h (Fin.succ ⟨i, hi⟩)
    rw [hn.2 _ (by simp)] at hr
    exact h.stage rfl rfl hr
  | started hc =>
    simp only [NotStarted, hc] at hn
    have hr := h 0
    rw [hn.1] at hr
    exact h.stage rfl rfl hr
  | interrupted | pollDone | cleanSignal | cleaned | leave | raise | caught =>
    exact h.stage rfl rfl trivial
  | @count v hs | @setHung v hs | @block v hs | @wake v hs | @drain v hs | @retire v f hs =>
    have hr := h v
    rw [hs] at hr
    exact h.stage rfl rfl hr
  | dispatch _ _ hu | addCall _ hu =>
    cases hu
    exact h
  | poll hs hu | pollEmpty hs hm hu | clearHung hs hu =>
    cases hu
    exact h.move rfl rfl (by simp [Resting])
  | @sched b u ho hm hu =>
    have hrest : ∀ w, Resting (x.stage w) (u.worker w) := by
      intro w
      have hw := h w
      cases hs : x.stage w with
      | busy | clean | check | left | done => trivial
      | _ =>
        simp only [hs, Resting] at hw ⊢
        rw [worker_rest hu ho (by simp [hw]), hw]
    intro w
    cases b with
    | switch v | swapOut v | requeue v =>
      by_cases hw : w = v
      · subst v
        simpa [Join.stageAfter] using settled_resting x.sched u w
      · simpa [Join.stageAfter, hw] using hrest w
    | _ => exact hrest w
  | _ => exact h

theorem interrupted_keep [DecidableEq F] [DecidableEq B] [DecidableEq T]
    (hst : Join.Step x act y) (ha : act ≠ .interrupt) :
    y.interrupted = x.interrupted := by
  cases hst with
  | interrupt => exact (ha rfl).elim
  | _ => rfl

/-- A worker tests the flag only while it is not set, and no byte is read from the pipe of a worker
that has tested it. -/
theorem tested_step [DecidableEq F] [DecidableEq B] [DecidableEq T]
    (hst : Join.Step x act y) (h : Tested (y.stage w)) :
    x.interrupted = false ∨ Tested (x.stage w) ∧ x.pipe w ≤ y.pipe w := by
  have hset : ∀ {v c}, y.stage = Function.update x.stage v c → ¬ Tested c → x.pipe w ≤ y.pipe w →
      x.interrupted = false ∨ Tested (x.stage w) ∧ x.pipe w ≤ y.pipe w := by
    intro v c hy hc hp
    rw [hy] at h
    by_cases hw : w = v
    · subst v
      rw [Function.update_self] at h
      exact (hc h).elim
    · rw [Function.update_of_ne hw] at h
      exact Or.inr ⟨h, hp⟩
  have hgo : ∀ {v c d}, x.stage v = d → Tested d → y.stage = Function.update x.stage v c →
      y.pipe = x.pipe → x.interrupted = false ∨ Tested (x.stage w) ∧ x.pipe w ≤ y.pipe w := by
    intro v c d hv hd hy hp
    refine Or.inr ⟨?_, (congrFun hp w).ge⟩
    rw [hy] at h
    by_cases hw : w = v
    · subst v
      rwa [hv]
    · rwa [Function.update_of_ne hw] at h
  -- a pipe that is written to, or read by a worker that is awake
  have hpipe : ∀ {v m}, y.pipe = Function.update x.pipe v m → (w = v → x.pipe w ≤ m) →
      x.pipe w ≤ y.pipe w := by
    intro v m hy hm
    rw [hy]
    by_cases hw : w = v
    · subst v
      simpa using hm rfl
    · simp [hw]
  cases hst with
  | count hs hi => exact Or.inl hi
  | pollEmpty hs | setHung hs | block hs => exact hgo hs trivial rfl rfl
  | start | started | interrupted | poll | pollDone | wake | clearHung | retire | cleaned | leave
  | raise | caught => exact hset rfl id le_rfl
  | @drain v hs =>
    by_cases hw : w = v
    · subst v
      simp [Tested] at h
    · exact hset rfl id (hpipe rfl fun he => (hw he).elim)
  | @drainBusy v f hs =>
    have hw : w ≠ v := by
      rintro rfl
      exact (hs ▸ h : Tested (.busy : Stage n F))
    exact Or.inr ⟨h, hpipe rfl fun he => (hw he).elim⟩
  | signal | signalCall =>
    refine Or.inr ⟨h, hpipe rfl ?_⟩
    rintro rfl
    omega
  | cleanSignal =>
    refine hset rfl id (hpipe rfl ?_)
    rintro rfl
    omega
  | @sched b u ho hm hu =>
    cases b with
    | switch v | swapOut v | requeue v =>
      refine hset rfl ?_ le_rfl
      rcases Join.settled_ne x.sched u _ rfl with he | he | ⟨f, he⟩ <;> rw [he] <;> exact id
    | _ => exact Or.inr ⟨h, le_rfl⟩
  | _ => exact Or.inr ⟨h, le_rfl⟩

theorem Blocks.tested (h : Blocks x w) : Tested (x.stage w) := by
  unfold Blocks at h
  cases hs : x.stage w <;> simp [hs] at h <;> trivial

/-- A queue is emptied by polling only. -/
theorem queue_step [DecidableEq F] [DecidableEq B] [DecidableEq T]
    (hst : Join.Step x act y) (ha : act ≠ .poll w)
    (h : y.sched.taskQueue w = []) : x.sched.taskQueue w = [] := by
  cases hq : x.sched.taskQueue w with
  | nil => rfl
  | cons g q =>
    rcases sched_step hst with he | ⟨b, hu, hb⟩
    · simp [he, hq] at h
    · have hne : b ≠ .poll w := by
        rintro rfl
        rcases hb with rfl | ⟨_, hb⟩
        · cases hst with
          | sched ho => exact ho trivial
        · exact ha (hb w rfl)
      obtain ⟨q', hq'⟩ := Scheduler.queue_head hu hq hne
      simp [hq'] at h

/-- A worker that blocks has tested the flag before it was set. -/
theorem blocks_step [DecidableEq F] [DecidableEq B] [DecidableEq T]
    (hst : Join.Step x act y) (hn : NotStarted x) (h : Blocks y w) :
    x.interrupted = false ∨ Blocks x w := by
  refine (tested_step hst h.tested).imp_right ?_
  rintro ⟨ht, -⟩
  cases hs : x.stage w with
  | empty | hanging | blocked => simp [Blocks, hs]
  | counted m =>
    suffices hm : 0 < m ∧ x.sched.taskQueue w = [] by simpa [Blocks, hs] using hm
    by_cases hp : act = .poll w
    · subst act
      cases hst with
      | poll => simp [Blocks] at h
      | pollDone => simp [Blocks] at h
      | @pollEmpty _ m' u hs' hm hu =>
        obtain rfl : m = m' := by simpa [hs] using hs'
        cases hu with
        | pollEmpty _ hq => exact ⟨hm, hq⟩
    · have hr : act ≠ .raise w := by
        rintro rfl
        cases hst
        simp [Blocks] at h
      have hy := Sleepers.counted_step hst hn hs hr hp
      simp only [Blocks, hy] at h
      exact ⟨h.1, queue_step hst hp h.2⟩
  | _ => simp [hs, Tested] at ht

/-- What a call still owes to a worker that has tested the flag. -/
def Owes (x : Join.State n F B T) (w : Fin (n + 1)) : CallPc n → Prop
  | .idle | .flagged => True
  | .next r => w ∈ r ∨ 0 < x.pipe w
  | .fired v r => w = v ∨ w ∈ r ∨ 0 < x.pipe w

theorem Owes.mono {c : CallPc n} (h : Owes x w c) (hp : x.pipe w ≤ y.pipe w) : Owes y w c := by
  cases c with
  | idle | flagged => trivial
  | next r => exact h.imp_right fun h => by omega
  | fired v r => exact h.imp_right fun h => h.imp_right fun h => by omega

/-- What holds of every state that the condition lets a run reach. -/
structure Inv (s : State n F B T) : Prop where
  started : NotStarted s.join
  tied : Tied s.join
  flag : ∀ a, s.pc a ≠ .idle → s.join.interrupted = true
  returned : s.returned = true → s.join.interrupted = true
  calls : n ≠ 0 → ∀ a w, Tested (s.join.stage w) → Owes s.join w (s.pc a)
  signalled : n ≠ 0 → s.returned = true → ∀ w, Tested (s.join.stage w) → 0 < s.join.pipe w
  single : n = 0 → s.join.interrupted = true → ∀ w, Blocks s.join w →
    0 < s.join.pipe w ∨ s.due w = true

theorem inv_initial : Inv (initial stale capacity limit : State n F B T) where
  started _ := rfl
  tied _ := rfl
  flag := by simp [initial]
  returned := by simp [initial]
  calls _ _ _ _ := trivial
  signalled := by simp [initial]
  single _ _ _ h := by simp [initial, Join.initial, Blocks] at h

theorem Inv.wakes (h : Inv s) : Wakes s := by
  intro hr w hw
  by_cases hn : n = 0
  · exact h.single hn (h.returned hr) w (by simp [Blocks, hw])
  · exact Or.inl (h.signalled hn hr w (by simp [Tested, hw]))

/-- A fiber that calls `interrupt` keeps its worker busy. -/
theorem Inv.running {f : F} (h : Inv s) (hw : s.join.sched.worker w = .running f) :
    ¬ Blocks s.join w := by
  intro hb
  have hr := h.tied w
  rw [hw] at hr
  cases hs : s.join.stage w <;> simp [hs, Resting, Blocks] at hr hb

theorem Inv.setPc [DecidableEq F] [DecidableEq T]
    {b : Agent F (Fin (n + 1)) T} {c : CallPc n} (h : Inv s)
    (hf : c ≠ .idle → s.join.interrupted = true)
    (hc : n ≠ 0 → ∀ w, Tested (s.join.stage w) → Owes s.join w c) : Inv (s.setPc b c) := by
  constructor
  case started => exact h.started
  case tied => exact h.tied
  case flag =>
    intro d hd
    by_cases he : d = b
    · subst d
      exact hf (by simpa using hd)
    · exact h.flag d (by simpa [he] using hd)
  case returned => exact h.returned
  case calls =>
    intro hn d w hw
    by_cases he : d = b
    · subst d
      simpa using hc hn w hw
    · simpa [he] using h.calls hn d w hw
  case signalled => exact h.signalled
  case single => exact h.single

theorem Inv.setDue {b : Bool} (h : Inv s) (hb : Blocks s.join v → s.due v = true → b = true) :
    Inv (s.setDue v b) := by
  refine ⟨h.started, h.tied, h.flag, h.returned, h.calls, h.signalled, fun hn hi w hw => ?_⟩
  by_cases he : w = v
  · subst v
    simpa using (h.single hn hi w hw).imp_right (hb hw)
  · simpa [he] using h.single hn hi w hw

/-- A step of `join` that does not set the flag. -/
theorem Inv.join [DecidableEq F] [DecidableEq B] [DecidableEq T]
    (h : Inv s) (hst : Join.Step s.join act y) (ha : act ≠ .interrupt) :
    Inv { s with join := y } := by
  have hi := interrupted_keep hst ha
  -- whoever has tested the flag once it is set has tested it before
  have hold : y.interrupted = true → ∀ w, Tested (y.stage w) →
      Tested (s.join.stage w) ∧ s.join.pipe w ≤ y.pipe w := by
    intro hy w hw
    exact (tested_step hst hw).resolve_left (by simp [← hi, hy])
  constructor
  case started => exact notStarted_step hst h.started
  case tied => exact tied_step hst h.started h.tied
  case flag => exact fun b hb => hi.trans (h.flag b hb)
  case returned => exact fun hr => hi.trans (h.returned hr)
  case calls =>
    intro hn b w hw
    by_cases hb : s.pc b = .idle
    · simp [hb, Owes]
    · obtain ⟨hw, hp⟩ := hold (hi.trans (h.flag b hb)) w hw
      exact (h.calls hn b w hw).mono hp
  case signalled =>
    intro hn hr w hw
    obtain ⟨hw, hp⟩ := hold (hi.trans (h.returned hr)) w hw
    exact (h.signalled hn hr w hw).trans_le hp
  case single =>
    intro hn hy w hw
    have hs : s.join.interrupted = true := hi.symm.trans hy
    have hp := (hold hy w hw.tested).2
    have hb := (blocks_step hst h.started hw).resolve_left (by simp [hs])
    exact (h.single hn hs w hb).imp_left fun hw => hw.trans_le hp

theorem Inv.setFlag [DecidableEq F] [DecidableEq T]
    {b : Agent F (Fin (n + 1)) T} (h : Inv s) (hm : s.MayInterrupt b)
    (hg : Seen s (.setFlag b)) :
    Inv { s.setPc b .flagged with join := { s.join with interrupted := true } } := by
  have hs : Inv { s with join := { s.join with interrupted := true } } := by
    refine ⟨h.started, h.tied, fun _ _ => rfl, fun _ => rfl, h.calls, h.signalled, ?_⟩
    intro hn _ w hw
    cases b with
    | worker v => exact hm.1.elim
    | fiber f =>
      obtain ⟨v, hv⟩ := hm.1.1
      have hwv : v = w := Fin.ext (by omega)
      exact (h.running (hwv ▸ hv.1) hw).elim
    | thread t => exact hg hn w hw
  exact hs.setPc (fun _ => rfl) fun _ _ _ => trivial

variable [DecidableEq F] [DecidableEq B] [DecidableEq T]

theorem inv_step (hst : Step s a t) (hg : Seen s a) (h : Inv s) : Inv t := by
  cases hst with
  | setFlag hm hu =>
    cases hu
    exact h.setFlag hm hg
  | @findWaiters b hb =>
    have hf : s.join.interrupted = true := h.flag b (by simp [hb])
    apply h.setPc fun _ => hf
    intro hn w hw
    by_cases hc : s.join.caller = .before
    · -- no worker has been started
      have hs := h.started
      simp only [NotStarted, hc] at hs
      simp [hs w, Tested] at hw
    · exact Or.inl (by simp [State.waiters, hn, hc])
  | @interrupt b w r timer hb =>
    have hf : s.join.interrupted = true := h.flag b (by simp [hb])
    have hd : Inv (s.setDue w (s.due w || timer)) := h.setDue fun _ hd => by simp [hd]
    apply hd.setPc fun _ => hf
    intro hn v hv
    have ho := h.calls hn b v hv
    rw [hb] at ho
    simpa [Owes, or_assoc] using ho
  | @signal b w r u hb hu =>
    have hf : s.join.interrupted = true := h.flag b (by simp [hb])
    have hj := h.join hu (by simp)
    cases hu
    apply hj.setPc fun _ => hf
    intro hn v hv
    have ho := h.calls hn b v hv
    rw [hb] at ho
    rcases ho with rfl | ho
    · exact Or.inr (by simp)
    · refine ho.imp_right fun hp => ?_
      by_cases hvw : v = w
      · subst v
        simp
      · simpa [hvw] using hp
  | @leave b hb =>
    have hf : s.join.interrupted = true := h.flag b (by simp [hb])
    have hs : Inv { s with returned := true } := by
      refine ⟨h.started, h.tied, h.flag, fun _ => hf, h.calls, fun hn _ w hw => ?_, h.single⟩
      have ho := h.calls hn b w hw
      rw [hb] at ho
      exact ho.resolve_left (by simp)
    exact hs.setPc (fun hc => (hc rfl).elim) fun _ _ _ => trivial
  | tick => exact h.setDue fun _ _ => rfl
  | @processed w b hw =>
    refine h.setDue fun hb => ?_
    unfold Blocks at hb
    cases hs : s.join.stage w <;> simp [hs, Join.Awake] at hw hb
  | strand => exact ⟨h.started, h.tied, h.flag, h.returned, h.calls, h.signalled, h.single⟩
  | @join act u ha hu =>
    apply h.join hu
    rintro rfl
    exact ha

theorem interrupt_wakes (h : Run (Guarded Seen Step) (initial stale capacity limit) as s) :
    Wakes s := by
  have hi : Inv s := h.invariant (fun _ _ _ hi hst => inv_step hst.2 hst.1 hi) inv_initial
  exact hi.wakes

/-- Two workers: worker 1 has tested the flag and is about to block when another thread interrupts;
it blocks with a byte in its pipe. -/
theorem interrupt_wakes_blocked : ∃ s : State 1 Unit Unit Unit,
    Wakes s ∧ s.returned = true ∧ s.join.stage 1 = .blocked := by
  refine ⟨_, interrupt_wakes <|
    .guard (s := initial false (fun _ => 0) fun _ => 1)
      (.join (by simp [State.Allows, State.Strands, initial])
        (.schedule (f := ()) rfl rfl)) trivial <|
    .guard (.join (a := .callJoin) trivial (.callJoin rfl)) trivial <|
    .guard (.join (a := .dispatch) trivial
      (.dispatch (f := ()) (w := 0) rfl rfl (.schedule rfl))) trivial <|
    .guard (.join (a := .dispatch) trivial (.dispatched rfl rfl)) trivial <|
    .guard (.join (a := .start) trivial (.start (i := 0) (by decide) rfl)) trivial <|
    .guard (.join (a := .count 1) trivial (.count (w := 1) rfl rfl)) trivial <|
    .guard (.join (a := .poll 1) trivial
      (.pollEmpty (w := 1) (m := 1) rfl (by decide) (.pollEmpty rfl rfl))) trivial <|
    .guard (.setFlag (a := .thread ()) ⟨rfl, rfl, rfl⟩ .interrupt)
      (fun hn => absurd hn (by decide)) <|
    .guard (.findWaiters (a := .thread ()) rfl) trivial <|
    .guard (.interrupt (a := .thread ()) (w := 0) (r := [1]) false rfl) trivial <|
    .guard (.signal (a := .thread ()) (w := 0) (r := [1]) rfl (.signal (w := 0))) trivial <|
    .guard (.interrupt (a := .thread ()) (w := 1) (r := []) false rfl) trivial <|
    .guard (.signal (a := .thread ()) (w := 1) (r := []) rfl (.signal (w := 1))) trivial <|
    .guard (.leave (a := .thread ()) rfl) trivial <|
    .guard (.join (a := .setHung 1) trivial (.setHung (w := 1) rfl)) trivial <|
    .guard (.join (a := .block 1) trivial (.block (w := 1) rfl)) trivial .refl, rfl, rfl⟩

/-- One worker: its fiber sleeps and it is blocked when another thread interrupts. -/
theorem interrupt_unnoticed : ∃ s : State 0 Unit Unit Unit,
    Reachable Step (initial false (fun _ => 0) fun _ => 1) s ∧ s.join.stage 0 = .blocked ∧
      ¬ Wakes s := by
  refine ⟨_, ⟨_,
    .step (.join (by simp [State.Allows, State.Strands, initial])
      (.schedule (f := ()) rfl rfl)) <|
    .step (.join (a := .callJoin) trivial (.callJoin rfl)) <|
    .step (.join (a := .dispatch) trivial (.dispatch (f := ()) (w := 0) rfl rfl (.schedule rfl))) <|
    .step (.join (a := .dispatch) trivial (.dispatched rfl rfl)) <|
    .step (.join (a := .start) trivial (.started rfl)) <|
    .step (.join (a := .count 0) trivial (.count (w := 0) rfl rfl)) <|
    .step (.join (a := .poll 0) trivial (.poll (w := 0) rfl (.poll (f := ()) rfl rfl))) <|
    .step (.join (a := .sched (.dispatch 0)) rfl
      (.sched id trivial (.dispatch (f := ()) rfl rfl))) <|
    .step (.join (a := .sched (.sleep ())) rfl (.sched id rfl (.sleep (w := 0) ⟨rfl, rfl⟩ rfl))) <|
    .step (.join (a := .sched (.switch 0)) rfl (.sched id trivial
      (.switchOther (f := ()) rfl (by decide) (by decide)))) <|
    .step (.join (a := .count 0) trivial (.count (w := 0) rfl rfl)) <|
    .step (.join (a := .poll 0) trivial
      (.pollEmpty (w := 0) (m := 1) rfl (by decide) (.pollEmpty rfl rfl))) <|
    .step (.join (a := .setHung 0) trivial (.setHung (w := 0) rfl)) <|
    .step (.join (a := .block 0) trivial (.block (w := 0) rfl)) <|
    .step (.setFlag (a := .thread ()) ⟨rfl, rfl, rfl⟩ .interrupt) <|
    .step (.findWaiters (a := .thread ()) rfl) <|
    .step (.leave (a := .thread ()) rfl) .refl⟩, rfl, fun h => ?_⟩
  exact absurd (h rfl 0 rfl) (by simp [initial, Join.initial])

end CxxFiber.Interrupt
