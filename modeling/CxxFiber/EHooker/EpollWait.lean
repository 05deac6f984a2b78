import CxxFiber.EHooker.Errors
import Mathlib.Order.Basic
import Mathlib.Data.Nat.Find

/-! The `epoll_wait` hook beside the plain call, over the passes of the worker's io waiter. -/
namespace CxxFiber.EHooker.EpollWait

open CommIo (Errno Result)
open Errors (EINVAL)

/-- A call of `epoll_wait` and what happens from then on, pass by pass. `ready`: how many members
have events. `clock`: milliseconds since the call. `lag`: so many passes later the fiber, resumed in
this one, runs. `registers`: `setFileEvent` succeeds. `error`: what the kernel finds wrong with the
descriptor or with `maxevents`. -/
structure History where
  error : Option Errno
  maxevents : ℕ
  registers : Bool
  ready : ℕ → ℕ
  clock : ℕ → ℕ
  lag : ℕ → ℕ
  maxevents_pos : error = none → 0 < maxevents
  clock_mono : Monotone clock
  clock_passes : ∀ ms, ∃ n, ms ≤ clock n

/-- What a caller tells answers apart by. -/
inductive Answer
  | events
  | nothing
  | failed (errno : Errno)
  deriving DecidableEq, Repr

def answer : Result → Answer
  | .value 0 => .nothing
  | .value (_ + 1) => .events
  | .error e => .failed e

/-- The first pass with `p`. -/
def EndsAt (p : ℕ → Prop) (n : ℕ) : Prop := p n ∧ ∀ m < n, ¬ p m

namespace History

/-- The kernel's function with timeout 0, at a pass. -/
def epoll_wait_f (h : History) (n : ℕ) : Result :=
  match h.error with
  | some e => .error e
  | none => .value (min h.maxevents (h.ready n))

/-- The plain call ends with an error at once, with events, or when a positive timeout is over. -/
def Ended (h : History) (timeout : ℤ) (n : ℕ) : Prop :=
  h.error ≠ none ∨ 0 < h.ready n ∨ 0 < timeout ∧ timeout ≤ h.clock n

/-- The plain call ends at a pass with a result. -/
def Plain (h : History) (timeout : ℤ) (n : ℕ) (r : Result) : Prop :=
  EndsAt (h.Ended timeout) n ∧ h.epoll_wait_f n = r

/-- What the hook hands to `setupTimer`. -/
def milliseconds (timeout : ℤ) : ℕ := if 0 < timeout then timeout.toNat else 2 ^ 31 - 1

/-- What a pass does to the fiber: file events come before time events. -/
def pass (h : History) (timeout : ℤ) (n : ℕ) (x : Fiber) : Fiber :=
  let x := if h.registers ∧ 0 < h.ready n then x.resume else x
  if x.armed ∧ milliseconds timeout ≤ h.clock n then x.timeEventProc else x

def park (timeout : ℤ) : Park := .hook (.epollWait 0 timeout)

/-- The fiber after so many passes. -/
def fiber (h : History) (timeout : ℤ) : ℕ → Fiber
  | 0 => (⟨false, false, false, .user, 0⟩ : Fiber).park (park timeout)
  | n + 1 => h.pass timeout n (h.fiber timeout n)

/-- The fiber has been resumed by the end of a pass. -/
def Resumed (h : History) (timeout : ℤ) (n : ℕ) : Prop :=
  (h.fiber timeout (n + 1)).phase = .parked (park timeout) true

/-- The hook from `isWaitTimeout` on, when the fiber runs after a pass. -/
def resume (h : History) (timeout : ℤ) (n : ℕ) : Result :=
  if (h.fiber timeout (n + 1)).isIoWaitTimeout then .error EINVAL else h.epoll_wait_f n

/-- The hook, with a timeout that is not 0: resumed in a pass, it has its result when it runs. -/
def Hooked (h : History) (timeout : ℤ) (n : ℕ) (r : Result) : Prop :=
  EndsAt (h.Resumed timeout) n ∧ h.resume timeout (n + h.lag n) = r

/-- The hook ends when the plain call does, with the same answer. -/
def Agrees (h : History) (timeout : ℤ) : Prop :=
  ∀ n a, (∃ r, h.Hooked timeout n r ∧ answer r = a) ↔ ∃ r, h.Plain timeout n r ∧ answer r = a

/-- A member gets ready, and when the fiber runs its timer has not expired and some member is still
ready; an error shows at the first pass, and is `EINVAL` if the timer has expired by then. -/
def Noticed (h : History) (timeout : ℤ) : Prop :=
  match h.error with
  | none => h.registers = true ∧ ∃ n, (∀ m < n, h.ready m = 0) ∧ 0 < h.ready n ∧
      h.clock (n + h.lag n) < milliseconds timeout ∧ 0 < h.ready (n + h.lag n)
  | some e => (h.registers = true ∧ 0 < h.ready 0 ∨ milliseconds timeout ≤ h.clock 0) ∧
      (milliseconds timeout ≤ h.clock (h.lag 0) → e = EINVAL)

end History

open History

variable {h : History} {timeout : ℤ} {n m : ℕ} {p : ℕ → Prop} {e : Errno}

theorem endsAt_unique (hn : EndsAt p n) (hm : EndsAt p m) : n = m := by
  rcases Nat.lt_trichotomy n m with hlt | heq | hlt
  · exact absurd hn.1 (hm.2 n hlt)
  · exact heq
  · exact absurd hm.1 (hn.2 m hlt)

theorem endsAt_zero (hp : p 0) : EndsAt p 0 := ⟨hp, fun m hm => absurd hm (Nat.not_lt_zero m)⟩

/-- What has woken the fiber: the registration or the timer. -/
def Woken (h : History) (timeout : ℤ) (n : ℕ) : Prop :=
  h.registers = true ∧ 0 < h.ready n ∨ milliseconds timeout ≤ h.clock n

/-- The flag and the timer say whether the timeout is over, the phase whether the fiber has been
woken. -/
structure Tracks (timeout : ℤ) (ended woken : Prop) (x : Fiber) : Prop where
  flag : x.isIoWaitTimeout = true ↔ ended
  armed : x.armed = true ↔ ¬ ended
  phase : ∃ r, x.phase = .parked (park timeout) r ∧ (r = true ↔ woken)

theorem Tracks.resume {ended woken : Prop} {x : Fiber} (ht : Tracks timeout ended woken x) :
    Tracks timeout ended True x.resume := by
  obtain ⟨hflag, harmed, r, hr, _⟩ := ht
  refine ⟨?_, ?_, true, ?_, by simp⟩ <;> simp only [Fiber.resume, hr]
  · exact hflag
  · exact harmed

theorem Tracks.timeEventProc {ended woken : Prop} {x : Fiber} (ht : Tracks timeout ended woken x) :
    Tracks timeout True True x.timeEventProc := by
  obtain ⟨_, _, r, hr, _⟩ := ht
  refine ⟨?_, ?_, true, ?_, by simp⟩ <;> simp [Fiber.timeEventProc, Fiber.resume, hr]

theorem Tracks.congr {ended woken ended' woken' : Prop} {x : Fiber}
    (ht : Tracks timeout ended woken x) (ho : ended ↔ ended') (hw : woken ↔ woken') :
    Tracks timeout ended' woken' x :=
  ⟨ht.flag.trans ho, ht.armed.trans (not_congr ho),
    ht.phase.imp fun _ hr => ⟨hr.1, hr.2.trans hw⟩⟩

theorem tracks_pass {ended woken : Prop} {x : Fiber} (ht : Tracks timeout ended woken x)
    (hmono : ended → milliseconds timeout ≤ h.clock n) (hwoken : ended → woken) :
    Tracks timeout (milliseconds timeout ≤ h.clock n) (woken ∨ Woken h timeout n)
      (h.pass timeout n x) := by
  have hfile : ∀ P : Prop, [Decidable P] →
      Tracks timeout ended (woken ∨ P) (if P then x.resume else x) := by
    intro P _
    split
    · next hP => exact ht.resume.congr Iff.rfl (by simp [hP])
    · next hP => exact ht.congr Iff.rfl (by simp [hP])
  have h1 := hfile (h.registers = true ∧ 0 < h.ready n)
  unfold History.pass
  dsimp only
  generalize (if h.registers = true ∧ 0 < h.ready n then x.resume else x) = y at h1 ⊢
  split
  · next htime => exact h1.timeEventProc.congr (by simp [htime.2]) (by simp [Woken, htime.2])
  · next htime =>
    refine h1.congr ⟨hmono, fun hle => ?_⟩ ⟨fun hw => ?_, fun hw => ?_⟩
    · -- not armed any more: the timer has expired before
      by_contra hover
      exact htime ⟨h1.armed.mpr hover, hle⟩
    · exact hw.imp_right Or.inl
    · rcases hw with hw | hw | hle
      · exact .inl hw
      · exact .inr hw
      · refine .inl (hwoken ?_)
        by_contra hover
        exact htime ⟨h1.armed.mpr hover, hle⟩

theorem tracks_fiber (h : History) (timeout : ℤ) (n : ℕ) :
    Tracks timeout (milliseconds timeout ≤ h.clock n) (∃ m ≤ n, Woken h timeout m)
      (h.fiber timeout (n + 1)) := by
  induction n with
  | zero =>
    have h0 : Tracks timeout False False (h.fiber timeout 0) :=
      ⟨by simp [History.fiber, Fiber.park, History.park, Park.timer, HookCall.timer],
        by simp [History.fiber, Fiber.park, History.park, Park.timer, HookCall.timer],
        false, rfl, by simp⟩
    exact (tracks_pass h0 False.elim False.elim).congr Iff.rfl (by simp)
  | succ n ih =>
    have hmono : milliseconds timeout ≤ h.clock n → milliseconds timeout ≤ h.clock (n + 1) :=
      fun hle => hle.trans (h.clock_mono n.le_succ)
    refine (tracks_pass ih hmono fun hle => ⟨n, le_rfl, .inr hle⟩).congr Iff.rfl ⟨?_, ?_⟩
    · rintro (⟨m, hm, hw⟩ | hw)
      · exact ⟨m, Nat.le_succ_of_le hm, hw⟩
      · exact ⟨n + 1, le_rfl, hw⟩
    · rintro ⟨m, hm, hw⟩
      rcases Nat.le_succ_iff.mp hm with hle | rfl
      · exact .inl ⟨m, hle, hw⟩
      · exact .inr hw

theorem resumed_iff : h.Resumed timeout n ↔ ∃ m ≤ n, Woken h timeout m := by
  obtain ⟨r, hr, hiff⟩ := (tracks_fiber h timeout n).phase
  rw [History.Resumed, hr, ← hiff]
  simp

/-- The hook ends at the first pass that wakes the fiber. -/
theorem endsAt_resumed : EndsAt (h.Resumed timeout) n ↔ EndsAt (Woken h timeout) n := by
  constructor
  · rintro ⟨hn, hbefore⟩
    obtain ⟨m, hm, hw⟩ := resumed_iff.mp hn
    have hbefore' : ∀ k < n, ¬ Woken h timeout k := fun k hk hwk =>
      hbefore k hk (resumed_iff.mpr ⟨k, le_rfl, hwk⟩)
    rcases Nat.lt_or_eq_of_le hm with hlt | rfl
    · exact absurd hw (hbefore' m hlt)
    · exact ⟨hw, hbefore'⟩
  · rintro ⟨hn, hbefore⟩
    refine ⟨resumed_iff.mpr ⟨n, le_rfl, hn⟩, fun m hm hres => ?_⟩
    obtain ⟨k, hk, hwk⟩ := resumed_iff.mp hres
    exact hbefore k (Nat.lt_of_le_of_lt hk hm) hwk

theorem resume_eq : h.resume timeout n =
    if milliseconds timeout ≤ h.clock n then .error EINVAL else h.epoll_wait_f n := by
  have hflag := (tracks_fiber h timeout n).flag
  unfold History.resume
  by_cases hle : milliseconds timeout ≤ h.clock n
  · rw [if_pos hle, if_pos (hflag.mpr hle)]
  · rw [if_neg hle, if_neg fun hf => hle (hflag.mp hf)]

/-- The hook always ends, by its timer at the latest. -/
theorem hooked_ends (h : History) (timeout : ℤ) : ∃ n r, h.Hooked timeout n r := by
  classical
  have hex : ∃ n, Woken h timeout n :=
    (h.clock_passes (milliseconds timeout)).imp fun n hn => .inr hn
  refine ⟨Nat.find hex, _, endsAt_resumed.mpr ⟨Nat.find_spec hex, fun m hm => ?_⟩, rfl⟩
  exact Nat.find_min hex hm

theorem answer_events {k : ℕ} : answer (.value k) = .events ↔ 0 < k := by
  cases k <;> simp [answer]

theorem answer_ready (he : h.error = none) :
    answer (h.epoll_wait_f n) = .events ↔ 0 < h.ready n := by
  have hpos := h.maxevents_pos he
  rw [epoll_wait_f, he, answer_events]
  omega

theorem answer_ne_failed (he : h.error = none) : answer (h.epoll_wait_f n) ≠ .failed e := by
  rw [epoll_wait_f, he]
  cases min h.maxevents (h.ready n) <;> exact fun heq => nomatch heq

/-- Before its timer is over a positive timeout is not. -/
theorem not_ended (he : h.error = none) (h0 : h.ready n = 0)
    (hlt : h.clock n < milliseconds timeout) : ¬ h.Ended timeout n := by
  rintro (hne | hready | ⟨hpos, hover⟩)
  · exact hne he
  · omega
  · rw [milliseconds, if_pos hpos] at hlt
    omega

theorem agrees_of_noticed (hn : h.Noticed timeout) : h.Agrees timeout := by
  cases he : h.error with
  | none =>
    simp only [Noticed, he] at hn
    obtain ⟨hreg, n, hbefore, hready, hclock, hstill⟩ := hn
    have hlt : ∀ m ≤ n, h.clock m < milliseconds timeout := fun m hm =>
      Nat.lt_of_le_of_lt (h.clock_mono (hm.trans (Nat.le_add_right n _))) hclock
    have hwoken : EndsAt (Woken h timeout) n := by
      refine ⟨.inl ⟨hreg, hready⟩, fun m hm hw => ?_⟩
      have h0 := hbefore m hm
      have hm' := hlt m (Nat.le_of_lt hm)
      rcases hw with ⟨_, hr⟩ | hle <;> omega
    have hended : EndsAt (h.Ended timeout) n :=
      ⟨.inr (.inl hready), fun m hm =>
        not_ended he (hbefore m hm) (hlt m (Nat.le_of_lt hm))⟩
    have hhook : answer (h.resume timeout (n + h.lag n)) = .events := by
      rw [resume_eq, if_neg (Nat.not_le_of_lt hclock)]
      exact (answer_ready he).mpr hstill
    have hplain : answer (h.epoll_wait_f n) = .events := (answer_ready he).mpr hready
    intro k a
    constructor
    · rintro ⟨r, ⟨hends, rfl⟩, rfl⟩
      obtain rfl := endsAt_unique (endsAt_resumed.mp hends) hwoken
      exact ⟨_, ⟨hended, rfl⟩, hplain.trans hhook.symm⟩
    · rintro ⟨r, ⟨hends, rfl⟩, rfl⟩
      obtain rfl := endsAt_unique hends hended
      exact ⟨_, ⟨endsAt_resumed.mpr hwoken, rfl⟩, hhook.trans hplain.symm⟩
  | some e =>
    simp only [Noticed, he] at hn
    obtain ⟨hwoken, hcode⟩ := hn
    have hended : h.Ended timeout 0 := .inl (by simp [he])
    have hhook : h.resume timeout (0 + h.lag 0) = .error e := by
      rw [resume_eq, Nat.zero_add]
      split
      · next hle => rw [hcode hle]
      · rw [epoll_wait_f, he]
    have hplain : h.epoll_wait_f 0 = .error e := by rw [epoll_wait_f, he]
    intro k a
    constructor
    · rintro ⟨r, ⟨hends, rfl⟩, rfl⟩
      obtain rfl := endsAt_unique (endsAt_resumed.mp hends) (endsAt_zero hwoken)
      exact ⟨_, ⟨endsAt_zero hended, rfl⟩, by rw [hplain, hhook]⟩
    · rintro ⟨r, ⟨hends, rfl⟩, rfl⟩
      obtain rfl := endsAt_unique hends (endsAt_zero hended)
      exact ⟨_, ⟨endsAt_resumed.mpr (endsAt_zero hwoken), rfl⟩, by rw [hplain, hhook]⟩

theorem noticed_of_agrees (ha : h.Agrees timeout) : h.Noticed timeout := by
  obtain ⟨n, r, hhooked⟩ := hooked_ends h timeout
  obtain ⟨r', ⟨hended, hr'⟩, hsame⟩ := (ha n (answer r)).mp ⟨r, hhooked, rfl⟩
  obtain ⟨hends, hr⟩ := hhooked
  have hwoken := endsAt_resumed.mp hends
  rw [resume_eq] at hr
  cases he : h.error with
  | none =>
    simp only [Noticed, he]
    by_cases hle : milliseconds timeout ≤ h.clock (n + h.lag n)
    · -- the kernel has no error to return
      rw [if_pos hle] at hr
      rw [← hr, ← hr'] at hsame
      exact absurd hsame (answer_ne_failed he)
    rw [if_neg hle] at hr
    have hclock := Nat.lt_of_not_le hle
    have hnow : h.clock n < milliseconds timeout :=
      Nat.lt_of_le_of_lt (h.clock_mono (Nat.le_add_right n _)) hclock
    obtain ⟨hreg, hready⟩ := hwoken.1.resolve_right (Nat.not_le_of_lt hnow)
    have hplain : answer r' = .events := by
      rw [← hr']
      exact (answer_ready he).mpr hready
    refine ⟨hreg, n, fun m hm => ?_, hready, hclock, ?_⟩
    · by_contra hne
      exact hwoken.2 m hm (.inl ⟨hreg, Nat.pos_of_ne_zero hne⟩)
    · rw [hsame, ← hr] at hplain
      exact (answer_ready he).mp hplain
  | some e =>
    simp only [Noticed, he]
    have hzero : n = 0 := endsAt_unique hended (endsAt_zero (.inl (by simp [he])))
    subst hzero
    refine ⟨hwoken.1, fun hle => ?_⟩
    rw [Nat.zero_add, if_pos hle] at hr
    rw [← hr, ← hr', epoll_wait_f, he] at hsame
    exact Answer.failed.inj hsame

/-- The hook answers like the plain call exactly when a member gets ready, and stays so until the
fiber runs, before the timer has expired, or the kernel's error shows at once. -/
theorem agrees_iff (h : History) (timeout : ℤ) : h.Agrees timeout ↔ h.Noticed timeout :=
  ⟨noticed_of_agrees, agrees_of_noticed⟩

/-- Half a second without any event: the plain call returns 0, the hook -1 with `EINVAL`. -/
theorem timeout_einval : ∃ h : History, h.error = none ∧ (∀ n, h.ready n = 0) ∧
    h.Plain 500 1 (.value 0) ∧ h.Hooked 500 1 (.error EINVAL) ∧ ¬ h.Agrees 500 := by
  let h : History := ⟨none, 16, true, fun _ => 0, fun n => 1000 * n, fun _ => 0, fun _ => by decide,
    fun _ _ hle => Nat.mul_le_mul_left 1000 hle, fun ms => ⟨ms, by omega⟩⟩
  have hwoken : EndsAt (Woken h 500) 1 := by
    refine ⟨.inr (by decide), fun m hm => ?_⟩
    obtain rfl : m = 0 := by omega
    rintro (⟨_, hready⟩ | hle)
    · exact absurd hready (by decide)
    · exact absurd hle (by decide)
  have hended : EndsAt (h.Ended 500) 1 := by
    refine ⟨.inr (.inr (by decide)), fun m hm => ?_⟩
    obtain rfl : m = 0 := by omega
    exact not_ended rfl rfl (by decide)
  have hhooked : h.Hooked 500 1 (.error EINVAL) := ⟨endsAt_resumed.mpr hwoken, resume_eq⟩
  refine ⟨h, rfl, fun _ => rfl, ⟨hended, rfl⟩, hhooked, fun ha => ?_⟩
  obtain ⟨r, ⟨_, rfl⟩, hsame⟩ := (ha 1 _).mp ⟨_, hhooked, rfl⟩
  cases hsame

end CxxFiber.EHooker.EpollWait
