import Mathlib.Data.Int.Init
import Mathlib.Data.List.Basic
import Mathlib.Data.Nat.Init
import Mathlib.Order.Nat

/-! Timer fibers: `TimberFiber::run` step by step, with a cancellation between any two steps. -/
namespace CxxFiber.EFiberTimer

/-- `addtimer` makes a fiber for a positive delay only. -/
structure TimberFiber where
  delay : ℤ
  period : ℤ
  delay_pos : 0 < delay

def addtimer (delay period : ℤ) : Option TimberFiber :=
  if h : 0 < delay then some ⟨delay, period, h⟩ else none

/-- The overloads with an `EDate`. -/
def addtimerAt (currentTimeMillis firstTime period : ℤ) : Option TimberFiber :=
  addtimer (firstTime - currentTimeMillis) period

/-- The next step of `run`. -/
inductive Pc
  | sleepDelay | testCanceled | sleepPeriod | runTimer | terminated
  deriving DecidableEq, Repr

/-- The fiber, the clock since it began, and the times at which the timer's `run` was invoked. -/
structure State where
  pc : Pc
  canceled : Bool
  clock : ℤ
  runs : List ℤ
  deriving DecidableEq, Repr

/-- `EFiberTimer::cancel`: nothing outside of a scheduler or when the fiber is gone. -/
def State.cancel (currentScheduler : Bool) (s : State) : State :=
  if currentScheduler ∧ s.pc ≠ .terminated then { s with canceled := true } else s

/-- A sleep takes its time, the other steps take none. -/
def TimberFiber.step (t : TimberFiber) (s : State) : State :=
  match s.pc with
  | .sleepDelay => { s with pc := .testCanceled, clock := s.clock + t.delay }
  | .testCanceled =>
    if s.canceled then { s with pc := .terminated }
    else { s with pc := if 0 < t.period then .sleepPeriod else .runTimer }
  | .sleepPeriod => { s with pc := .runTimer, clock := s.clock + t.period }
  | .runTimer =>
    { s with pc := if 0 < t.period then .testCanceled else .terminated,
             runs := s.runs ++ [s.clock] }
  | .terminated => s

/-- When `cancel` returns in some fiber: after so many steps of the timer's fiber, and at which
time. -/
structure Moment where
  steps : ℕ
  time : ℤ
  deriving DecidableEq, Repr

/-- The cancellation, if it comes after `n` steps. -/
def canceling (c : Option Moment) (n : ℕ) (s : State) : State :=
  match c with
  | none => s
  | some m => if m.steps = n then s.cancel true else s

def start : State := ⟨.sleepDelay, false, 0, []⟩

/-- The state after `n` steps, just before a cancellation there. -/
def TimberFiber.after (t : TimberFiber) (c : Option Moment) : ℕ → State
  | 0 => start
  | n + 1 => t.step (canceling c n (t.after c n))

/-- The time of the cancellation lies in the step that it comes before. -/
def Possible (t : TimberFiber) (c : Option Moment) : Prop :=
  ∀ m ∈ c, (t.after c m.steps).clock ≤ m.time ∧
    ((t.after c m.steps).pc ≠ .terminated → m.time ≤ (t.after c (m.steps + 1)).clock)

/-- When the `k`th run is due. -/
def TimberFiber.due (t : TimberFiber) (k : ℕ) : ℤ := t.delay + k * t.period

/-- Runs that are due at all: one for a one-shot timer. -/
def TimberFiber.Scheduled (t : TimberFiber) (k : ℕ) : Prop := 0 < t.period ∨ k = 0

/-- The runs come when they are due, none that is due before the cancellation is missing and none
comes after it. -/
structure OnTime (t : TimberFiber) (c : Option Moment) : Prop where
  inTurn : ∀ n k x, (t.after c n).runs[k]? = some x → t.Scheduled k ∧ x = t.due k
  complete : ∀ k, t.Scheduled k → (∀ m ∈ c, t.due k < m.time) → ∃ n, t.due k ∈ (t.after c n).runs
  quiet : ∀ m ∈ c, ∀ n ≥ m.steps, (t.after c n).runs = (t.after c m.steps).runs

/-- `cancel` returns before the flag is first tested or, for a one-shot timer, does not return
between the test and the run. -/
def Respected (period : ℤ) : Option Moment → Prop
  | none => period ≤ 0
  | some m => m.steps ≤ 1 ∨ period ≤ 0 ∧ m.steps ≠ 2

variable {t : TimberFiber} {c : Option Moment} {s : State} {n k : ℕ}

@[simp] theorem cancel_pc : (s.cancel true).pc = s.pc := by
  unfold State.cancel
  split <;> rfl

@[simp] theorem cancel_clock : (s.cancel true).clock = s.clock := by
  unfold State.cancel
  split <;> rfl

@[simp] theorem cancel_runs : (s.cancel true).runs = s.runs := by
  unfold State.cancel
  split <;> rfl

theorem cancel_canceled (h : s.pc ≠ .terminated) : (s.cancel true).canceled = true := by
  simp [State.cancel, h]

/-- A cancellation touches the flag only. -/
@[simp] theorem canceling_pc : (canceling c n s).pc = s.pc := by
  unfold canceling
  cases c with
  | none => rfl
  | some m => dsimp only; split <;> simp

@[simp] theorem canceling_clock : (canceling c n s).clock = s.clock := by
  unfold canceling
  cases c with
  | none => rfl
  | some m => dsimp only; split <;> simp

@[simp] theorem canceling_runs : (canceling c n s).runs = s.runs := by
  unfold canceling
  cases c with
  | none => rfl
  | some m => dsimp only; split <;> simp

theorem canceling_of_lt (h : ∀ m ∈ c, n < m.steps) : canceling c n s = s := by
  cases c with
  | none => rfl
  | some m =>
    have hne : m.steps ≠ n := Nat.ne_of_gt (h m rfl)
    simp [canceling, hne]

theorem step_terminated (h : s.pc = .terminated) : t.step s = s := by simp [TimberFiber.step, h]

/-- Nothing runs once the fiber is gone. -/
theorem after_terminated (h : (t.after c n).pc = .terminated) (hk : n ≤ k) :
    (t.after c k).pc = .terminated ∧ (t.after c k).runs = (t.after c n).runs := by
  induction k, hk using Nat.le_induction with
  | base => exact ⟨h, rfl⟩
  | succ k _ ih =>
    have hs : (canceling c k (t.after c k)).pc = .terminated := by rw [canceling_pc]; exact ih.1
    rw [TimberFiber.after, step_terminated hs, canceling_pc, canceling_runs]
    exact ih

@[simp] theorem after_one_pc : (t.after c 1).pc = .testCanceled := by
  simp [TimberFiber.after, TimberFiber.step, start]

@[simp] theorem after_one_clock : (t.after c 1).clock = t.delay := by
  simp [TimberFiber.after, TimberFiber.step, start]

@[simp] theorem after_one_runs : (t.after c 1).runs = [] := by
  simp [TimberFiber.after, TimberFiber.step, start]

theorem after_one_canceled (h : ∀ m ∈ c, 1 ≤ m.steps) : (t.after c 1).canceled = false := by
  have h0 : canceling c 0 start = start := canceling_of_lt h
  rw [TimberFiber.after, TimberFiber.after, h0]
  rfl

/-- The flag plays no part in a sleep or a run. -/
theorem after_sleepPeriod (h : (t.after c n).pc = .sleepPeriod) :
    (t.after c (n + 1)).pc = .runTimer ∧
      (t.after c (n + 1)).clock = (t.after c n).clock + t.period ∧
      (t.after c (n + 1)).runs = (t.after c n).runs := by
  rw [TimberFiber.after]
  simp [TimberFiber.step, h]

theorem after_runTimer (h : (t.after c n).pc = .runTimer) :
    (t.after c (n + 1)).pc = (if 0 < t.period then .testCanceled else .terminated) ∧
      (t.after c (n + 1)).clock = (t.after c n).clock ∧
      (t.after c (n + 1)).runs = (t.after c n).runs ++ [(t.after c n).clock] := by
  rw [TimberFiber.after]
  simp [TimberFiber.step, h]

theorem after_canceled (h : (t.after c n).pc = .testCanceled)
    (hc : (canceling c n (t.after c n)).canceled = true) :
    (t.after c (n + 1)).pc = .terminated ∧
      (t.after c (n + 1)).clock = (t.after c n).clock ∧
      (t.after c (n + 1)).runs = (t.after c n).runs := by
  rw [TimberFiber.after]
  simp [TimberFiber.step, h, hc]

theorem after_notCanceled (h : (t.after c n).pc = .testCanceled)
    (hc : (canceling c n (t.after c n)).canceled = false) :
    (t.after c (n + 1)).pc = (if 0 < t.period then .sleepPeriod else .runTimer) ∧
      (t.after c (n + 1)).clock = (t.after c n).clock ∧
      (t.after c (n + 1)).runs = (t.after c n).runs := by
  rw [TimberFiber.after]
  simp [TimberFiber.step, h, hc]

/-- The flag is still down at its first test. -/
theorem after_two (h : ∀ m ∈ c, 2 ≤ m.steps) :
    (t.after c 2).pc = (if 0 < t.period then .sleepPeriod else .runTimer) ∧
      (t.after c 2).clock = t.delay ∧ (t.after c 2).runs = [] := by
  have hc : (canceling c 1 (t.after c 1)).canceled = false := by
    rw [canceling_of_lt h]
    exact after_one_canceled fun m hm => Nat.le_of_lt (h m hm)
  simpa using after_notCanceled after_one_pc hc

/-- The first period is slept through before anything runs. -/
theorem first_run_late (hp : 0 < t.period) (h : ∀ m ∈ c, 2 ≤ m.steps) :
    (t.after c 4).runs = [t.delay + t.period] := by
  obtain ⟨hpc₂, hclock₂, hruns₂⟩ := after_two (t := t) h
  rw [if_pos hp] at hpc₂
  obtain ⟨hpc₃, hclock₃, hruns₃⟩ := after_sleepPeriod hpc₂
  obtain ⟨_, _, hruns₄⟩ := after_runTimer hpc₃
  rw [hruns₄, hruns₃, hruns₂, hclock₃, hclock₂]
  rfl

/-- Without a cancellation every run of a periodic timer is one period late. -/
theorem runs_late (hp : 0 < t.period) (k : ℕ) :
    (t.after none (3 * k + 1)).pc = .testCanceled ∧ (t.after none (3 * k + 1)).canceled = false ∧
      (t.after none (3 * k + 1)).clock = t.due k ∧
      (t.after none (3 * k + 1)).runs = (List.range k).map fun j => t.due (j + 1) := by
  induction k with
  | zero => simp [TimberFiber.after, TimberFiber.step, start, canceling, TimberFiber.due]
  | succ k ih =>
    obtain ⟨hpc, hflag, hclock, hruns⟩ := ih
    have hloop : t.after none (3 * (k + 1) + 1) =
        t.step (t.step (t.step (t.after none (3 * k + 1)))) := rfl
    have hdue : t.due k + t.period = t.due (k + 1) := by
      have hmul : ((k + 1 : ℕ) : ℤ) * t.period = k * t.period + t.period := by
        rw [Int.natCast_succ, Int.add_mul, Int.one_mul]
      simp only [TimberFiber.due, hmul]
      omega
    rw [hloop]
    simp [TimberFiber.step, hpc, hflag, hp, hclock, hruns, hdue, List.range_succ]

/-- After the test a one-shot timer runs, whatever the flag is by then. -/
theorem oneShot_runs (hp : ¬ 0 < t.period) (h : ∀ m ∈ c, 2 ≤ m.steps) :
    (t.after c 2).runs = [] ∧ (t.after c 3).pc = .terminated ∧
      (t.after c 3).runs = [t.delay] := by
  obtain ⟨hpc₂, hclock₂, hruns₂⟩ := after_two (t := t) h
  rw [if_neg hp] at hpc₂
  obtain ⟨hpc₃, _, hruns₃⟩ := after_runTimer hpc₂
  rw [if_neg hp] at hpc₃
  refine ⟨hruns₂, hpc₃, ?_⟩
  rw [hruns₃, hruns₂, hclock₂]
  rfl

theorem canceled_at_test {m : Moment} (h : m.steps ≤ 1) :
    (canceling (some m) 1 (t.after (some m) 1)).canceled = true := by
  obtain h1 | h0 : m.steps = 1 ∨ m.steps = 0 := by omega
  · have hpc : (t.after (some m) 1).pc ≠ .terminated := by simp
    simpa [canceling, h1] using cancel_canceled hpc
  · simp [canceling, h0, TimberFiber.after, TimberFiber.step, start, State.cancel]

/-- A cancellation before the first test is final. -/
theorem canceled_early {m : Moment} (h : m.steps ≤ 1) (n : ℕ) :
    (t.after (some m) n).runs = [] := by
  obtain ⟨hpc, _, hruns⟩ := after_canceled after_one_pc (canceled_at_test (t := t) h)
  match n with
  | 0 => rfl
  | 1 => exact after_one_runs
  | n + 2 =>
    have hlast := (after_terminated hpc (Nat.le_add_left 2 n)).2
    rw [hlast, hruns]
    exact after_one_runs

theorem delay_le_due (h : t.Scheduled k) : t.delay ≤ t.due k := by
  unfold TimberFiber.due
  rcases h with hp | hk
  · have hnn : 0 ≤ (k : ℤ) * t.period := Int.mul_nonneg (Int.natCast_nonneg k) (Int.le_of_lt hp)
    omega
  · subst hk
    simp

/-- Up to the first test the clock has not passed the delay. -/
theorem early_time {m : Moment} (hm : Possible t (some m)) (h : m.steps ≤ 1) :
    m.time ≤ t.delay := by
  have hlive := (hm m rfl).2
  obtain h1 | h0 : m.steps = 1 ∨ m.steps = 0 := by omega
  · obtain ⟨_, hclock, _⟩ := after_canceled after_one_pc (canceled_at_test (t := t) h)
    rw [after_one_clock] at hclock
    rw [h1, hclock] at hlive
    exact hlive (by simp)
  · rw [h0, after_one_clock] at hlive
    exact hlive (by simp [TimberFiber.after, start])

theorem onTime_oneShot (hp : ¬ 0 < t.period) (h : ∀ m ∈ c, 3 ≤ m.steps) : OnTime t c := by
  obtain ⟨hruns₂, hpc₃, hruns₃⟩ := oneShot_runs (t := t) hp fun m hm => Nat.le_of_lt (h m hm)
  have hlast : ∀ n ≥ 3, (t.after c n).runs = [t.delay] := by
    intro n hn
    rw [(after_terminated hpc₃ hn).2, hruns₃]
  have hdue : t.due 0 = t.delay := by simp [TimberFiber.due]
  refine ⟨fun n k x hx => ?_, fun k hk _ => ?_, fun m hm n hn => ?_⟩
  · match n with
    | 0 => simp [TimberFiber.after, start] at hx
    | 1 => simp at hx
    | 2 => simp [hruns₂] at hx
    | n + 3 =>
      rw [hlast (n + 3) (Nat.le_add_left 3 n)] at hx
      match k with
      | 0 =>
        rw [hdue]
        exact ⟨.inr rfl, by simpa using hx.symm⟩
      | k + 1 => simp at hx
  · have hk0 : k = 0 := hk.resolve_left hp
    subst hk0
    refine ⟨3, ?_⟩
    rw [hruns₃, hdue]
    exact List.mem_singleton_self _
  · rw [hlast n (Nat.le_trans (h m hm) hn), hlast m.steps (h m hm)]

theorem onTime_early {m : Moment} (hm : Possible t (some m)) (h : m.steps ≤ 1) :
    OnTime t (some m) := by
  have hruns := canceled_early (t := t) h
  refine ⟨fun n k x hx => ?_, fun k hk hdue => ?_, fun m' hm' n _ => ?_⟩
  · simp [hruns n] at hx
  · have hlt := hdue m rfl
    have hle := delay_le_due hk
    have hearly := early_time hm h
    omega
  · rw [hruns, hruns]

theorem onTime_iff (hc : Possible t c) : OnTime t c ↔ Respected t.period c := by
  constructor
  · intro h
    have hlate : (∀ m ∈ c, 2 ≤ m.steps) → ¬ 0 < t.period := by
      intro hm hp
      have hrun := h.inTurn 4 0 (t.delay + t.period) (by rw [first_run_late hp hm]; rfl)
      have hdue : t.due 0 = t.delay := by simp [TimberFiber.due]
      omega
    cases c with
    | none => exact Int.not_lt.mp (hlate (by simp))
    | some m =>
      by_cases hsteps : m.steps ≤ 1
      · exact .inl hsteps
      have hm : ∀ m' ∈ some m, 2 ≤ m'.steps := by
        intro m' hm'
        cases hm'
        omega
      refine .inr ⟨Int.not_lt.mp (hlate hm), fun htwo => ?_⟩
      obtain ⟨hruns₂, _, hruns₃⟩ := oneShot_runs (hlate hm) hm
      have hquiet := h.quiet m rfl 3 (by omega)
      rw [htwo, hruns₂, hruns₃] at hquiet
      cases hquiet
  · intro h
    cases c with
    | none => exact onTime_oneShot (Int.not_lt.mpr h) (by simp)
    | some m =>
      rcases h with h | ⟨hp, hne⟩
      · exact onTime_early hc h
      by_cases hsteps : m.steps ≤ 1
      · exact onTime_early hc hsteps
      · refine onTime_oneShot (Int.not_lt.mpr hp) fun m' hm' => ?_
        cases hm'
        omega

theorem addtimerAt_due {currentTimeMillis firstTime period : ℤ}
    (h : addtimerAt currentTimeMillis firstTime period = some t) :
    currentTimeMillis + t.due 0 = firstTime := by
  simp only [addtimerAt, addtimer] at h
  split at h
  · cases h
    have hdue : firstTime - currentTimeMillis + (0 : ℕ) * period =
        firstTime - currentTimeMillis := by simp
    simp only [TimberFiber.due, hdue]
    omega
  · cases h

/-- Timers run when they should exactly for one-shot timers that are not cancelled between the test
of the flag and the run, and for timers that are cancelled before the first test. -/
theorem addtimer_onTime_iff (delay period : ℤ) (hd : 0 < delay) :
    ∃ t, addtimer delay period = some t ∧ t.delay = delay ∧ t.period = period ∧
      ∀ c, Possible t c → (OnTime t c ↔ Respected period c) := by
  refine ⟨⟨delay, period, hd⟩, ?_, rfl, rfl, fun c hc => onTime_iff hc⟩
  simp [addtimer, hd]

/-- The first timer of a test, with a delay of 3000 and a period of 1000. -/
theorem timer1_onTime_iff : ∃ t, addtimer 3000 1000 = some t ∧ t.delay = 3000 ∧ t.period = 1000 ∧
    ∀ c, Possible t c → (OnTime t c ↔ Respected 1000 c) :=
  addtimer_onTime_iff 3000 1000 (by decide)

/-- Nobody cancels it: due at 3000, it first runs at 4000. -/
theorem timer1_late : ∃ t, addtimer 3000 1000 = some t ∧ Possible t none ∧
    (t.after none 3).runs = [] ∧ (t.after none 4).runs = [4000] ∧ ¬ OnTime t none := by
  refine ⟨⟨3000, 1000, by decide⟩, rfl, ?_, rfl, rfl, fun h => ?_⟩
  · intro m hm
    cases hm
  have hdue := (h.inTurn 4 0 4000 rfl).2
  exact absurd hdue (by decide)

end CxxFiber.EFiberTimer
