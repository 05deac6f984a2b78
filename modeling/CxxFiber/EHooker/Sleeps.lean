import CxxFiber.EcoAe.LongSleep
import Mathlib.Data.Int.Init

/-! The durations that `sleep`, `usleep`, `nanosleep` and `select` hand to timers. -/
namespace CxxFiber.EHooker.Sleeps

open EcoAe MachineInt

/-- `struct timespec`. -/
structure Timespec where
  tv_sec : ℤ
  tv_nsec : ℤ
  deriving DecidableEq, Repr

/-- A call. Of the sets of `select` it counts whether there is any, and what the first call of the
kernel's function returns. -/
inductive Call
  | sleep (seconds : BitVec 32)
  | usleep (usec : BitVec 32)
  | nanosleep (req : Option Timespec)
  | select (nfds : ℤ) (sets : Bool) (timeout : Option TimeVal) (once : ℤ)
  deriving DecidableEq, Repr

/-- Where a call leaves the duration: with the kernel's function, nowhere, in a timer; `undefined`
is an overflow of a signed operation. -/
inductive Handed
  | kernel
  | returned (ret : ℤ)
  | untimed
  | timer (milliseconds : ℤ)
  | illegalArgument
  | undefined
  deriving DecidableEq, Repr

/-- `EFiber::sleep`. -/
def fiberSleep (millis : ℤ) : Handed := if millis < 0 then .illegalArgument else .timer millis

/-- The product is one of `unsigned int`. -/
def sleep (seconds : BitVec 32) : Handed := fiberSleep (seconds * 1000#32).toNat

def usleep (usec : BitVec 32) : Handed := fiberSleep (usec / 1000#32).toNat

/-- `seconds * 1000 + part / unit`, in `llong`. -/
def millis (seconds part unit : ℤ) : Option ℤ := do
  let ms ← long (seconds * 1000)
  long (ms + part.tdiv unit)

def nanosleep : Option Timespec → Handed
  | none => .returned (-1)
  | some req =>
    match millis req.tv_sec req.tv_nsec 1000000 with
    | none => .undefined
    | some ms => fiberSleep ms

def select (nfds : ℤ) (sets : Bool) (timeout : Option TimeVal) (once : ℤ) : Handed :=
  match timeout.elim (some (2 ^ 63 - 1)) fun tv => millis tv.sec tv.usec 1000 with
  | none => .undefined
  | some ms =>
    if ms = 0 then .kernel
    else if nfds = 0 ∨ !sets then fiberSleep ms
    else if once ≠ 0 then .returned once
    else if ms > 0 then .timer ms
    else .untimed

/-- A call in a fiber and outside of signal handlers; elsewhere all is left to the kernel. -/
def Call.handed : Call → Handed
  | .sleep seconds => Sleeps.sleep seconds
  | .usleep usec => Sleeps.usleep usec
  | .nanosleep req => Sleeps.nanosleep req
  | .select nfds sets timeout once => Sleeps.select nfds sets timeout once

/-- The arguments are there and their fields in range. -/
def Call.Valid : Call → Prop
  | .sleep _ | .usleep _ => True
  | .nanosleep req => ∃ t, req = some t ∧ 0 ≤ t.tv_sec ∧ t.tv_sec < 2 ^ 63 ∧ 0 ≤ t.tv_nsec ∧
      t.tv_nsec < 1000000000
  | .select _ _ timeout _ => ∃ tv, timeout = some tv ∧ 0 ≤ tv.sec ∧ tv.sec < 2 ^ 63 ∧ 0 ≤ tv.usec ∧
      tv.usec < 1000000

/-- The duration that is asked for, in nanoseconds. -/
def Call.requested : Call → ℤ
  | .sleep seconds => seconds.toNat * 1000000000
  | .usleep usec => usec.toNat * 1000
  | .nanosleep req => req.elim 0 fun t => t.tv_sec * 1000000000 + t.tv_nsec
  | .select _ _ timeout _ => timeout.elim 0 fun tv => tv.micros * 1000

/-- A timer for `milliseconds` that is set up at `start` fires at no reading of the clock before
`nanos` have passed. -/
def Lasts (start : Time) (milliseconds nanos : ℤ) : Prop :=
  ∃ when, start.addMillisecondsToNow milliseconds = some when ∧
    ∀ now : Time, now.Reading → when.reached now = true → nanos ≤ now.since start * 1000000

/-- No timer ends the call early. -/
def Call.NotShort (start : Time) (c : Call) : Prop :=
  match c.handed with
  | .kernel | .returned _ | .untimed => True
  | .timer milliseconds => Lasts start milliseconds c.requested
  | .illegalArgument | .undefined => False

/-- The time when a timer is due has a representation. -/
def Due (start : Time) (milliseconds : ℤ) : Prop :=
  (start.addMilliseconds milliseconds).sec < 2 ^ 63

/-- The duration is a whole number of milliseconds that fits into the types on its way. -/
def Call.Whole (start : Time) : Call → Prop
  | .sleep seconds => seconds.toNat * 1000 < 2 ^ 32 ∧ Due start (seconds.toNat * 1000)
  | .usleep usec => usec.toNat % 1000 = 0 ∧ Due start (usec.toNat / 1000)
  | .nanosleep req => ∀ t ∈ req, t.tv_nsec % 1000000 = 0 ∧
      t.tv_sec * 1000 + t.tv_nsec / 1000000 < 2 ^ 63 ∧
      Due start (t.tv_sec * 1000 + t.tv_nsec / 1000000)
  | .select nfds sets timeout once => ∀ tv ∈ timeout, tv.sec * 1000 + tv.usec / 1000 < 2 ^ 63 ∧
      -- left to the kernel's function, or with something ready
      (tv.sec = 0 ∧ tv.usec < 1000 ∨ nfds ≠ 0 ∧ sets = true ∧ once ≠ 0 ∨
        tv.usec % 1000 = 0 ∧ Due start (tv.sec * 1000 + tv.usec / 1000))

variable {start : Time} {ms nanos seconds part unit : ℤ}

/-- The first reading at which a timer fires is the due time itself. -/
theorem lasts_iff (hs : start.Reading) (h0 : 0 ≤ ms) (h1 : ms < 2 ^ 63) :
    Lasts start ms nanos ↔ Due start ms ∧ nanos ≤ ms * 1000000 := by
  have hadd := addMillisecondsToNow_eq hs h0 h1
  have hnormal : (start.addMilliseconds ms).Normal := Time.addMilliseconds_normal hs.2 h0
  have hsince : (start.addMilliseconds ms).since start = ms := Time.addMilliseconds_since h0
  constructor
  · rintro ⟨when, hw, hall⟩
    by_cases hdue : (start.addMilliseconds ms).sec < 2 ^ 63
    · rw [hadd, if_pos hdue] at hw
      obtain rfl := Option.some.inj hw
      have hlow : -2 ^ 63 ≤ (start.addMilliseconds ms).sec := by
        have hstart := hs.1.1
        obtain ⟨hn0, hn1⟩ := hnormal
        obtain ⟨hs0, hs1⟩ := hs.2
        simp only [Time.since] at hsince
        simp only [Nat.add_one_sub_one] at hstart
        omega
      have hreached := hall _ ⟨⟨hlow, hdue⟩, hnormal⟩ (Time.reached_iff.mpr (Time.le_refl _))
      rw [hsince] at hreached
      exact ⟨hdue, hreached⟩
    · rw [hadd, if_neg hdue] at hw
      cases hw
  · rintro ⟨hdue, hle⟩
    refine ⟨_, hadd.trans (if_pos hdue), fun now hn hreached => ?_⟩
    have hmono : (start.addMilliseconds ms).since start ≤ now.since start :=
      Time.since_mono hnormal hn.2 (Time.reached_iff.mp hreached)
    rw [hsince] at hmono
    omega

theorem millis_eq (hs : 0 ≤ seconds) (hp : 0 ≤ part) (hu : 0 < unit) : millis seconds part unit =
    if seconds * 1000 + part / unit < 2 ^ 63 then some (seconds * 1000 + part / unit)
    else none := by
  have hq : part.tdiv unit = part / unit := Int.tdiv_eq_ediv_of_nonneg hp
  have hq0 : 0 ≤ part / unit := Int.ediv_nonneg hp (Int.le_of_lt hu)
  simp only [millis, hq, Option.bind_eq_bind]
  split
  · rw [long_eq (by omega) (by omega), Option.bind_some, long_eq (by omega) (by omega)]
  · by_cases hprod : seconds * 1000 < 2 ^ 63
    · rw [long_eq (by omega) hprod, Option.bind_some, long_none (Or.inl (by omega))]
    · rw [long_none (Or.inl (by omega)), Option.bind_none]

theorem fiberSleep_eq (h : 0 ≤ ms) : fiberSleep ms = .timer ms := if_neg (by omega)

/-- What a call with a timer comes to. -/
theorem notShort_timer {c : Call} (hs : start.Reading) (hc : c.handed = fiberSleep ms)
    (h0 : 0 ≤ ms) (h1 : ms < 2 ^ 63) :
    c.NotShort start ↔ Due start ms ∧ c.requested ≤ ms * 1000000 := by
  rw [fiberSleep_eq h0] at hc
  simp only [Call.NotShort, hc]
  exact lasts_iff hs h0 h1

theorem sleep_notShort (hs : start.Reading) (n : BitVec 32) :
    (Call.sleep n).NotShort start ↔ (Call.sleep n).Whole start := by
  have hn : n.toNat < 2 ^ 32 := n.isLt
  have hmul : (n * 1000#32).toNat = n.toNat * 1000 % 2 ^ 32 := by simp [BitVec.toNat_mul]
  have hmod : n.toNat * 1000 % 2 ^ 32 < 2 ^ 32 := Nat.mod_lt _ (by decide)
  have hhanded : (Call.sleep n).handed = fiberSleep ((n * 1000#32).toNat : ℤ) := rfl
  rw [notShort_timer hs hhanded (by omega) (by omega), hmul]
  simp only [Call.requested, Call.Whole]
  constructor
  · rintro ⟨hdue, hle⟩
    -- a product that wraps is less than what was asked for
    have hlt : n.toNat * 1000 < 2 ^ 32 := by omega
    rw [Nat.mod_eq_of_lt hlt] at hdue
    exact ⟨hlt, by simpa using hdue⟩
  · rintro ⟨hlt, hdue⟩
    rw [Nat.mod_eq_of_lt hlt]
    exact ⟨by simpa using hdue, by omega⟩

theorem usleep_notShort (hs : start.Reading) (n : BitVec 32) :
    (Call.usleep n).NotShort start ↔ (Call.usleep n).Whole start := by
  have hn : n.toNat < 2 ^ 32 := n.isLt
  have hdiv : (n / 1000#32).toNat = n.toNat / 1000 := by simp [BitVec.toNat_udiv]
  have hhanded : (Call.usleep n).handed = fiberSleep ((n / 1000#32).toNat : ℤ) := rfl
  rw [notShort_timer hs hhanded (by omega) (by omega), hdiv]
  have hcast : ((n.toNat / 1000 : ℕ) : ℤ) = (n.toNat : ℤ) / 1000 := by omega
  rw [hcast]
  simp only [Call.requested, Call.Whole]
  constructor
  · rintro ⟨hdue, hle⟩
    exact ⟨by omega, hdue⟩
  · rintro ⟨hmod, hdue⟩
    exact ⟨hdue, by omega⟩

theorem nanosleep_notShort (hs : start.Reading) {req : Option Timespec}
    (hv : (Call.nanosleep req).Valid) :
    (Call.nanosleep req).NotShort start ↔ (Call.nanosleep req).Whole start := by
  obtain ⟨t, rfl, hsec, -, hnsec, hlt⟩ := hv
  have hmillis := millis_eq hsec hnsec (show 0 < (1000000 : ℤ) by decide)
  by_cases hfit : t.tv_sec * 1000 + t.tv_nsec / 1000000 < 2 ^ 63
  · rw [if_pos hfit] at hmillis
    have hhanded : (Call.nanosleep (some t)).handed =
        fiberSleep (t.tv_sec * 1000 + t.tv_nsec / 1000000) := by
      simp only [Call.handed, nanosleep, hmillis]
    rw [notShort_timer hs hhanded (by omega) hfit]
    simp only [Call.requested, Call.Whole, Option.elim_some, Option.mem_some_iff, forall_eq']
    constructor
    · rintro ⟨hdue, hle⟩
      exact ⟨by omega, hfit, hdue⟩
    · rintro ⟨hmod, _, hdue⟩
      exact ⟨hdue, by omega⟩
  · rw [if_neg hfit] at hmillis
    simp only [Call.NotShort, Call.handed, nanosleep, hmillis, Call.Whole, false_iff]
    exact fun h => hfit (h t rfl).2.1

/-- A `select` that waits for its timeout only. -/
theorem select_handed {nfds : ℤ} {sets : Bool} {tv : TimeVal} {once : ℤ}
    (hmillis : millis tv.sec tv.usec 1000 = some ms) (hpos : 0 < ms)
    (hready : ¬ (nfds ≠ 0 ∧ sets = true ∧ once ≠ 0)) :
    (Call.select nfds sets (some tv) once).handed = fiberSleep ms := by
  have hzero : ms ≠ 0 := Int.ne_of_gt hpos
  simp only [Call.handed, select, Option.elim_some, hmillis, hzero, gt_iff_lt, hpos, if_false,
    if_true]
  split
  · rfl
  · next hwait =>
    have honce : once = 0 := by
      by_contra hne
      simp only [not_or, Bool.not_eq_true', Bool.not_eq_false] at hwait
      exact hready ⟨hwait.1, hwait.2, hne⟩
    rw [if_neg (not_not_intro honce)]
    exact (fiberSleep_eq (Int.le_of_lt hpos)).symm

theorem select_notShort (hs : start.Reading) {nfds : ℤ} {sets : Bool} {timeout : Option TimeVal}
    {once : ℤ} (hv : (Call.select nfds sets timeout once).Valid) :
    (Call.select nfds sets timeout once).NotShort start ↔
      (Call.select nfds sets timeout once).Whole start := by
  obtain ⟨tv, rfl, hsec, -, husec, hlt⟩ := hv
  have hmillis := millis_eq hsec husec (show 0 < (1000 : ℤ) by decide)
  by_cases hfit : tv.sec * 1000 + tv.usec / 1000 < 2 ^ 63
  · rw [if_pos hfit] at hmillis
    by_cases hzero : tv.sec * 1000 + tv.usec / 1000 = 0
    · have hhanded : (Call.select nfds sets (some tv) once).handed = .kernel := by
        simp only [Call.handed, select, Option.elim_some, hmillis, hzero, if_true]
      simp only [Call.NotShort, hhanded, Call.Whole, true_iff]
      rintro t ht
      cases ht
      exact ⟨hfit, .inl (by omega)⟩
    by_cases hready : nfds ≠ 0 ∧ sets = true ∧ once ≠ 0
    · have hhanded : (Call.select nfds sets (some tv) once).handed = .returned once := by
        simp [Call.handed, select, hmillis, hzero, hready]
      simp only [Call.NotShort, hhanded, Call.Whole, true_iff]
      rintro t ht
      cases ht
      exact ⟨hfit, .inr (.inl hready)⟩
    · have hhanded := select_handed hmillis (by omega) hready
      rw [notShort_timer hs hhanded (by omega) hfit]
      simp only [Call.requested, Call.Whole, Option.elim_some, Option.mem_some_iff, forall_eq',
        TimeVal.micros]
      constructor
      · rintro ⟨hdue, hle⟩
        exact ⟨hfit, .inr (.inr ⟨by omega, hdue⟩)⟩
      · rintro ⟨_, hkernel | hret | ⟨hmod, hdue⟩⟩
        · omega
        · exact absurd hret hready
        · exact ⟨hdue, by omega⟩
  · rw [if_neg hfit] at hmillis
    simp only [Call.NotShort, Call.handed, select, Option.elim_some, hmillis, Call.Whole, false_iff]
    exact fun h => hfit (h tv rfl).1

/-- No hook ends early on a clock of milliseconds exactly when its argument is a whole number of
milliseconds that fits, or is not given to a timer. -/
theorem notShort_iff (start : Time) (hs : start.Reading) (c : Call) (hv : c.Valid) :
    c.NotShort start ↔ c.Whole start := by
  cases c with
  | sleep seconds => exact sleep_notShort hs seconds
  | usleep usec => exact usleep_notShort hs usec
  | nanosleep req => exact nanosleep_notShort hs hv
  | select nfds sets timeout once => exact select_notShort hs hv

/-- An hour. -/
theorem sleep_hour : (Call.sleep 3600).NotShort ⟨10, 500⟩ ↔ (Call.sleep 3600).Whole ⟨10, 500⟩ :=
  notShort_iff ⟨10, 500⟩ ⟨by decide, by decide, by decide⟩ (.sleep 3600) trivial

/-- About 50 days become 704 milliseconds, 500 microseconds none. -/
theorem sleeps_short : sleep 4294968 = .timer 704 ∧ usleep 500 = .timer 0 ∧
    ¬ (Call.sleep 4294968).NotShort ⟨10, 500⟩ ∧ ¬ (Call.usleep 500).NotShort ⟨10, 500⟩ := by
  refine ⟨rfl, rfl, ?_, ?_⟩
  · rintro ⟨when, hw, hall⟩
    have hdue : (⟨10, 500⟩ : Time).addMillisecondsToNow 704 = some when := hw
    obtain rfl : ⟨11, 204⟩ = when := Option.some.inj hdue
    have hle : (4294968000000000 : ℤ) ≤ 704000000 :=
      hall ⟨11, 204⟩ ⟨by decide, by decide, by decide⟩ rfl
    omega
  · rintro ⟨when, hw, hall⟩
    have hdue : (⟨10, 500⟩ : Time).addMillisecondsToNow 0 = some when := hw
    obtain rfl : ⟨10, 500⟩ = when := Option.some.inj hdue
    have hle : (500000 : ℤ) ≤ 0 := hall ⟨10, 500⟩ ⟨by decide, by decide, by decide⟩ rfl
    omega

end CxxFiber.EHooker.Sleeps
