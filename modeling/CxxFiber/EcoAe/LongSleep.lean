import CxxFiber.EcoAe.Wait
import CxxFiber.Library.MachineInt

/-! The way of a duration through `long` and `timeval` to the `int` of `epoll_wait`. -/
namespace CxxFiber.EcoAe

open MachineInt

variable {F : Type} {t u now start when : Time} {d : ℤ} {n : TimeEvent F} {p : TimeEvents F}
  {timeout v w : ℤ} {tv : TimeVal}

/-- The value of an operation on `long` and `llong`. -/
def long (v : ℤ) : Option ℤ := checked 64 v

/-- A reading of the clock. -/
def Time.Reading (t : Time) : Prop := Fits 64 t.sec ∧ t.Normal

/-- `aeAddMillisecondsToNow`; none if an operation overflows. -/
def Time.addMillisecondsToNow (now : Time) (milliseconds : ℤ) : Option Time := do
  let sec ← long (now.sec + milliseconds.tdiv 1000)
  let ms ← long (now.ms + milliseconds.tmod 1000)
  if ms ≥ 1000 then
    let sec ← long (sec + 1)
    let ms ← long (ms - 1000)
    pure ⟨sec, ms⟩
  else pure ⟨sec, ms⟩

/-- The time missing for a timer to fire, operation by operation. -/
def timeMissingLong (shortest now : Time) : Option TimeVal := do
  let sec ← long (shortest.sec - now.sec)
  let tv ← if shortest.ms < now.ms then do
      let up ← long (shortest.ms + 1000)
      let diff ← long (up - now.ms)
      let usec ← long (diff * 1000)
      let sec ← long (sec - 1)
      pure (⟨sec, usec⟩ : TimeVal)
    else do
      let diff ← long (shortest.ms - now.ms)
      let usec ← long (diff * 1000)
      pure ⟨sec, usec⟩
  pure ⟨if tv.sec < 0 then 0 else tv.sec, if tv.usec < 0 then 0 else tv.usec⟩

/-- `eco_poll_process_events` up to `aeApiPoll`; the timeout is an `es_int64_t`. -/
def TimeEvents.waitLong (p : TimeEvents F) (now : Time) (timeout : ℤ) : Option (Option TimeVal) :=
  match if timeout = 0 then none else p.searchNearestTimer with
  | some shortest => some <$> timeMissingLong shortest.when now
  | none =>
    if timeout > 0 then do
      let usec ← long (timeout.tmod 1000 * 1000)
      pure (some ⟨timeout.tdiv 1000, usec⟩)
    else if timeout = 0 then pure (some ⟨0, 0⟩)
    else pure none

/-- The last argument that `aeApiPoll` gives to `epoll_wait`, an `int`. -/
def epollTimeout : Option TimeVal → Option ℤ
  | none => some (-1)
  | some tv => do
    let ms ← long (tv.sec * 1000)
    let ms ← long (ms + tv.usec / 1000)
    pure (narrow 32 ms)

/-- A timer is set up for `milliseconds` at `start`. Whenever it is the nearest one at `now`, the
wait is an `int` from 0 to what is left for every timer, and nothing has overflowed. -/
def KeepsMeaning (start : Time) (milliseconds : ℤ) (now : Time) (fiber : F) : Prop :=
  ∃ when, start.addMillisecondsToNow milliseconds = some when ∧
    ∀ (p : TimeEvents F) (n : TimeEvent F) (timeout : ℤ), Fits 64 timeout → p.Normal →
      p.searchNearestTimer = some n → n.when = when → n.clientData = fiber →
        ∃ tvp ms, p.waitLong now timeout = some tvp ∧ epollTimeout tvp = some ms ∧ 0 ≤ ms ∧
          ∀ te ∈ p.events, ms ≤ max 0 (te.when.since now)

/-- The due time is a `long`; what is left of it at `now`, if anything, is taken modulo `2 ^ 32` to
a value that is not negative; a timer that is overdue is so by whole seconds, which are a `long`. -/
def Representable (due now : Time) : Prop :=
  due.sec < 2 ^ 63 ∧
    ((0 ≤ due.since now ∧ due.since now % 2 ^ 32 < 2 ^ 31) ∨
      due.since now < 0 ∧ due.since now % 1000 = 0 ∧ -2 ^ 63 ≤ due.since now / 1000)

theorem long_eq (h : -2 ^ 63 ≤ v) (h' : v < 2 ^ 63) : long v = some v :=
  checked_of_fits ⟨h, h'⟩

theorem long_none (h : 2 ^ 63 ≤ v ∨ v < -2 ^ 63) : long v = none := by
  apply checked_of_not_fits
  rintro ⟨h0, h1⟩
  simp only [Nat.add_one_sub_one] at h0 h1
  omega

/-- A duration is added exactly, or the seconds do not fit. -/
theorem addMillisecondsToNow_eq (hs : start.Reading) (h0 : 0 ≤ d) (h1 : d < 2 ^ 63) :
    start.addMillisecondsToNow d =
      if (start.addMilliseconds d).sec < 2 ^ 63 then some (start.addMilliseconds d) else none := by
  obtain ⟨⟨hlo, hhi⟩, hms0, hms1⟩ := hs
  simp only [Nat.add_one_sub_one] at hlo hhi
  have hq := Int.tdiv_eq_ediv_of_nonneg (b := 1000) h0
  have hr := Int.tmod_eq_emod_of_nonneg (b := 1000) h0
  have hms : long (start.ms + d % 1000) = some (start.ms + d % 1000) :=
    long_eq (by omega) (by omega)
  have hms' : long (start.ms + d % 1000 - 1000) = some (start.ms + d % 1000 - 1000) :=
    long_eq (by omega) (by omega)
  simp only [Time.addMillisecondsToNow, Time.addMilliseconds, hq, hr, hms, Option.bind_eq_bind,
    Option.bind_some, hms']
  by_cases hsec : start.sec + d / 1000 < 2 ^ 63
  case pos =>
    rw [long_eq (by omega) hsec]
    by_cases hc : start.ms + d % 1000 ≥ 1000
    case pos =>
      simp only [hc, if_true, Option.bind_some]
      by_cases hcar : start.sec + d / 1000 + 1 < 2 ^ 63
      · rw [if_pos hcar, long_eq (by omega) hcar]
        rfl
      · have hover : 2 ^ 63 ≤ start.sec + d / 1000 + 1 := by omega
        rw [if_neg hcar, long_none (Or.inl hover)]
        rfl
    case neg =>
      simp only [hc, if_false, Option.bind_some]
      rw [if_pos hsec]
      rfl
  case neg =>
    rw [long_none (Or.inl (by omega)), Option.bind_none, if_neg]
    split <;> simp only <;> omega

theorem timeMissingLong_some (ht : t.Normal) (hn : now.Normal) (h0 : -2 ^ 63 ≤ t.since now / 1000)
    (h1 : t.sec - now.sec < 2 ^ 63) : timeMissingLong t now = some (timeMissing t now) := by
  obtain ⟨ht0, ht1⟩ := ht
  obtain ⟨hn0, hn1⟩ := hn
  unfold Time.since at h0
  simp only [timeMissingLong, timeMissing, long_eq (v := t.sec - now.sec) (by omega) h1]
  split
  case isTrue hb =>
    rw [long_eq (v := t.ms + 1000) (by omega) (by omega)]
    simp [long_eq (v := t.ms + 1000 - now.ms) (by omega) (by omega),
      long_eq (v := (t.ms + 1000 - now.ms) * 1000) (by omega) (by omega),
      long_eq (v := t.sec - now.sec - 1) (by omega) (by omega)]
  case isFalse hb =>
    simp [long_eq (v := t.ms - now.ms) (by omega) (by omega),
      long_eq (v := (t.ms - now.ms) * 1000) (by omega) (by omega)]

theorem timeMissingLong_none (ht : t.Normal) (hn : now.Normal)
    (h : t.since now / 1000 < -2 ^ 63) : timeMissingLong t now = none := by
  obtain ⟨ht0, ht1⟩ := ht
  obtain ⟨hn0, hn1⟩ := hn
  unfold Time.since at h
  by_cases hs : t.sec - now.sec < -2 ^ 63
  · simp [timeMissingLong, long_none (Or.inr hs)]
  · -- only the borrow overflows
    have hb : t.ms < now.ms := by omega
    simp [timeMissingLong, hb, long_eq (v := t.sec - now.sec) (by omega) (by omega),
      long_eq (v := t.ms + 1000) (by omega) (by omega),
      long_eq (v := t.ms + 1000 - now.ms) (by omega) (by omega),
      long_eq (v := (t.ms + 1000 - now.ms) * 1000) (by omega) (by omega),
      long_none (v := t.sec - now.sec - 1) (Or.inr (by omega))]

/-- The `int` is the time missing modulo `2 ^ 32`, or what an overdue timer leaves. -/
theorem epollTimeout_timeMissing (ht : t.Normal) (hn : now.Normal) (h : t.since now < 2 ^ 63) :
    epollTimeout (some (timeMissing t now)) =
      some (narrow 32 (if t.since now < 0 then t.since now % 1000 else t.since now)) := by
  rw [timeMissing_eq ht hn]
  by_cases hneg : t.since now < 0
  · simp [epollTimeout, hneg, long_eq (v := 0) (by omega) (by omega),
      long_eq (v := t.since now % 1000) (by omega) (by omega)]
  · simp [epollTimeout, hneg, long_eq (v := t.since now / 1000 * 1000) (by omega) (by omega),
      Int.ediv_mul_add_emod, long_eq (v := t.since now) (by omega) h]

namespace TimeEvents

theorem waitLong_zero : p.waitLong now 0 = some (some ⟨0, 0⟩) := by
  simp [waitLong]

theorem waitLong_some (h : p.searchNearestTimer = some n) (ht : timeout ≠ 0) :
    p.waitLong now timeout = some <$> timeMissingLong n.when now := by
  simp [waitLong, h, ht]

end TimeEvents

/-- What is left of a duration at a later reading is no more than the duration. -/
theorem since_le (hs : start.Normal) (hn : now.Normal) (hle : start ≤ now) (h0 : 0 ≤ d) :
    (start.addMilliseconds d).since now ≤ d := by
  have hd : (start.addMilliseconds d).since start = d := Time.addMilliseconds_since h0
  have hm : start.since start ≤ now.since start := Time.since_mono hs hn hle
  simp only [Time.since] at *
  omega

/-- The wait for a timer whose due time is representable. -/
theorem epollTimeout_le (ht : t.Normal) (hn : now.Normal) (h : t.since now < 2 ^ 63)
    (hr : Representable t now) : ∃ ms, epollTimeout (some (timeMissing t now)) = some ms ∧
      0 ≤ ms ∧ ms ≤ max 0 (t.since now) := by
  refine ⟨_, epollTimeout_timeMissing ht hn h, ?_⟩
  rcases hr.2 with ⟨h0, hmod⟩ | ⟨hneg, hmod, _⟩
  · have hlow : 0 ≤ narrow 32 (t.since now) := (narrow_nonneg_iff (by decide)).mpr hmod
    have hhigh : narrow 32 (t.since now) ≤ t.since now := narrow_le (by decide) h0
    rw [if_neg (by omega)]
    omega
  · rw [if_pos hneg, hmod, narrow_of_lt (by decide) (by decide) (by decide)]
    omega

/-- A wait from 0 to what is left, with no overflow on the way, needs a representable due time. -/
theorem representable_of_wait {tvp : Option TimeVal} {ms : ℤ} (ht : t.Normal) (hn : now.Normal)
    (h : t.since now < 2 ^ 63) (hsec : t.sec < 2 ^ 63)
    (hw : some <$> timeMissingLong t now = some tvp) (hlt : t.sec - now.sec < 2 ^ 63)
    (hms : epollTimeout tvp = some ms) (h0 : 0 ≤ ms) (hle : ms ≤ max 0 (t.since now)) :
    Representable t now := by
  have hlow : -2 ^ 63 ≤ t.since now / 1000 := by
    by_contra hlow
    rw [timeMissingLong_none ht hn (by omega)] at hw
    simp at hw
  rw [timeMissingLong_some ht hn hlow hlt] at hw
  obtain rfl : some (timeMissing t now) = tvp := Option.some.inj hw
  rw [epollTimeout_timeMissing ht hn h] at hms
  obtain rfl := Option.some.inj hms
  refine ⟨hsec, ?_⟩
  by_cases hneg : t.since now < 0
  · rw [if_pos hneg, narrow_of_lt (by decide) (by omega) (by omega)] at hle
    exact Or.inr ⟨hneg, by omega, hlow⟩
  · rw [if_neg hneg] at h0
    exact Or.inl ⟨by omega, (narrow_nonneg_iff (by decide)).mp h0⟩

theorem keeps_meaning_iff (hs : start.Reading) (hn : now.Reading) (hle : start ≤ now) (h0 : 0 ≤ d)
    (h1 : d < 2 ^ 63) (fiber : F) :
    KeepsMeaning start d now fiber ↔ Representable (start.addMilliseconds d) now := by
  have hdue : (start.addMilliseconds d).Normal := Time.addMilliseconds_normal hs.2 h0
  have hleft := since_le hs.2 hn.2 hle h0
  have hlt : (start.addMilliseconds d).sec - now.sec < 2 ^ 63 := by
    obtain ⟨hd0, hd1⟩ := hdue
    obtain ⟨hn0, hn1⟩ := hn.2
    unfold Time.since at hleft
    omega
  have hadd := addMillisecondsToNow_eq hs h0 h1
  constructor
  case mp =>
    rintro ⟨when, hw, hall⟩
    by_cases hsec : (start.addMilliseconds d).sec < 2 ^ 63
    case neg =>
      rw [hadd, if_neg hsec] at hw
      simp at hw
    case pos =>
      rw [hadd, if_pos hsec] at hw
      obtain rfl := Option.some.inj hw
      -- the timer alone in the list of an io waiter
      let te : TimeEvent F := ⟨some 0, start.addMilliseconds d, fiber, 0⟩
      obtain ⟨tvp, ms, hv, hms, hpos, htop⟩ := hall ⟨1, 0, [te]⟩ te 1 (by decide)
        (by simpa [TimeEvents.Normal, te] using hdue) rfl rfl rfl
      rw [TimeEvents.waitLong_some (n := te) rfl (by decide)] at hv
      exact representable_of_wait hdue hn.2 (by omega) hsec hv hlt hms hpos (htop te (by simp))
  case mpr =>
    intro hr
    refine ⟨_, by rw [hadd, if_pos hr.1], ?_⟩
    intro p n timeout _ hp hnear hwhen _
    by_cases ht : timeout = 0
    case pos =>
      subst ht
      exact ⟨_, 0, TimeEvents.waitLong_zero, by decide, Int.le_refl 0, fun te _ => by omega⟩
    case neg =>
      have hlow : -2 ^ 63 ≤ (start.addMilliseconds d).since now / 1000 := by
        rcases hr.2 with ⟨hpos, _⟩ | ⟨_, _, hlow⟩
        · omega
        · exact hlow
      obtain ⟨ms, hms, hpos, htop⟩ := epollTimeout_le hdue hn.2 (by omega) hr
      obtain ⟨hmem, hnearest⟩ := TimeEvents.searchNearestTimer_some hnear
      refine ⟨_, ms, ?_, hms, hpos, fun te hte => ?_⟩
      · rw [TimeEvents.waitLong_some hnear ht, hwhen, timeMissingLong_some hdue hn.2 hlow hlt]
        rfl
      · have hm : n.when.since now ≤ te.when.since now :=
          Time.since_mono (hp n hmem) (hp te hte) (hnearest te hte)
        rw [hwhen] at hm
        omega

/-- Five seconds, of which some are left. -/
theorem keeps_meaning_short : KeepsMeaning ⟨10, 500⟩ 5000 ⟨12, 700⟩ () :=
  (keeps_meaning_iff ⟨by decide, by decide, by decide⟩ ⟨by decide, by decide, by decide⟩
    (Or.inl (by decide)) (by decide) (by decide) ()).mpr ⟨by decide, Or.inl ⟨by decide, by decide⟩⟩

/-- `2 ^ 31` milliseconds, just set up: the `int` is negative, and `epoll_wait` has no timeout. -/
theorem long_sleep_blocks : ¬ KeepsMeaning ⟨10, 500⟩ (2 ^ 31) ⟨10, 500⟩ () := by
  rintro ⟨when, hw, hall⟩
  obtain rfl : ⟨2147494, 148⟩ = when := Option.some.inj hw
  obtain ⟨tvp, ms, hv, hms, hpos, -⟩ := hall ⟨1, 0, [⟨some 0, ⟨2147494, 148⟩, (), 0⟩]⟩ _ 3000
    (by decide) (by simp [TimeEvents.Normal, Time.Normal]) rfl rfl rfl
  obtain rfl : some ⟨2147483, 648000⟩ = tvp := Option.some.inj hv
  obtain rfl : -2147483648 = ms := Option.some.inj hms
  omega

end CxxFiber.EcoAe
