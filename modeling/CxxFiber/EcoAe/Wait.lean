import CxxFiber.EcoAe.TimeEvents

/-! How long `eco_poll_process_events` lets the multiplexer wait. -/
namespace CxxFiber.EcoAe

variable {F : Type} {t u v now : Time} {d milliseconds : ℤ} {l : List (TimeEvent F)}
  {te n : TimeEvent F} {p : TimeEvents F} {timeout : ℤ} {clock : ℕ → Time}

namespace Time

/-- The milliseconds from `now` to `t`. -/
def since (t now : Time) : ℤ := (t.sec - now.sec) * 1000 + (t.ms - now.ms)

/-- The milliseconds are less than a second, as in a reading of the clock. -/
def Normal (t : Time) : Prop := 0 ≤ t.ms ∧ t.ms < 1000

/-- The comparison of `aeSearchNearestTimer`. -/
def earlier (t u : Time) : Bool :=
  decide (t.sec < u.sec) || (t.sec == u.sec && decide (t.ms < u.ms))

theorem earlier_iff : t.earlier u = true ↔ ¬ u ≤ t := by
  simp only [earlier, le_def, Bool.or_eq_true, Bool.and_eq_true, decide_eq_true_eq, beq_iff_eq]
  omega

theorem le_refl (t : Time) : t ≤ t := by
  rw [le_def]
  omega

theorem since_mono (ht : t.Normal) (hu : u.Normal) (h : t ≤ u) : t.since now ≤ u.since now := by
  simp only [Normal, le_def, since] at *
  omega

theorem addMilliseconds_normal (hn : now.Normal) (hm : 0 ≤ milliseconds) :
    (now.addMilliseconds milliseconds).Normal := by
  simp only [Normal, addMilliseconds, Int.tdiv_eq_ediv_of_nonneg hm,
    Int.tmod_eq_emod_of_nonneg hm] at *
  split <;> simp only <;> omega

theorem addMilliseconds_since (hm : 0 ≤ milliseconds) :
    (now.addMilliseconds milliseconds).since now = milliseconds := by
  simp only [since, addMilliseconds, Int.tdiv_eq_ediv_of_nonneg hm, Int.tmod_eq_emod_of_nonneg hm]
  split <;> simp only <;> omega

end Time

/-- The loop of `aeSearchNearestTimer`; it does not leave out the deleted events. -/
def nearestLoop : Option (TimeEvent F) → List (TimeEvent F) → Option (TimeEvent F)
  | nearest, [] => nearest
  | none, te :: rest => nearestLoop (some te) rest
  | some n, te :: rest => nearestLoop (some (if te.when.earlier n.when then te else n)) rest

/-- `struct timeval`. -/
structure TimeVal where
  sec : ℤ
  usec : ℤ
  deriving DecidableEq, Repr

def TimeVal.micros (tv : TimeVal) : ℤ := tv.sec * 1000000 + tv.usec

/-- The time missing for a timer to fire, with either part clamped. -/
def timeMissing (shortest now : Time) : TimeVal :=
  let sec := shortest.sec - now.sec
  let tv : TimeVal :=
    if shortest.ms < now.ms then ⟨sec - 1, (shortest.ms + 1000 - now.ms) * 1000⟩
    else ⟨sec, (shortest.ms - now.ms) * 1000⟩
  ⟨if tv.sec < 0 then 0 else tv.sec, if tv.usec < 0 then 0 else tv.usec⟩

namespace TimeEvents

/-- `aeSearchNearestTimer`. -/
def searchNearestTimer (p : TimeEvents F) : Option (TimeEvent F) := nearestLoop none p.events

/-- What `eco_poll_process_events` passes to `aeApiPoll` for `ECO_POLL_ALL_EVENTS`; none is the null
pointer. An io waiter always has its pipe registered. -/
def wait (p : TimeEvents F) (now : Time) (timeout : ℤ) : Option TimeVal :=
  match if timeout = 0 then none else p.searchNearestTimer with
  | some shortest => some (timeMissing shortest.when now)
  | none =>
    if timeout > 0 then some ⟨timeout.tdiv 1000, timeout.tmod 1000 * 1000⟩
    else if timeout = 0 then some ⟨0, 0⟩
    else none

/-- All due times are normal. -/
def Normal (p : TimeEvents F) : Prop := ∀ te ∈ p.events, te.when.Normal

/-- The wait is at most the timeout, and ends before any live timer is overdue. -/
def WaitsInTime (p : TimeEvents F) (now : Time) (timeout : ℤ) : Prop :=
  ∃ tv, p.wait now timeout = some tv ∧ tv.micros ≤ timeout * 1000 ∧
    ∀ te ∈ p.events, te.id ≠ none → tv.micros ≤ max 0 (te.when.since now) * 1000

/-- The nearest event, a deleted one included, is due within the timeout; or it is overdue, and the
milliseconds that are left when whole seconds are taken off are none, or no more than the timeout
and than what any live timer has left. -/
def NearestInTime (p : TimeEvents F) (now : Time) (timeout : ℤ) : Prop :=
  ∀ n, p.searchNearestTimer = some n →
    (0 ≤ n.when.since now ∧ n.when.since now ≤ timeout) ∨
    n.when.since now < 0 ∧ (n.when.since now % 1000 = 0 ∨ n.when.since now % 1000 ≤ timeout ∧
      ∀ te ∈ p.events, te.id ≠ none → n.when.since now % 1000 ≤ te.when.since now)

end TimeEvents

/-- The search ends with what it began with or an event of the list, and none is before it. -/
theorem nearestLoop_some (n : TimeEvent F) (l : List (TimeEvent F)) :
    ∃ te, nearestLoop (some n) l = some te ∧ (te = n ∨ te ∈ l) ∧ te.when ≤ n.when ∧
      ∀ u ∈ l, te.when ≤ u.when := by
  induction l generalizing n with
  | nil => exact ⟨n, rfl, Or.inl rfl, n.when.le_refl, by simp⟩
  | cons a rest ih =>
    obtain ⟨te, hs, hm, hle, hall⟩ := ih (if a.when.earlier n.when then a else n)
    have hboth : te.when ≤ a.when ∧ te.when ≤ n.when := by
      split at hle
      case isTrue ha =>
        have hna : ¬ n.when ≤ a.when := Time.earlier_iff.mp ha
        simp only [Time.le_def] at hle hna ⊢
        omega
      case isFalse ha =>
        have hna : n.when ≤ a.when := by
          by_contra hn
          exact ha (Time.earlier_iff.mpr hn)
        exact ⟨Time.le_trans hle hna, hle⟩
    refine ⟨te, hs, ?_, hboth.2, fun u hu => ?_⟩
    · split at hm
      · rcases hm with rfl | hm
        · exact Or.inr List.mem_cons_self
        · exact Or.inr (List.mem_cons_of_mem _ hm)
      · exact hm.imp_right (List.mem_cons_of_mem _)
    · rcases List.mem_cons.mp hu with rfl | hu
      · exact hboth.1
      · exact hall u hu

namespace TimeEvents

theorem searchNearestTimer_none : p.searchNearestTimer = none ↔ p.events = [] := by
  unfold searchNearestTimer
  cases p.events with
  | nil => simp [nearestLoop]
  | cons te rest =>
    obtain ⟨n, hn, _⟩ := nearestLoop_some te rest
    simp [nearestLoop, hn]

/-- The nearest event is one of the list, and none is due before it. -/
theorem searchNearestTimer_some (h : p.searchNearestTimer = some n) :
    n ∈ p.events ∧ ∀ te ∈ p.events, n.when ≤ te.when := by
  unfold searchNearestTimer at h
  cases he : p.events with
  | nil => simp [he, nearestLoop] at h
  | cons a rest =>
    obtain ⟨m, hm, hmem, hle, hall⟩ := nearestLoop_some a rest
    rw [he, nearestLoop, hm] at h
    obtain rfl : m = n := Option.some.inj h
    refine ⟨List.mem_cons.mpr hmem, fun te hte => ?_⟩
    rcases List.mem_cons.mp hte with rfl | hte
    · exact hle
    · exact hall te hte

end TimeEvents

/-- After the borrow the parts are the whole seconds and the rest of the time missing; of a time in
the past only the seconds are clamped. -/
theorem timeMissing_eq (ht : t.Normal) (hn : now.Normal) : timeMissing t now =
    ⟨if t.since now < 0 then 0 else t.since now / 1000, t.since now % 1000 * 1000⟩ := by
  obtain ⟨ht0, ht1⟩ := ht
  obtain ⟨hn0, hn1⟩ := hn
  have hb : (if t.ms < now.ms then (⟨t.sec - now.sec - 1, (t.ms + 1000 - now.ms) * 1000⟩ : TimeVal)
      else ⟨t.sec - now.sec, (t.ms - now.ms) * 1000⟩) =
      ⟨t.since now / 1000, t.since now % 1000 * 1000⟩ := by
    unfold Time.since
    split <;> simp only [TimeVal.mk.injEq] <;> omega
  have hs : t.since now / 1000 < 0 ↔ t.since now < 0 := by omega
  have hu : ¬ t.since now % 1000 * 1000 < 0 := by omega
  simp only [timeMissing, hb, hs, hu, if_false]

/-- A timer that is due later is waited for as long as it takes. -/
theorem timeMissing_future (ht : t.Normal) (hn : now.Normal) (h : 0 ≤ t.since now) :
    (timeMissing t now).micros = t.since now * 1000 := by
  rw [timeMissing_eq ht hn, if_neg (by omega)]
  simp only [TimeVal.micros]
  omega

/-- An overdue one leaves the fraction of a second that its seconds do not make up for. -/
theorem timeMissing_overdue (ht : t.Normal) (hn : now.Normal) (h : t.since now < 0) :
    (timeMissing t now).micros = t.since now % 1000 * 1000 := by
  rw [timeMissing_eq ht hn, if_pos h]
  simp [TimeVal.micros]

namespace TimeEvents

theorem wait_none (h : p.searchNearestTimer = none) (ht : 0 < timeout) :
    ∃ tv, p.wait now timeout = some tv ∧ tv.micros = timeout * 1000 := by
  refine ⟨⟨timeout.tdiv 1000, timeout.tmod 1000 * 1000⟩, ?_, ?_⟩
  · simp [wait, h, ht]
  · have hq := Int.tdiv_eq_ediv_of_nonneg (b := 1000) (Int.le_of_lt ht)
    have hr := Int.tmod_eq_emod_of_nonneg (b := 1000) (Int.le_of_lt ht)
    simp only [TimeVal.micros, hq, hr]
    omega

theorem wait_some (h : p.searchNearestTimer = some n) (ht : timeout ≠ 0) :
    p.wait now timeout = some (timeMissing n.when now) := by
  simp [wait, h, ht]

theorem wait_in_time_iff (hp : p.Normal) (hn : now.Normal) (ht : 0 < timeout) :
    p.WaitsInTime now timeout ↔ p.NearestInTime now timeout := by
  cases hs : p.searchNearestTimer with
  | none =>
    have he := searchNearestTimer_none.mp hs
    obtain ⟨tv, hw, hm⟩ : ∃ tv, p.wait now timeout = some tv ∧ tv.micros = timeout * 1000 :=
      wait_none hs ht
    have hl : p.WaitsInTime now timeout := ⟨tv, hw, by omega, by simp [he]⟩
    simp [hl, NearestInTime, hs]
  | some n =>
    obtain ⟨hmem, hall⟩ := searchNearestTimer_some hs
    have hw : p.wait now timeout = some (timeMissing n.when now) := wait_some hs (Int.ne_of_gt ht)
    have hle : ∀ te ∈ p.events, n.when.since now ≤ te.when.since now :=
      fun te hte => Time.since_mono (hp n hmem) (hp te hte) (hall te hte)
    constructor
    case mp =>
      rintro ⟨tv, hv, hto, hlive⟩ m hm
      obtain rfl : n = m := Option.some.inj (hs.symm.trans hm)
      obtain rfl : timeMissing n.when now = tv := Option.some.inj (hw.symm.trans hv)
      by_cases h0 : 0 ≤ n.when.since now
      · rw [timeMissing_future (hp n hmem) hn h0] at hto
        exact Or.inl ⟨h0, by omega⟩
      · have hneg : n.when.since now < 0 := by omega
        rw [timeMissing_overdue (hp n hmem) hn hneg] at hto hlive
        refine Or.inr ⟨hneg, ?_⟩
        by_cases hr : n.when.since now % 1000 = 0
        · exact Or.inl hr
        · refine Or.inr ⟨by omega, fun te hte hid => ?_⟩
          have hl := hlive te hte hid
          omega
    case mpr =>
      intro h
      refine ⟨_, hw, ?_⟩
      rcases h n hs with ⟨h0, hto⟩ | ⟨hneg, hr⟩
      · rw [timeMissing_future (hp n hmem) hn h0]
        refine ⟨by omega, fun te hte _ => ?_⟩
        have hl := hle te hte
        omega
      · rw [timeMissing_overdue (hp n hmem) hn hneg]
        rcases hr with hr | ⟨hto, hlive⟩
        · rw [hr]
          exact ⟨by omega, fun te _ _ => by omega⟩
        · refine ⟨by omega, fun te hte hid => ?_⟩
          have hl := hlive te hte hid
          omega

/-- Timer 0 is overdue by two seconds, timer 1 is due in a second. -/
theorem wait_in_time_overdue :
    (⟨2, 0, [⟨some 1, ⟨7, 100⟩, (), 1⟩, ⟨some 0, ⟨4, 100⟩, (), 0⟩]⟩ : TimeEvents Unit).WaitsInTime
      ⟨6, 100⟩ 3000 := by
  refine (wait_in_time_iff ?_ ?_ ?_).mpr ?_
  · simp [Normal, Time.Normal]
  · simp [Time.Normal]
  · decide
  · intro n hn
    obtain rfl : ⟨some 0, ⟨4, 100⟩, (), 0⟩ = n := Option.some.inj hn
    simp [Time.since]

/-- The only timer is overdue by 200 ms, and the wait is 800 ms. -/
theorem waits_overdue : ¬ (⟨1, 0, [⟨some 0, ⟨5, 900⟩, (), 0⟩]⟩ : TimeEvents Unit).WaitsInTime
    ⟨6, 100⟩ 3000 := by
  rintro ⟨tv, hv, -, hl⟩
  obtain rfl : ⟨0, 800000⟩ = tv := Option.some.inj hv
  have hw := hl ⟨some 0, ⟨5, 900⟩, (), 0⟩ (by simp) (by simp)
  simp only [TimeVal.micros, Time.since] at hw
  omega

/-- A pass changes no due time, since `timeEventProc` asks for no other call. -/
theorem mem_processLoop {maxId : ℤ} {k : ℕ} {kept skipped : List (TimeEvent F)}
    (h : te ∈ (processLoop maxId clock k kept skipped l).1) :
    ∃ a ∈ kept ++ skipped ++ l, te.when = a.when := by
  induction l generalizing k kept skipped with
  | nil => exact ⟨te, by simpa [processLoop] using h, rfl⟩
  | cons b rest ih =>
    have hsub : ∀ {k' kept' skipped'}, te ∈ (processLoop maxId clock k' kept' skipped' rest).1 →
        (∀ a ∈ kept' ++ skipped', ∃ c ∈ kept ++ skipped ++ [b], a.when = c.when) →
        ∃ c ∈ kept ++ skipped ++ b :: rest, te.when = c.when := by
      intro k' kept' skipped' hte hk
      obtain ⟨a, ha, he⟩ := ih hte
      rcases List.mem_append.mp ha with ha | ha
      · obtain ⟨c, hc, hw⟩ := hk a ha
        refine ⟨c, ?_, he.trans hw⟩
        simp only [List.mem_append, List.mem_cons] at hc ⊢
        tauto
      · exact ⟨a, by simp [ha], he⟩
    unfold processLoop at h
    split at h
    · exact hsub h fun a ha => ⟨a, by simp at ha ⊢; tauto, rfl⟩
    · split at h
      · exact hsub h fun a ha => ⟨a, by simp at ha ⊢; tauto, rfl⟩
      · split at h
        · refine hsub h fun a ha => ?_
          have ha : a ∈ kept ++ skipped ∨ a = { b with id := none } := by simpa [or_assoc] using ha
          rcases ha with ha | rfl
          · exact ⟨a, by simp at ha ⊢; tauto, rfl⟩
          · exact ⟨b, by simp, rfl⟩
        · exact hsub h fun a ha => ⟨a, by simpa [or_assoc] using ha, rfl⟩

/-- The operations on the list keep due times normal: they come from the clock, or from an event
whose seconds are set to 0. -/
theorem Normal.timeEventCreate {f : F} (h : p.Normal) (hn : now.Normal) (hm : 0 ≤ milliseconds) :
    (p.timeEventCreate now milliseconds f).Normal := by
  intro te hte
  rcases List.mem_cons.mp hte with rfl | hte
  · exact Time.addMilliseconds_normal hn hm
  · exact h te hte

theorem Normal.timeEventDelete {i : ℕ} (h : p.Normal) : (p.timeEventDelete i).Normal := by
  intro u hu
  obtain ⟨te, hte, rfl | ⟨_, rfl⟩⟩ := mem_markDeleted hu
  · exact h u hte
  · exact h te hte

theorem Normal.timeFireAll (h : p.Normal) (hn : now.Normal) : (p.timeFireAll now).Normal := by
  intro u hu
  obtain ⟨te, hte, rfl⟩ := List.mem_map.mp hu
  split
  · exact h te hte
  · exact hn

theorem Normal.processTimeEvents (h : p.Normal) : (p.processTimeEvents clock).1.Normal := by
  intro u hu
  obtain ⟨te, hte, he⟩ := mem_processLoop hu
  obtain ⟨a, ha, rfl⟩ := List.mem_map.mp (by simpa using hte)
  rw [he]
  unfold TimeEvents.start
  split <;> exact h a ha

end TimeEvents

end CxxFiber.EcoAe
