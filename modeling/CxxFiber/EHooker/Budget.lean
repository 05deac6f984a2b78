import CxxFiber.EHooker.CommIo
import CxxFiber.Library.Turns

/-! How long `comm_io_on_fiber` is parked in all, over its retries. -/
namespace CxxFiber.EHooker.Budget

open CommIo Turns

/-- What one turn meets: for how many milliseconds the descriptor is not ready, if it gets ready at
all, and what `fn` then returns. -/
structure Wake where
  ready : Option ℕ
  fn : Result
  deriving DecidableEq, Repr

/-- The descriptor is ready before the timer fires. -/
def Wake.InTime (w : Wake) (timeout : ℕ) : Prop := ∃ t < timeout, w.ready = some t

/-- One turn, from `RETRY` on, with the time parked so far; every `poll` has the whole timeout. -/
def turn (timeout parked : ℕ) (w : Wake) : ℕ ⊕ ℕ × Result :=
  match w.ready with
  | none => .inr (parked + timeout, .error .etimedout)
  | some t =>
    if t < timeout then
      if w.fn.again then .inl (parked + t) else .inr (parked + t, w.fn)
    else .inr (parked + timeout, .error .etimedout)

/-- The outcomes of the turn: a descriptor that is ready at once does not park the fiber. -/
def Wake.events (w : Wake) (timeout : ℕ) : List Event :=
  match w.ready with
  | none => [.park, .resumed false]
  | some t =>
    if t < timeout then
      if t = 0 then [.polled true, .fn w.fn] else [.park, .resumed true, .fn w.fn]
    else [.park, .resumed false]

/-- The loop after `n` turns: the time parked so far, or in all, with the result. -/
def exec (io : CommIo) (wakes : ℕ → Wake) (n : ℕ) : ℕ ⊕ ℕ × Result :=
  after (turn io.milliseconds.toNat) wakes 0 n

/-- The waits share the timeout: the loop goes on only with some of it left, and what it has spent
when it gives up is no more. -/
structure Shared (io : CommIo) (wakes : ℕ → Wake) : Prop where
  goes_on : ∀ n parked, exec io wakes n = .inl parked → (parked : ℤ) < io.milliseconds
  gives_up : ∀ n parked r, exec io wakes n = .inr (parked, r) →
    (parked : ℤ) ≤ io.milliseconds ∧ r = .error .etimedout

/-- The time that the descriptor takes to get ready, summed up over the first turns. -/
def spent (wakes : ℕ → Wake) : ℕ → ℕ
  | 0 => 0
  | n + 1 => spent wakes n + (wakes n).ready.getD 0

/-- Turns that are all in time spend less than the timeout together, and those before one that is
not spend nothing. -/
structure Spare (io : CommIo) (wakes : ℕ → Wake) : Prop where
  in_time : ∀ n, (∀ m ≤ n, (wakes m).InTime io.milliseconds.toNat) →
    (spent wakes (n + 1) : ℤ) < io.milliseconds
  late : ∀ n, (∀ m < n, (wakes m).InTime io.milliseconds.toNat) →
    ¬ (wakes n).InTime io.milliseconds.toNat → ∀ m < n, (wakes m).ready = some 0

variable {io : CommIo} {wakes : ℕ → Wake} {w : Wake} {timeout parked n : ℕ}

/-- A turn is a way through the loop of `comm_io_on_fiber`. -/
theorem turn_next : (w.events timeout).foldlM Pc.next .poll =
    some ((turn timeout parked w).elim (fun _ => .poll) fun x => .returned x.2) := by
  unfold Wake.events turn
  cases w.ready with
  | none => rfl
  | some t =>
    by_cases ht : t < timeout
    · by_cases h0 : t = 0
      · subst h0
        cases hr : w.fn.again <;> simp [ht, hr, Pc.next]
      · cases hr : w.fn.again <;> simp [ht, h0, hr, Pc.next]
    · simp [ht, Pc.next]

theorem turn_inTime (hw : w.InTime timeout) (ha : w.fn.again = true) :
    turn timeout parked w = .inl (parked + w.ready.getD 0) := by
  obtain ⟨t, ht, hr⟩ := hw
  simp [turn, hr, ht, ha]

theorem turn_late (hw : ¬ w.InTime timeout) :
    turn timeout parked w = .inr (parked + timeout, .error .etimedout) := by
  unfold turn
  cases hr : w.ready with
  | none => rfl
  | some t =>
    have ht : ¬ t < timeout := fun ht => hw ⟨t, ht, hr⟩
    simp [ht]

/-- The loop goes on as long as all turns are in time, and has then spent what they took. -/
theorem exec_inl (ha : ∀ n, (wakes n).fn.again = true)
    (hw : ∀ m < n, (wakes m).InTime io.milliseconds.toNat) :
    exec io wakes n = .inl (spent wakes n) := by
  induction n with
  | zero => rfl
  | succ n ih =>
    have hn := ih fun m hm => hw m (Nat.lt_succ_of_lt hm)
    exact (after_succ hn).trans (turn_inTime (hw n n.lt_succ_self) (ha n))

theorem inTime_of_exec_inl (h : exec io wakes n = .inl parked) :
    ∀ m < n, (wakes m).InTime io.milliseconds.toNat := by
  intro m hm
  obtain ⟨p, hp⟩ := after_inl_of_le h (Nat.succ_le_of_lt hm)
  obtain ⟨q, _, hturn⟩ := after_inl_succ hp
  by_contra hlate
  rw [turn_late hlate] at hturn
  cases hturn

theorem spent_eq_zero : spent wakes n = 0 ↔ ∀ m < n, (wakes m).ready.getD 0 = 0 := by
  induction n with
  | zero => simp [spent]
  | succ n ih =>
    rw [spent, Nat.add_eq_zero_iff, ih]
    constructor
    · rintro ⟨h, h'⟩ m hm
      rcases Nat.lt_succ_iff_lt_or_eq.mp hm with hlt | rfl
      · exact h m hlt
      · exact h'
    · exact fun h => ⟨fun m hm => h m (Nat.lt_succ_of_lt hm), h n n.lt_succ_self⟩

theorem spare_of_shared (hpos : 0 < io.milliseconds) (ha : ∀ n, (wakes n).fn.again = true)
    (h : Shared io wakes) : Spare io wakes := by
  refine ⟨fun n hw => ?_, fun n hw hlate => ?_⟩
  · exact h.goes_on (n + 1) _ (exec_inl ha fun m hm => hw m (Nat.le_of_lt_succ hm))
  · have hend : exec io wakes (n + 1) = .inr (spent wakes n + io.milliseconds.toNat, _) :=
      (after_succ (exec_inl ha hw)).trans (turn_late hlate)
    have hle := (h.gives_up _ _ _ hend).1
    have hzero : spent wakes n = 0 := by omega
    intro m hm
    obtain ⟨t, _, hready⟩ := hw m hm
    have hm0 := spent_eq_zero.mp hzero m hm
    rw [hready, Option.getD_some] at hm0
    rw [hready, hm0]

theorem shared_of_spare (hpos : 0 < io.milliseconds) (ha : ∀ n, (wakes n).fn.again = true)
    (h : Spare io wakes) : Shared io wakes := by
  refine ⟨fun n parked hexec => ?_, fun n parked r hexec => ?_⟩
  · have hw := inTime_of_exec_inl hexec
    obtain rfl := Sum.inl.inj ((exec_inl ha hw).symm.trans hexec)
    cases n with
    | zero => exact hpos
    | succ n => exact h.in_time n fun m hm => hw m (Nat.lt_succ_of_le hm)
  · obtain ⟨m, p, _, hgo, hturn⟩ := after_inr hexec
    have hw := inTime_of_exec_inl hgo
    by_cases hlate : (wakes m).InTime io.milliseconds.toNat
    · rw [turn_inTime hlate (ha m)] at hturn
      cases hturn
    · obtain rfl := Sum.inl.inj ((exec_inl ha hw).symm.trans hgo)
      have hzero : spent wakes m = 0 :=
        spent_eq_zero.mpr fun k hk => by rw [h.late m hw hlate k hk, Option.getD_some]
      rw [turn_late hlate, hzero] at hturn
      cases hturn
      exact ⟨by omega, rfl⟩

/-- With readiness that is gone by the time of the call again and again, the waits share one timeout
exactly when nothing is spent before a wait that takes all of it, and otherwise less in all. -/
theorem shared_iff (io : CommIo) (hpos : 0 < io.milliseconds) (wakes : ℕ → Wake)
    (ha : ∀ n, (wakes n).fn.again = true) : Shared io wakes ↔ Spare io wakes :=
  ⟨spare_of_shared hpos ha, shared_of_spare hpos ha⟩

/-- A read with a timeout of 100 that is woken for nothing after 60, and then not again. -/
theorem woken_once_shared_iff :
    Shared ⟨3, ⟨true, false⟩, 100, 0⟩ (fun n => ⟨if n = 0 then some 60 else none, .error .eagain⟩) ↔
      Spare ⟨3, ⟨true, false⟩, 100, 0⟩
        fun n => ⟨if n = 0 then some 60 else none, .error .eagain⟩ :=
  shared_iff ⟨3, ⟨true, false⟩, 100, 0⟩ (by decide)
    (fun n => ⟨if n = 0 then some 60 else none, .error .eagain⟩) fun _ => rfl

/-- Woken for nothing every 60 milliseconds, a read with a timeout of 100 is still parked after 600,
and woken so once it gives up after 160. -/
theorem waits_add_up :
    exec ⟨3, ⟨true, false⟩, 100, 0⟩ (fun _ => ⟨some 60, .error .eagain⟩) 10 = .inl 600 ∧
      exec ⟨3, ⟨true, false⟩, 100, 0⟩
        (fun n => ⟨if n = 0 then some 60 else none, .error .eagain⟩) 2 =
          .inr (160, .error .etimedout) ∧
      ¬ Shared ⟨3, ⟨true, false⟩, 100, 0⟩ (fun _ => ⟨some 60, .error .eagain⟩) := by
  refine ⟨by decide, by decide, fun h => ?_⟩
  have hlt := h.goes_on 10 600 (by decide)
  exact absurd hlt (by decide)

end CxxFiber.EHooker.Budget
