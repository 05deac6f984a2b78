import CxxFiber.EcoAe.TimeEvents
import CxxFiber.Library.Runs

/-! The timers of an `EIoWaiter` through runs of `setupTimer`, `cancelTimer`, `interrupt` and passes
of the event loop. -/
namespace CxxFiber.Timers

open EcoAe Transition

/-- What has happened to a timer. Passes are numbered from 1; a call of `cancelTimer` is dated by
the number of passes that have started before it, and so is `ended`, when the timer has fired or has
been cancelled, whichever came first. `touched` says that a pass has seen the clock go back, or that
all timers have been fired, since the timer was set up. -/
structure History where
  due : Time
  touched : Bool
  ended : Option ℕ
  fired : List (ℕ × Time)
  cancelled : List ℕ
  finalized : List ℕ

namespace History

def cancel (h : History) (n : ℕ) : History :=
  { h with ended := h.ended.or (some n), cancelled := n :: h.cancelled }

/-- What the pass `n` with these calls does to the timer `i`. -/
def pass (h : History) (n : ℕ) (back : Bool) (calls : List TimeCall) (i : ℕ) : History :=
  { h with
    touched := h.touched || back
    ended := if firings i calls = [] then h.ended else h.ended.or (some n)
    fired := (firings i calls).map (fun now => (n, now)) ++ h.fired
    finalized := List.replicate (finalizations i calls) n ++ h.finalized }

end History

structure State (F : Type) where
  poll : TimeEvents F
  passes : ℕ
  history : ℕ → History

variable {F : Type}

namespace State

variable (s : State F)

def setupTimer (now : Time) (timeout : ℤ) (f : F) : State F :=
  { s with
    poll := s.poll.timeEventCreate now timeout f
    history := Function.update s.history s.poll.timeEventNextId
      ⟨now.addMilliseconds timeout, false, none, [], [], []⟩ }

def cancelTimer (id : ℕ) : State F :=
  { s with
    poll := s.poll.timeEventDelete id
    history := Function.update s.history id ((s.history id).cancel s.passes) }

/-- `EIoWaiter::interrupt`. -/
def interrupt (now : Time) : State F :=
  { s with
    poll := s.poll.timeFireAll now
    history := fun i => { s.history i with touched := true } }

/-- The time events of `eco_poll_process_events`. -/
def pass (clock : ℕ → Time) : State F where
  poll := (s.poll.processTimeEvents clock).1
  passes := s.passes + 1
  history i := (s.history i).pass (s.passes + 1) (s.poll.seesBack (clock 0))
    (s.poll.processTimeEvents clock).2 i

end State

inductive Act (F : Type)
  | setupTimer (now : Time) (timeout : ℤ) (f : F)
  | cancelTimer (id : ℕ)
  | interrupt (now : Time)
  | pass (clock : ℕ → Time)

/-- The clock does not go back within a pass. -/
inductive Step : State F → Act F → State F → Prop
  | setupTimer {s : State F} {now : Time} {timeout : ℤ} {f : F} :
      Step s (.setupTimer now timeout f) (s.setupTimer now timeout f)
  | cancelTimer {s : State F} {id : ℕ} : Step s (.cancelTimer id) (s.cancelTimer id)
  | interrupt {s : State F} {now : Time} : Step s (.interrupt now) (s.interrupt now)
  | pass {s : State F} {clock : ℕ → Time} (hm : ∀ k, clock k ≤ clock (k + 1)) :
      Step s (.pass clock) (s.pass clock)

structure Initial (s : State F) : Prop where
  next : s.poll.timeEventNextId = 0
  events : s.poll.events = []

/-- The pass sees the clock go back, to the first second of its count or before. -/
def BackToZero (s : State F) (clock : ℕ → Time) : Prop :=
  s.poll.seesBack (clock 0) = true ∧ (clock 0).sec ≤ 0

/-- At most one firing, none in a pass after a cancellation, none before the due time but of a
touched timer; and one finalization, in the first pass after the end. -/
structure Lawful (n : ℕ) (h : History) : Prop where
  once : h.fired.length ≤ 1
  cancelled : ∀ p ∈ h.fired, ∀ c ∈ h.cancelled, p.1 ≤ c
  early : ∀ p ∈ h.fired, ¬ h.due ≤ p.2 → h.touched = true
  past : (∀ e, h.ended = some e → e ≤ n) ∧ ∀ p ∈ h.fired, p.1 ≤ n
  ended : ∀ e, h.ended = some e → (∃ now, (e, now) ∈ h.fired) ∨ e ∈ h.cancelled
  first : ∀ e, h.ended = some e → (∀ p ∈ h.fired, e ≤ p.1) ∧ ∀ c ∈ h.cancelled, e ≤ c
  live : h.ended = none → h.fired = [] ∧ h.cancelled = [] ∧ h.finalized = []
  finalized : ∀ e, h.ended = some e → h.finalized = if e < n then [e + 1] else []

/-- What a step does to a live timer: it fires in a pass that finds it due, and unless it is
cancelled or fires, it stays as it is. -/
structure Followed (s : State F) (a : Act F) (t : State F) (te : TimeEvent F) (i : ℕ) : Prop where
  due : (s.history i).touched = false → te.when = (s.history i).due
  fires : ∀ clock, a = .pass clock → te.when ≤ clock 0 → ¬ BackToZero s clock →
    ∃ now, (t.passes, now) ∈ (t.history i).fired
  stays : a ≠ .cancelTimer i → (∀ now, (t.passes, now) ∉ (t.history i).fired) →
    ∃ u ∈ t.poll.events, u.id = some i ∧ u.clientData = te.clientData ∧
      (u.when = te.when ∨ (∃ now, a = .interrupt now) ∨
        ∃ clock, a = .pass clock ∧ BackToZero s clock)

/-- Where a timer is: in the list with its id, marked there since the last pass, or unlinked by the
first pass after its end. -/
inductive Place (s : State F) (i : ℕ) : Prop
  | live (te : TimeEvent F) (hte : te ∈ s.poll.events) (hi : te.serial = i) (hid : te.id = some i)
      (he : (s.history i).ended = none)
      (hd : (s.history i).touched = false → te.when = (s.history i).due)
  | marked (te : TimeEvent F) (hte : te ∈ s.poll.events) (hi : te.serial = i) (hid : te.id = none)
      (he : (s.history i).ended = some s.passes)
  | gone (hi : i ∉ s.poll.events.map (·.serial)) (e : ℕ) (he : (s.history i).ended = some e)
      (hlt : e < s.passes)

structure Kept (s : State F) : Prop where
  nodup : (s.poll.events.map (·.serial)).Nodup
  old : ∀ te ∈ s.poll.events, te.serial < s.poll.timeEventNextId
  id : ∀ te ∈ s.poll.events, ∀ id, te.id = some id → te.serial = id
  place : ∀ i, i < s.poll.timeEventNextId → Place s i
  lawful : ∀ i, i < s.poll.timeEventNextId → Lawful s.passes (s.history i)

variable {s t : State F} {a : Act F} {as : List (Act F)} {te u : TimeEvent F} {i n id : ℕ}
  {now : Time} {timeout : ℤ} {f : F} {clock : ℕ → Time} {h : History}

theorem kept_initial (h : Initial s) : Kept s := by
  refine ⟨?_, ?_, ?_, ?_, ?_⟩
  · rw [h.events]
    exact List.nodup_nil
  · rw [h.events]
    exact fun te hte => absurd hte List.not_mem_nil
  · rw [h.events]
    exact fun te hte => absurd hte List.not_mem_nil
  · intro i hi
    rw [h.next] at hi
    omega
  · intro i hi
    rw [h.next] at hi
    omega

/-- A serial number names one event. -/
theorem Kept.unique (hs : Kept s) (hte : te ∈ s.poll.events) (hu : u ∈ s.poll.events)
    (h : te.serial = u.serial) : te = u := List.inj_on_of_nodup_map hs.nodup hte hu h

theorem lawful_new {due : Time} : Lawful n ⟨due, false, none, [], [], []⟩ where
  once := Nat.zero_le 1
  cancelled _ hp := absurd hp List.not_mem_nil
  early _ hp := absurd hp List.not_mem_nil
  past := ⟨fun e he => (Option.some_ne_none e he.symm).elim, fun _ hp => absurd hp List.not_mem_nil⟩
  ended e he := (Option.some_ne_none e he.symm).elim
  first e he := (Option.some_ne_none e he.symm).elim
  live _ := ⟨rfl, rfl, rfl⟩
  finalized e he := (Option.some_ne_none e he.symm).elim

theorem Lawful.touch (hl : Lawful n h) : Lawful n { h with touched := true } :=
  ⟨hl.once, hl.cancelled, fun _ _ _ => rfl, hl.past, hl.ended, hl.first, hl.live, hl.finalized⟩

/-- A cancellation ends a live timer, and comes too late for any other. -/
theorem Lawful.cancel (hl : Lawful n h) : Lawful n (h.cancel n) := by
  cases he : h.ended with
  | none =>
    obtain ⟨hf, hc, hz⟩ := hl.live he
    have hend : (h.cancel n).ended = some n := by simp [History.cancel, he]
    have hfired : (h.cancel n).fired = [] := hf
    have hcancelled : (h.cancel n).cancelled = [n] := by rw [History.cancel, hc]
    constructor
    case once => exact hl.once
    case cancelled =>
      intro p hp
      rw [hfired] at hp
      exact absurd hp List.not_mem_nil
    case early => exact hl.early
    case past =>
      refine ⟨?_, hl.past.2⟩
      intro e h'
      obtain rfl := Option.some.inj (hend.symm.trans h')
      exact Nat.le_refl n
    case ended =>
      intro e h'
      obtain rfl := Option.some.inj (hend.symm.trans h')
      exact Or.inr List.mem_cons_self
    case first =>
      intro e h'
      obtain rfl := Option.some.inj (hend.symm.trans h')
      refine ⟨fun p hp => ?_, fun c hc' => ?_⟩
      · rw [hfired] at hp
        exact absurd hp List.not_mem_nil
      · rw [hcancelled] at hc'
        exact Nat.le_of_eq (List.mem_singleton.mp hc').symm
    case live =>
      intro h'
      rw [hend] at h'
      cases h'
    case finalized =>
      intro e h'
      obtain rfl := Option.some.inj (hend.symm.trans h')
      rw [if_neg (Nat.lt_irrefl n)]
      exact hz
  | some e₀ =>
    have hend : (h.cancel n).ended = some e₀ := by simp [History.cancel, he]
    constructor
    case once => exact hl.once
    case cancelled =>
      intro p hp c hc
      rcases List.mem_cons.mp hc with rfl | hc
      · exact hl.past.2 p hp
      · exact hl.cancelled p hp c hc
    case early => exact hl.early
    case past =>
      refine ⟨?_, hl.past.2⟩
      intro e h'
      obtain rfl := Option.some.inj (hend.symm.trans h')
      exact hl.past.1 e₀ he
    case ended =>
      intro e h'
      obtain rfl := Option.some.inj (hend.symm.trans h')
      rcases hl.ended e₀ he with hf | hc
      · exact Or.inl hf
      · exact Or.inr (List.mem_cons_of_mem _ hc)
    case first =>
      intro e h'
      obtain rfl := Option.some.inj (hend.symm.trans h')
      refine ⟨(hl.first e₀ he).1, fun c hc => ?_⟩
      rcases List.mem_cons.mp hc with rfl | hc
      · exact hl.past.1 e₀ he
      · exact (hl.first e₀ he).2 c hc
    case live =>
      intro h'
      rw [hend] at h'
      cases h'
    case finalized =>
      intro e h'
      obtain rfl := Option.some.inj (hend.symm.trans h')
      exact hl.finalized e₀ he

section Pass

variable {calls : List TimeCall} {back : Bool}

theorem Lawful.past_succ (hl : Lawful n h) :
    (∀ e, h.ended = some e → e ≤ n + 1) ∧ ∀ p ∈ h.fired, p.1 ≤ n + 1 :=
  ⟨fun e he => Nat.le_succ_of_le (hl.past.1 e he), fun p hp => Nat.le_succ_of_le (hl.past.2 p hp)⟩

theorem Lawful.early_pass (hl : Lawful n h) :
    ∀ p ∈ h.fired, ¬ h.due ≤ p.2 → (h.touched || back) = true := by
  intro p hp hd
  rw [hl.early p hp hd, Bool.true_or]

/-- A pass that does not call the timer. -/
theorem Lawful.pass_kept (hl : Lawful n h) (he : ∀ e, h.ended = some e → e < n)
    (hf : firings i calls = []) (hz : finalizations i calls = 0) :
    Lawful (n + 1) (h.pass (n + 1) back calls i) := by
  have heq : h.pass (n + 1) back calls i = { h with touched := h.touched || back } := by
    simp [History.pass, hf, hz]
  rw [heq]
  refine ⟨hl.once, hl.cancelled, hl.early_pass, hl.past_succ, hl.ended, hl.first, hl.live, ?_⟩
  · intro e h'
    have hlt := he e h'
    rw [if_pos (by omega)]
    exact (hl.finalized e h').trans (if_pos hlt)

/-- A pass that fires a live timer. -/
theorem Lawful.pass_fired (hl : Lawful n h) (he : h.ended = none) (hf : firings i calls = [now])
    (hz : finalizations i calls = 0) (hd : ¬ h.due ≤ now → (h.touched || back) = true) :
    Lawful (n + 1) (h.pass (n + 1) back calls i) := by
  obtain ⟨hf₀, hc, hz₀⟩ := hl.live he
  have heq : h.pass (n + 1) back calls i =
      ⟨h.due, h.touched || back, some (n + 1), [(n + 1, now)], [], []⟩ := by
    simp [History.pass, hf, hz, he, hf₀, hc, hz₀]
  rw [heq]
  constructor
  case once => exact Nat.le_refl 1
  case cancelled => exact fun p _ c hc => absurd hc List.not_mem_nil
  case early =>
    intro p hp hdue
    rw [List.mem_singleton.mp hp] at hdue
    exact hd hdue
  case past =>
    refine ⟨?_, ?_⟩
    · intro e h'
      exact Nat.le_of_eq (Option.some.inj h').symm
    · intro p hp
      exact Nat.le_of_eq (congrArg Prod.fst (List.mem_singleton.mp hp))
  case ended =>
    intro e h'
    rw [← Option.some.inj h']
    exact Or.inl ⟨now, List.mem_cons_self⟩
  case first =>
    intro e h'
    rw [← Option.some.inj h']
    refine ⟨fun p hp => ?_, fun c hc => absurd hc List.not_mem_nil⟩
    exact Nat.le_of_eq (congrArg Prod.fst (List.mem_singleton.mp hp)).symm
  case live =>
    intro h'
    cases h'
  case finalized =>
    intro e h'
    rw [← Option.some.inj h', if_neg (Nat.lt_irrefl _)]

/-- The first pass after the end finalizes the timer. -/
theorem Lawful.pass_unlinked (hl : Lawful n h) (he : h.ended = some n)
    (hf : firings i calls = []) (hz : finalizations i calls = 1) :
    Lawful (n + 1) (h.pass (n + 1) back calls i) := by
  have hz₀ : h.finalized = [] := (hl.finalized n he).trans (if_neg (Nat.lt_irrefl n))
  have heq : h.pass (n + 1) back calls i =
      { h with touched := h.touched || back, finalized := [n + 1] } := by
    simp [History.pass, hf, hz, hz₀]
  rw [heq]
  refine ⟨hl.once, hl.cancelled, hl.early_pass, hl.past_succ, hl.ended, hl.first, ?_, ?_⟩
  · intro h'
    have hnone : h.ended = none := h'
    rw [hnone] at he
    cases he
  · intro e h'
    obtain rfl := Option.some.inj (he.symm.trans h')
    rw [if_pos (Nat.lt_succ_self n)]

end Pass

theorem kept_setupTimer (hs : Kept s) : Kept (s.setupTimer now timeout f) := by
  have hnew : s.poll.timeEventNextId ∉ s.poll.events.map (·.serial) := by
    intro hmem
    obtain ⟨te, hte, heq⟩ := List.mem_map.mp hmem
    have hlt := hs.old te hte
    have heq : te.serial = s.poll.timeEventNextId := heq
    omega
  have hold : ∀ i, i < s.poll.timeEventNextId →
      (s.setupTimer now timeout f).history i = s.history i := by
    intro i hi
    exact Function.update_of_ne (Nat.ne_of_lt hi) ..
  have hself : (s.setupTimer now timeout f).history s.poll.timeEventNextId =
      ⟨now.addMilliseconds timeout, false, none, [], [], []⟩ := Function.update_self ..
  refine ⟨List.nodup_cons.mpr ⟨hnew, hs.nodup⟩, ?_, ?_, ?_, ?_⟩
  · intro te hte
    change te.serial < s.poll.timeEventNextId + 1
    rcases List.mem_cons.mp hte with rfl | hte
    · exact Nat.lt_succ_self _
    · exact Nat.lt_succ_of_lt (hs.old te hte)
  · intro te hte id hid
    rcases List.mem_cons.mp hte with rfl | hte
    · exact Option.some.inj hid
    · exact hs.id te hte id hid
  · intro i hi
    rcases Nat.lt_or_eq_of_le (Nat.le_of_lt_succ hi) with hi | rfl
    · cases hs.place i hi with
      | live te hte hser hid he hd =>
        exact .live te (List.mem_cons_of_mem _ hte) hser hid (by rw [hold i hi, he])
          (by rw [hold i hi]; exact hd)
      | marked te hte hser hid he =>
        exact .marked te (List.mem_cons_of_mem _ hte) hser hid (by rw [hold i hi]; exact he)
      | gone hmem e he hlt =>
        refine .gone ?_ e (by rw [hold i hi, he]) hlt
        intro h'
        rcases List.mem_cons.mp h' with heq | h'
        · exact Nat.ne_of_lt hi heq
        · exact hmem h'
    · exact .live _ List.mem_cons_self rfl rfl (by rw [hself]) (by rw [hself]; exact fun _ => rfl)
  · intro i hi
    rcases Nat.lt_or_eq_of_le (Nat.le_of_lt_succ hi) with hi | rfl
    · rw [hold i hi]
      exact hs.lawful i hi
    · rw [hself]
      exact lawful_new

theorem kept_cancelTimer (hs : Kept s) : Kept (s.cancelTimer id) := by
  have hold : ∀ i, i ≠ id → (s.cancelTimer id).history i = s.history i := by
    intro i hi
    exact Function.update_of_ne hi ..
  have hself : (s.cancelTimer id).history id = (s.history id).cancel s.passes :=
    Function.update_self ..
  have hser : (s.cancelTimer id).poll.events.map (·.serial) = s.poll.events.map (·.serial) :=
    markDeleted_serials
  refine ⟨by rw [hser]; exact hs.nodup, ?_, ?_, ?_, ?_⟩
  · intro u hu
    obtain ⟨te, hte, h⟩ := mem_markDeleted hu
    rcases h with rfl | ⟨-, rfl⟩
    · exact hs.old u hte
    · exact hs.old te hte
  · intro u hu j hj
    obtain ⟨te, hte, h⟩ := mem_markDeleted hu
    rcases h with rfl | ⟨-, rfl⟩
    · exact hs.id u hte j hj
    · cases hj
  · intro i hi
    by_cases hid' : i = id
    · subst hid'
      cases hs.place i hi with
      | live te hte hserial hid he hd =>
        have hmark := marked_mem_markDeleted hte hid fun u hu huid =>
          hs.unique hu hte ((hs.id u hu i huid).trans hserial.symm)
        refine .marked _ hmark hserial rfl ?_
        rw [hself]
        simp [History.cancel, he, State.cancelTimer]
      | marked te hte hserial hid he =>
        refine .marked te (mem_markDeleted_of_ne _ hte (by simp [hid]))
          hserial hid ?_
        rw [hself]
        simp [History.cancel, he, State.cancelTimer]
      | gone hmem e he hlt =>
        refine .gone (by rwa [hser]) e ?_ hlt
        rw [hself]
        simp [History.cancel, he]
    · cases hs.place i hi with
      | live te hte hserial hid he hd =>
        have hmem := mem_markDeleted_of_ne id hte (by rw [hid]; simpa using hid')
        exact .live te hmem hserial hid (by rw [hold i hid', he]) (by rw [hold i hid']; exact hd)
      | marked te hte hserial hid he =>
        have hmem := mem_markDeleted_of_ne id hte (by simp [hid])
        exact .marked te hmem hserial hid (by rw [hold i hid']; exact he)
      | gone hmem e he hlt => exact .gone (by rwa [hser]) e (by rw [hold i hid', he]) hlt
  · intro i hi
    by_cases hid' : i = id
    · rw [hid', hself]
      exact (hs.lawful id (hid' ▸ hi)).cancel
    · rw [hold i hid']
      exact hs.lawful i hi

theorem kept_interrupt (hs : Kept s) : Kept (s.interrupt now) := by
  have hevents : (s.interrupt now).poll.events =
      s.poll.events.map fun te => if te.id = none then te else { te with when := now } := rfl
  have hser : (s.interrupt now).poll.events.map (·.serial) = s.poll.events.map (·.serial) := by
    rw [hevents, List.map_map]
    refine List.map_congr_left fun te _ => ?_
    simp only [Function.comp_apply]
    split <;> rfl
  refine ⟨by rw [hser]; exact hs.nodup, ?_, ?_, ?_, fun i hi => (hs.lawful i hi).touch⟩
  · intro u hu
    have hmem : u.serial ∈ (s.interrupt now).poll.events.map (·.serial) := List.mem_map_of_mem hu
    rw [hser] at hmem
    obtain ⟨te, hte, heq⟩ := List.mem_map.mp hmem
    have := hs.old te hte
    have heq : te.serial = u.serial := heq
    change u.serial < s.poll.timeEventNextId
    omega
  · intro u hu j hj
    rw [hevents] at hu
    obtain ⟨te, hte, rfl⟩ := List.mem_map.mp hu
    split at hj
    · next hnone =>
      rw [hnone] at hj
      cases hj
    · next hid =>
      rw [if_neg hid]
      exact hs.id te hte j hj
  · intro i hi
    cases hs.place i hi with
    | live te hte hserial hid he hd =>
      refine .live { te with when := now } ?_ hserial hid he fun h' => by cases h'
      rw [hevents]
      exact List.mem_map.mpr ⟨te, hte, by simp [hid]⟩
    | marked te hte hserial hid he =>
      refine .marked te ?_ hserial hid he
      rw [hevents]
      exact List.mem_map.mpr ⟨te, hte, by simp [hid]⟩
    | gone hmem e he hlt => exact .gone (by rwa [hser]) e he hlt

/-- The events that a pass starts with, once it has checked the clock. -/
def started (s : State F) (clock : ℕ → Time) : List (TimeEvent F) :=
  s.poll.events.map (s.poll.start (clock 0))

theorem started_serials : (started s clock).map (·.serial) = s.poll.events.map (·.serial) := by
  rw [started, List.map_map]
  exact List.map_congr_left fun te _ => TimeEvents.start_serial

theorem Kept.processTimeEvents_eq (hs : Kept s) : s.poll.processTimeEvents clock =
    ({ s.poll with lastTime := (clock 0).sec, events := (sweep clock 1 (started s clock)).1 },
      (sweep clock 1 (started s clock)).2) := by
  have hmax : ∀ te ∈ started s clock, ∀ id, te.id = some id →
      (id : ℤ) ≤ (s.poll.timeEventNextId : ℤ) - 1 := by
    intro u hu id hid
    obtain ⟨te, hte, rfl⟩ := List.mem_map.mp hu
    rw [TimeEvents.start_id] at hid
    have hser := hs.id te hte id hid
    have hlt := hs.old te hte
    omega
  rw [TimeEvents.processTimeEvents, ← started, processLoop_eq hmax]
  rfl

theorem Kept.visited (hs : Kept s) (clock : ℕ → Time) (hte : te ∈ s.poll.events) :
    Visited clock 1 (s.poll.start (clock 0) te) (s.poll.processTimeEvents clock |>.1.events,
      (s.poll.processTimeEvents clock).2) := by
  rw [hs.processTimeEvents_eq]
  refine visited_sweep ?_ (List.mem_map_of_mem hte)
  rw [started_serials]
  exact hs.nodup

theorem clock_mono (hm : ∀ k, clock k ≤ clock (k + 1)) (k : ℕ) : clock 0 ≤ clock k := by
  induction k with
  | zero => exact Or.inr ⟨rfl, Int.le_refl _⟩
  | succ k ih => exact Time.le_trans ih (hm k)

/-- One pass, seen from one timer. -/
theorem pass_timer (hs : Kept s) (hi : i < s.poll.timeEventNextId) :
    Place (s.pass clock) i ∧ Lawful (s.pass clock).passes ((s.pass clock).history i) := by
  have hl := hs.lawful i hi
  have hhist : (s.pass clock).history i = (s.history i).pass (s.passes + 1)
    (s.poll.seesBack (clock 0)) (s.poll.processTimeEvents clock).2 i := rfl
  cases hs.place i hi with
  | live te hte hser hid he hd =>
    have hstart : (s.poll.start (clock 0) te).serial = i := TimeEvents.start_serial.trans hser
    cases hs.visited clock hte with
    | unlinked hnone _ _ _ =>
      rw [TimeEvents.start_id, hid] at hnone
      cases hnone
    | fired j _ _ hr hf hz hm =>
      rw [hstart] at hf hz
      refine ⟨.marked _ hm hstart rfl ?_, ?_⟩
      · rw [hhist]
        simp [History.pass, hf, he, State.pass]
      · refine hl.pass_fired he hf hz fun hdue => ?_
        -- An untouched timer that no pass resets is fired at its due time or later.
        by_contra hn
        rw [Bool.not_eq_true, Bool.or_eq_false_iff] at hn
        rw [TimeEvents.start, hn.2, if_neg Bool.false_ne_true, hd hn.1] at hr
        exact hdue hr
    | kept j _ _ _ hf hz hm =>
      rw [hstart] at hf hz
      refine ⟨.live _ hm hstart (TimeEvents.start_id.trans hid) ?_ ?_, ?_⟩
      · rw [hhist]
        simp [History.pass, hf, he]
      · rw [hhist]
        simp only [History.pass, Bool.or_eq_false_iff]
        rintro ⟨ht, hb⟩
        rw [TimeEvents.start, hb, if_neg Bool.false_ne_true]
        exact hd ht
      · refine hl.pass_kept (fun e h' => ?_) hf hz
        rw [he] at h'
        cases h'
  | marked te hte hser hid he =>
    have hstart : (s.poll.start (clock 0) te).serial = i := TimeEvents.start_serial.trans hser
    cases hs.visited clock hte with
    | unlinked _ hf hz hm =>
      rw [hstart] at hf hz hm
      refine ⟨.gone hm s.passes ?_ (Nat.lt_succ_self _), hl.pass_unlinked he hf hz⟩
      rw [hhist]
      simp [History.pass, hf, he]
    | fired _ _ hne _ _ _ _ =>
      rw [TimeEvents.start_id] at hne
      exact (hne hid).elim
    | kept _ _ hne _ _ _ _ =>
      rw [TimeEvents.start_id] at hne
      exact (hne hid).elim
  | gone hmem e he hlt =>
    have hno : i ∉ (started s clock).map (·.serial) := by rwa [started_serials]
    obtain ⟨hf, hz⟩ := sweep_of_notMem clock 1 hno
    have hcalls : (s.poll.processTimeEvents clock).2 = (sweep clock 1 (started s clock)).2 := by
      rw [hs.processTimeEvents_eq]
    have hevents : (s.pass clock).poll.events = (sweep clock 1 (started s clock)).1 := by
      rw [State.pass, hs.processTimeEvents_eq]
    rw [← hcalls] at hf hz
    refine ⟨.gone ?_ e ?_ (Nat.lt_succ_of_lt hlt), hl.pass_kept (fun e' h' => ?_) hf hz⟩
    · rw [hevents]
      exact fun h' => hno (sweep_serials.subset h')
    · rw [hhist]
      simp [History.pass, hf, he]
    · obtain rfl := Option.some.inj (he.symm.trans h')
      exact hlt

theorem kept_pass (hs : Kept s) : Kept (s.pass clock) := by
  have hevents : (s.pass clock).poll.events = (sweep clock 1 (started s clock)).1 := by
    rw [State.pass, hs.processTimeEvents_eq]
  have hnext : (s.pass clock).poll.timeEventNextId = s.poll.timeEventNextId := by
    rw [State.pass, hs.processTimeEvents_eq]
  have hfrom : ∀ u ∈ (s.pass clock).poll.events, ∃ te ∈ s.poll.events, u.serial = te.serial ∧
      (u.id = te.id ∨ u.id = none) := by
    intro u hu
    rw [hevents] at hu
    obtain ⟨te₀, h₀, h⟩ := mem_sweep hu
    obtain ⟨te, hte, rfl⟩ := List.mem_map.mp h₀
    rcases h with rfl | rfl
    · exact ⟨te, hte, TimeEvents.start_serial, Or.inl TimeEvents.start_id⟩
    · exact ⟨te, hte, TimeEvents.start_serial, Or.inr rfl⟩
  refine ⟨?_, ?_, ?_, fun i hi => (pass_timer hs (by rwa [hnext] at hi)).1,
    fun i hi => (pass_timer hs (by rwa [hnext] at hi)).2⟩
  · rw [hevents]
    refine sweep_serials.nodup ?_
    rw [started_serials]
    exact hs.nodup
  · intro u hu
    obtain ⟨te, hte, hser, -⟩ := hfrom u hu
    rw [hnext, hser]
    exact hs.old te hte
  · intro u hu id hid
    obtain ⟨te, hte, hser, h⟩ := hfrom u hu
    rcases h with h | h
    · rw [hser]
      exact hs.id te hte id (h.symm.trans hid)
    · rw [h] at hid
      cases hid

theorem kept_step (hs : Kept s) (h : Step s a t) : Kept t := by
  cases h with
  | setupTimer => exact kept_setupTimer hs
  | cancelTimer => exact kept_cancelTimer hs
  | interrupt => exact kept_interrupt hs
  | pass _ => exact kept_pass hs

/-- A live event has not been fired, and its due time changes only with `touched`. -/
theorem Kept.of_id (hs : Kept s) (hte : te ∈ s.poll.events) (hid : te.id = some i) :
    (s.history i).ended = none ∧ ((s.history i).touched = false → te.when = (s.history i).due) := by
  have hser := hs.id te hte i hid
  have hi : i < s.poll.timeEventNextId := hser ▸ hs.old te hte
  cases hs.place i hi with
  | live u hu huser huid he hd =>
    obtain rfl := hs.unique hte hu (hser.trans huser.symm)
    exact ⟨he, hd⟩
  | marked u hu huser huid he =>
    obtain rfl := hs.unique hte hu (hser.trans huser.symm)
    rw [hid] at huid
    cases huid
  | gone hmem e he hlt => exact (hmem (List.mem_map.mpr ⟨te, hte, hser⟩)).elim

/-- A reset event is due unless the clock is in its first second or before. -/
theorem start_le (hb : ¬ BackToZero s clock) (hle : te.when ≤ now) (h₀ : clock 0 ≤ now) :
    (s.poll.start (clock 0) te).when ≤ now := by
  unfold TimeEvents.start
  split
  · next hback =>
    have hpos : 0 < (clock 0).sec := by
      by_contra hn
      exact hb ⟨hback, by omega⟩
    rw [Time.le_def] at h₀
    refine Or.inl ?_
    change 0 < now.sec
    omega
  · exact hle

theorem followed_pass (hs : Kept s) (hm : ∀ k, clock k ≤ clock (k + 1)) (hte : te ∈ s.poll.events)
    (hid : te.id = some i) : Followed s (.pass clock) (s.pass clock) te i := by
  have hser : te.serial = i := hs.id te hte i hid
  have hstart : (s.poll.start (clock 0) te).serial = i := TimeEvents.start_serial.trans hser
  obtain ⟨he, hd⟩ := hs.of_id hte hid
  have hfired : ∀ now, now ∈ firings i (s.poll.processTimeEvents clock).2 →
      ((s.pass clock).passes, now) ∈ ((s.pass clock).history i).fired := by
    intro now hnow
    exact List.mem_append_left _ (List.mem_map.mpr ⟨now, hnow, rfl⟩)
  cases hs.visited clock hte with
  | unlinked hnone _ _ _ =>
    rw [TimeEvents.start_id, hid] at hnone
    cases hnone
  | fired j _ _ _ hf _ _ =>
    rw [hstart] at hf
    have hmem := hfired (clock j) (by rw [hf]; exact List.mem_cons_self)
    exact ⟨hd, fun _ _ _ _ => ⟨clock j, hmem⟩, fun _ hn => (hn (clock j) hmem).elim⟩
  | kept j _ _ hr _ _ hmem =>
    refine ⟨hd, fun clock' hact hle hb => ?_, fun _ _ => ⟨_, hmem, TimeEvents.start_id.trans hid,
      TimeEvents.start_clientData, ?_⟩⟩
    · obtain rfl : clock = clock' := Act.pass.inj hact
      have h₀ := clock_mono hm j
      exact (hr (start_le hb (Time.le_trans hle h₀) h₀)).elim
    · by_cases hback : s.poll.seesBack (clock 0) = true
      · refine Or.inr (Or.inr ⟨clock, rfl, hback, ?_⟩)
        -- Where the clock has got past its first second a reset event would have fired.
        by_contra hpos
        have h₀ := clock_mono hm j
        rw [TimeEvents.start, if_pos hback] at hr
        rw [Time.le_def] at h₀
        refine hr (Or.inl ?_)
        change 0 < (clock j).sec
        omega
      · refine Or.inl ?_
        rw [TimeEvents.start, if_neg hback]

theorem followed (hs : Kept s) (h : Step s a t) (hte : te ∈ s.poll.events)
    (hid : te.id = some i) : Followed s a t te i := by
  obtain ⟨-, hd⟩ := hs.of_id hte hid
  cases h with
  | setupTimer =>
    refine ⟨hd, fun clock hact => (by cases hact), fun _ _ => ?_⟩
    exact ⟨te, List.mem_cons_of_mem _ hte, hid, rfl, Or.inl rfl⟩
  | @cancelTimer id =>
    refine ⟨hd, fun clock hact => (by cases hact), fun hne _ => ?_⟩
    have hne : te.id ≠ some id := by
      rw [hid]
      rintro heq
      exact hne (congrArg Act.cancelTimer (Option.some.inj heq.symm))
    exact ⟨te, mem_markDeleted_of_ne _ hte hne, hid, rfl, Or.inl rfl⟩
  | @interrupt now =>
    refine ⟨hd, fun clock hact => (by cases hact), fun _ _ => ?_⟩
    refine ⟨{ te with when := now }, ?_, hid, rfl, Or.inr (Or.inl ⟨now, rfl⟩)⟩
    exact List.mem_map.mpr ⟨te, hte, by simp [hid]⟩
  | pass hm => exact followed_pass hs hm hte hid

/-- In every run each timer is fired and finalized lawfully; a timer that has neither fired nor been
cancelled is in the list; and every further step leaves it there as it is, unless it cancels or
fires it, as every pass does that finds it due and does not see the clock go back to zero. -/
theorem timers_kept (hs : Initial s) (h : Run Step s as t) :
    (∀ i, i < t.poll.timeEventNextId → Lawful t.passes (t.history i) ∧
      ((t.history i).ended = none → ∃ te ∈ t.poll.events, te.id = some i)) ∧
    ∀ (a : Act F) (u : State F), Step t a u → ∀ te ∈ t.poll.events, ∀ i, te.id = some i →
      Followed t a u te i := by
  have hk : Kept t := h.invariant (fun _ _ _ => kept_step) (kept_initial hs)
  refine ⟨fun i hi => ⟨hk.lawful i hi, fun he => ?_⟩, fun a u hu te hte i hid =>
    followed hk hu hte hid⟩
  cases hk.place i hi with
  | live te hte _ hid _ _ => exact ⟨te, hte, hid⟩
  | marked _ _ _ _ he' =>
    rw [he] at he'
    cases he'
  | gone _ e he' _ =>
    rw [he] at he'
    cases he'

/-- A timer of half a second, set up at second 5 on a new `EIoWaiter`. -/
def halfSecond : State Unit :=
  State.setupTimer ⟨.create 5, 0, fun _ => ⟨⟨0, 0⟩, false, none, [], [], []⟩⟩ ⟨5, 0⟩ 500 ()

theorem run_halfSecond : ∃ s : State Unit, Initial s ∧
    Run Step s [.setupTimer ⟨5, 0⟩ 500 ()] halfSecond :=
  ⟨_, ⟨rfl, rfl⟩, .step .setupTimer .refl⟩

/-- It fires in the first pass of second 6, and is finalized in the next one. -/
theorem timers_kept_fired :
    let t := (halfSecond.pass fun _ => ⟨6, 0⟩).pass fun _ => ⟨6, 0⟩
    (t.history 0).fired = [(1, ⟨6, 0⟩)] ∧ (t.history 0).finalized = [2] := by
  obtain ⟨s, hs, hrun⟩ := run_halfSecond
  have hle : ∀ _ : ℕ, (⟨6, 0⟩ : Time) ≤ ⟨6, 0⟩ := fun _ => Or.inr ⟨rfl, Int.le_refl 0⟩
  have hrun' := hrun.append (.step (.pass hle) (.step (.pass hle) .refl))
  have hlaw := ((timers_kept hs hrun').1 0 (by decide)).1
  exact ⟨by decide, (hlaw.finalized 1 (by decide)).trans (by decide)⟩

/-- The clock is set back to second 0: the timer does not fire, and is now due at half past it. -/
theorem due_time_changed : (∃ s : State Unit, Initial s ∧
      Run Step s [.setupTimer ⟨5, 0⟩ 500 ()] halfSecond) ∧
    Step halfSecond (.pass fun _ => ⟨0, 0⟩) (halfSecond.pass fun _ => ⟨0, 0⟩) ∧
    halfSecond.poll.events.map (fun te => (te.id, te.when)) = [(some 0, ⟨5, 500⟩)] ∧
    (halfSecond.pass fun _ => ⟨0, 0⟩).poll.events.map (fun te => (te.id, te.when)) =
      [(some 0, ⟨0, 500⟩)] ∧
    ((halfSecond.pass fun _ => ⟨0, 0⟩).history 0).fired = [] :=
  ⟨run_halfSecond, .pass fun _ => Or.inr ⟨rfl, Int.le_refl 0⟩, by decide, by decide, by decide⟩

end CxxFiber.Timers
