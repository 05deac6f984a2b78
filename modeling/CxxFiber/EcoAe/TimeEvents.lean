import Mathlib.Data.Int.Notation
import Mathlib.Data.List.Nodup

/-! The time events of `eco_ae.c`: a list in which a deleted event is only marked, and unlinked when
a later pass comes to it. -/
namespace CxxFiber.EcoAe

/-- A reading of the clock, or the time when an event is due. -/
structure Time where
  sec : ℤ
  ms : ℤ
  deriving DecidableEq, Repr

namespace Time

instance : LE Time := ⟨fun t u => t.sec < u.sec ∨ t.sec = u.sec ∧ t.ms ≤ u.ms⟩

theorem le_def {t u : Time} : t ≤ u ↔ t.sec < u.sec ∨ t.sec = u.sec ∧ t.ms ≤ u.ms := Iff.rfl

theorem le_trans {t u v : Time} (h : t ≤ u) (h' : u ≤ v) : t ≤ v := by
  rw [le_def] at *
  omega

/-- The test of `processTimeEvents`. -/
def reached (t now : Time) : Bool :=
  decide (now.sec > t.sec) || (now.sec == t.sec && decide (now.ms ≥ t.ms))

theorem reached_iff {t now : Time} : t.reached now = true ↔ t ≤ now := by
  simp only [reached, le_def, Bool.or_eq_true, Bool.and_eq_true, decide_eq_true_eq, beq_iff_eq]
  omega

/-- `aeAddMillisecondsToNow`. -/
def addMilliseconds (now : Time) (milliseconds : ℤ) : Time :=
  let sec := now.sec + milliseconds.tdiv 1000
  let ms := now.ms + milliseconds.tmod 1000
  if ms ≥ 1000 then ⟨sec + 1, ms - 1000⟩ else ⟨sec, ms⟩

end Time

/-- `id` is none for `ECO_POLL_DELETED_EVENT_ID`. `serial` is the id that the event was made with,
which the code forgets when it marks the event. -/
structure TimeEvent (F : Type) where
  id : Option ℕ
  when : Time
  clientData : F
  serial : ℕ

/-- The part of `co_poll_t` that concerns time events. -/
structure TimeEvents (F : Type) where
  timeEventNextId : ℕ
  lastTime : ℤ
  events : List (TimeEvent F)

/-- `EIoWaiter::timeEventProc` returns `ECO_POLL_NOMORE`. -/
def timeEventProc : Option ℤ := none

/-- The calls that a pass makes. -/
inductive TimeCall
  | timeProc (serial : ℕ) (now : Time)
  | finalizerProc (serial : ℕ)
  deriving DecidableEq

variable {F : Type}

/-- The loop of `processTimeEvents`, where `clock k` is the next reading: `kept` ends with `prev`,
and `skipped` are the events between `prev` and the current one. -/
def processLoop (maxId : ℤ) (clock : ℕ → Time) : ℕ → List (TimeEvent F) → List (TimeEvent F) →
    List (TimeEvent F) → List (TimeEvent F) × List TimeCall
  | _, kept, skipped, [] => (kept ++ skipped, [])
  | k, kept, skipped, te :: rest =>
    match te.id with
    | none =>
      -- The link of `prev` is set past the event, and so past all that was skipped.
      let r := processLoop maxId clock k kept [] rest
      (r.1, .finalizerProc te.serial :: r.2)
    | some id =>
      if (id : ℤ) > maxId then processLoop maxId clock k kept (skipped ++ [te]) rest
      else if te.when.reached (clock k) then
        let r := match timeEventProc with
          | none => processLoop maxId clock (k + 1)
              (kept ++ skipped ++ [{ te with id := none }]) [] rest
          | some retval => processLoop maxId clock (k + 2)
              (kept ++ skipped ++ [{ te with when := (clock (k + 1)).addMilliseconds retval }]) []
              rest
        (r.1, .timeProc te.serial (clock k) :: r.2)
      else processLoop maxId clock (k + 1) (kept ++ skipped ++ [te]) [] rest

/-- The search of `eco_poll_time_event_delete`. -/
def markDeleted (id : ℕ) : List (TimeEvent F) → List (TimeEvent F)
  | [] => []
  | te :: rest =>
    if te.id = some id then { te with id := none } :: rest else te :: markDeleted id rest

/-- What a pass does to every event when the clock has gone back. -/
def TimeEvent.reset (te : TimeEvent F) : TimeEvent F := { te with when := ⟨0, te.when.ms⟩ }

namespace TimeEvents

def create (lastTime : ℤ) : TimeEvents F := ⟨0, lastTime, []⟩

/-- `eco_poll_time_event_create`; the id is `timeEventNextId`. -/
def timeEventCreate (p : TimeEvents F) (now : Time) (milliseconds : ℤ) (clientData : F) :
    TimeEvents F :=
  { p with
    timeEventNextId := p.timeEventNextId + 1
    events := ⟨some p.timeEventNextId, now.addMilliseconds milliseconds, clientData,
      p.timeEventNextId⟩ :: p.events }

/-- `eco_poll_time_event_delete`. -/
def timeEventDelete (p : TimeEvents F) (id : ℕ) : TimeEvents F :=
  { p with events := markDeleted id p.events }

/-- `eco_poll_time_fire_all`. -/
def timeFireAll (p : TimeEvents F) (now : Time) : TimeEvents F :=
  { p with events := p.events.map fun te => if te.id = none then te else { te with when := now } }

/-- Whether a pass that starts at `now` sees that the clock has gone back. -/
def seesBack (p : TimeEvents F) (now : Time) : Bool := decide (now.sec < p.lastTime)

/-- An event after the check of the clock. -/
def start (p : TimeEvents F) (now : Time) (te : TimeEvent F) : TimeEvent F :=
  if p.seesBack now then te.reset else te

/-- `processTimeEvents`; `clock 0` is the reading at the start. It returns the number of the calls
of `timeProc`. -/
def processTimeEvents (p : TimeEvents F) (clock : ℕ → Time) : TimeEvents F × List TimeCall :=
  let r := processLoop ((p.timeEventNextId : ℤ) - 1) clock 1 [] []
    (p.events.map (p.start (clock 0)))
  ({ p with lastTime := (clock 0).sec, events := r.1 }, r.2)

end TimeEvents

/-- The loop without the check against `maxId`. -/
def sweep (clock : ℕ → Time) : ℕ → List (TimeEvent F) → List (TimeEvent F) × List TimeCall
  | _, [] => ([], [])
  | k, te :: rest =>
    if te.id = none then
      ((sweep clock k rest).1, .finalizerProc te.serial :: (sweep clock k rest).2)
    else if te.when.reached (clock k) then
      ({ te with id := none } :: (sweep clock (k + 1) rest).1,
        .timeProc te.serial (clock k) :: (sweep clock (k + 1) rest).2)
    else (te :: (sweep clock (k + 1) rest).1, (sweep clock (k + 1) rest).2)

/-- The readings at which an event was fired, and how often it was finalized. -/
def firings (i : ℕ) (calls : List TimeCall) : List Time :=
  calls.filterMap fun c => match c with
    | .timeProc j now => if j = i then some now else none
    | .finalizerProc _ => none

def finalizations (i : ℕ) (calls : List TimeCall) : ℕ :=
  calls.countP fun c => decide (c = .finalizerProc i)

@[simp] theorem TimeEvents.start_id {p : TimeEvents F} {now : Time} {te : TimeEvent F} :
    (p.start now te).id = te.id := by
  unfold start
  split <;> rfl

@[simp] theorem TimeEvents.start_serial {p : TimeEvents F} {now : Time} {te : TimeEvent F} :
    (p.start now te).serial = te.serial := by
  unfold start
  split <;> rfl

@[simp] theorem TimeEvents.start_clientData {p : TimeEvents F} {now : Time} {te : TimeEvent F} :
    (p.start now te).clientData = te.clientData := by
  unfold start
  split <;> rfl

variable {clock : ℕ → Time} {k i j id : ℕ} {te : TimeEvent F} {kept l : List (TimeEvent F)}
  {calls : List TimeCall} {now : Time} {maxId : ℤ}

/-- No event is newer than `maxId`, so nothing is ever skipped. -/
theorem processLoop_eq (h : ∀ te ∈ l, ∀ id, te.id = some id → (id : ℤ) ≤ maxId) :
    processLoop maxId clock k kept [] l =
      (kept ++ (sweep clock k l).1, (sweep clock k l).2) := by
  induction l generalizing k kept with
  | nil => simp [processLoop, sweep]
  | cons te rest ih =>
    have hrest : ∀ te ∈ rest, ∀ id, te.id = some id → (id : ℤ) ≤ maxId :=
      fun te' hte => h te' (List.mem_cons_of_mem _ hte)
    cases hid : te.id with
    | none => simp [processLoop, sweep, hid, ih hrest]
    | some id =>
      have hle : ¬ (id : ℤ) > maxId := by
        have := h te List.mem_cons_self id hid
        omega
      by_cases hr : te.when.reached (clock k) = true
      · simp [processLoop, sweep, hid, hle, hr, timeEventProc, ih hrest]
      · simp [processLoop, sweep, hid, hle, hr, ih hrest]

@[simp] theorem firings_timeProc :
    firings i (.timeProc j now :: calls) = if j = i then now :: firings i calls
      else firings i calls := by
  unfold firings
  by_cases h : j = i <;> simp [h]

@[simp] theorem firings_finalizerProc :
    firings i (.finalizerProc j :: calls) = firings i calls := rfl

@[simp] theorem finalizations_timeProc :
    finalizations i (.timeProc j now :: calls) = finalizations i calls := by
  simp [finalizations]

@[simp] theorem finalizations_finalizerProc : finalizations i (.finalizerProc j :: calls) =
    finalizations i calls + if j = i then 1 else 0 := by
  by_cases h : j = i <;> simp [finalizations, h]

theorem sweep_serials : ((sweep clock k l).1.map (·.serial)).Sublist (l.map (·.serial)) := by
  induction l generalizing k with
  | nil => exact List.Sublist.slnil
  | cons te rest ih =>
    unfold sweep
    split
    · exact ih.cons te.serial
    · split
      · exact ih.cons_cons te.serial
      · exact ih.cons_cons te.serial

/-- An event that is not in the list is not called. -/
theorem sweep_of_notMem (clock : ℕ → Time) (k : ℕ) (h : i ∉ l.map (·.serial)) :
    firings i (sweep clock k l).2 = [] ∧ finalizations i (sweep clock k l).2 = 0 := by
  induction l generalizing k with
  | nil => exact ⟨rfl, rfl⟩
  | cons te rest ih =>
    obtain ⟨hne, hrest⟩ := not_or.mp fun h' => h (List.mem_cons.mpr h')
    have hne : te.serial ≠ i := fun heq => hne heq.symm
    unfold sweep
    split
    · simpa [hne] using ih _ hrest
    · split
      · simpa [hne] using ih _ hrest
      · exact ih _ hrest

/-- What becomes of an event that a pass visits. -/
inductive Visited (clock : ℕ → Time) (k : ℕ) (te : TimeEvent F)
    (r : List (TimeEvent F) × List TimeCall) : Prop
  | unlinked (hid : te.id = none) (hf : firings te.serial r.2 = [])
      (hz : finalizations te.serial r.2 = 1) (hm : te.serial ∉ r.1.map (·.serial))
  | fired (j : ℕ) (hj : k ≤ j) (hid : te.id ≠ none) (hr : te.when ≤ clock j)
      (hf : firings te.serial r.2 = [clock j]) (hz : finalizations te.serial r.2 = 0)
      (hm : { te with id := none } ∈ r.1)
  | kept (j : ℕ) (hj : k ≤ j) (hid : te.id ≠ none) (hr : ¬ te.when ≤ clock j)
      (hf : firings te.serial r.2 = []) (hz : finalizations te.serial r.2 = 0) (hm : te ∈ r.1)

/-- The visit of another event in front changes nothing for this one. -/
theorem Visited.of_rest {k' : ℕ} {r r' : List (TimeEvent F) × List TimeCall}
    (h : Visited clock k' te r') (hk : k ≤ k')
    (hf : firings te.serial r.2 = firings te.serial r'.2)
    (hz : finalizations te.serial r.2 = finalizations te.serial r'.2)
    (hm : ∀ u, u ∈ r'.1 → u ∈ r.1) (hn : ∀ u ∈ r.1, u.serial = te.serial → u ∈ r'.1) :
    Visited clock k te r := by
  cases h with
  | unlinked hid hf' hz' hm' =>
    refine .unlinked hid (hf.trans hf') (hz.trans hz') fun hmem => ?_
    obtain ⟨u, hu, heq⟩ := List.mem_map.mp hmem
    exact hm' (List.mem_map.mpr ⟨u, hn u hu heq, heq⟩)
  | fired j hj hid hr hf' hz' hm' =>
    exact .fired j (Nat.le_trans hk hj) hid hr (hf.trans hf') (hz.trans hz') (hm _ hm')
  | kept j hj hid hr hf' hz' hm' =>
    exact .kept j (Nat.le_trans hk hj) hid hr (hf.trans hf') (hz.trans hz') (hm _ hm')

/-- Every event is visited, whatever is unlinked in front of it. -/
theorem visited_sweep (hn : (l.map (·.serial)).Nodup) (hte : te ∈ l) :
    Visited clock k te (sweep clock k l) := by
  induction l generalizing k with
  | nil => exact absurd hte List.not_mem_nil
  | cons a rest ih =>
    obtain ⟨ha, hrest⟩ := List.nodup_cons.mp hn
    have hne : te ∈ rest → a.serial ≠ te.serial := fun hte heq =>
      ha (List.mem_map.mpr ⟨te, hte, heq.symm⟩)
    have htail : ∀ (b : TimeEvent F) (r : List (TimeEvent F)), b.serial = a.serial → te ∈ rest →
        ∀ u ∈ b :: r, u.serial = te.serial → u ∈ r := by
      intro b r hb hte u hu heq
      rcases List.mem_cons.mp hu with rfl | hu
      · exact (hne hte (hb.symm.trans heq)).elim
      · exact hu
    by_cases hid : a.id = none
    · have heq : sweep clock k (a :: rest) =
          ((sweep clock k rest).1, .finalizerProc a.serial :: (sweep clock k rest).2) := by
        rw [sweep, if_pos hid]
      rw [heq]
      rcases List.mem_cons.mp hte with rfl | hte
      · obtain ⟨hf, hz⟩ := sweep_of_notMem clock k ha
        exact .unlinked hid (by simpa using hf) (by simpa using hz) fun hm =>
          ha (sweep_serials.subset hm)
      · exact (ih hrest hte).of_rest (Nat.le_refl k) (by simp) (by simp [hne hte])
          (fun _ hu => hu) fun _ hu _ => hu
    · by_cases hr : a.when.reached (clock k) = true
      · have heq : sweep clock k (a :: rest) =
            ({ a with id := none } :: (sweep clock (k + 1) rest).1,
              .timeProc a.serial (clock k) :: (sweep clock (k + 1) rest).2) := by
          rw [sweep, if_neg hid, if_pos hr]
        rw [heq]
        rcases List.mem_cons.mp hte with rfl | hte
        · obtain ⟨hf, hz⟩ := sweep_of_notMem clock (k + 1) ha
          exact .fired k (Nat.le_refl k) hid (Time.reached_iff.mp hr) (by simp [hf])
            (by simpa using hz) List.mem_cons_self
        · exact (ih hrest hte).of_rest (Nat.le_succ k) (by simp [hne hte]) (by simp)
            (fun _ hu => List.mem_cons_of_mem _ hu) (htail _ _ rfl hte)
      · have heq : sweep clock k (a :: rest) =
            (a :: (sweep clock (k + 1) rest).1, (sweep clock (k + 1) rest).2) := by
          rw [sweep, if_neg hid, if_neg hr]
        rw [heq]
        rcases List.mem_cons.mp hte with rfl | hte
        · obtain ⟨hf, hz⟩ := sweep_of_notMem clock (k + 1) ha
          refine .kept k (Nat.le_refl k) hid ?_ hf hz List.mem_cons_self
          rwa [← Time.reached_iff]
        · exact (ih hrest hte).of_rest (Nat.le_succ k) rfl rfl
            (fun _ hu => List.mem_cons_of_mem _ hu) (htail _ _ rfl hte)

/-- What is left has only been marked. -/
theorem mem_sweep {u : TimeEvent F} (hu : u ∈ (sweep clock k l).1) :
    ∃ te ∈ l, u = te ∨ u = { te with id := none } := by
  induction l generalizing k with
  | nil => exact absurd hu List.not_mem_nil
  | cons a rest ih =>
    unfold sweep at hu
    split at hu
    · obtain ⟨te, hte, h⟩ := ih hu
      exact ⟨te, List.mem_cons_of_mem _ hte, h⟩
    · split at hu
      · rcases List.mem_cons.mp hu with rfl | hu
        · exact ⟨a, List.mem_cons_self, Or.inr rfl⟩
        · obtain ⟨te, hte, h⟩ := ih hu
          exact ⟨te, List.mem_cons_of_mem _ hte, h⟩
      · rcases List.mem_cons.mp hu with rfl | hu
        · exact ⟨u, List.mem_cons_self, Or.inl rfl⟩
        · obtain ⟨te, hte, h⟩ := ih hu
          exact ⟨te, List.mem_cons_of_mem _ hte, h⟩

theorem markDeleted_serials : (markDeleted id l).map (·.serial) = l.map (·.serial) := by
  induction l with
  | nil => rfl
  | cons a rest ih =>
    unfold markDeleted
    split
    · rfl
    · simp [ih]

/-- Only the event with this id is marked. -/
theorem mem_markDeleted_of_ne (id : ℕ) (hte : te ∈ l) (hid : te.id ≠ some id) :
    te ∈ markDeleted id l := by
  induction l with
  | nil => exact absurd hte List.not_mem_nil
  | cons a rest ih =>
    unfold markDeleted
    split
    · next ha =>
      rcases List.mem_cons.mp hte with rfl | hte
      · exact (hid ha).elim
      · exact List.mem_cons_of_mem _ hte
    · rcases List.mem_cons.mp hte with rfl | hte
      · exact List.mem_cons_self
      · exact List.mem_cons_of_mem _ (ih hte)

theorem mem_markDeleted {u : TimeEvent F} (hu : u ∈ markDeleted id l) :
    ∃ te ∈ l, u = te ∨ te.id = some id ∧ u = { te with id := none } := by
  induction l with
  | nil => exact absurd hu List.not_mem_nil
  | cons a rest ih =>
    unfold markDeleted at hu
    split at hu
    · next ha =>
      rcases List.mem_cons.mp hu with rfl | hu
      · exact ⟨a, List.mem_cons_self, Or.inr ⟨ha, rfl⟩⟩
      · exact ⟨u, List.mem_cons_of_mem _ hu, Or.inl rfl⟩
    · rcases List.mem_cons.mp hu with rfl | hu
      · exact ⟨u, List.mem_cons_self, Or.inl rfl⟩
      · obtain ⟨te, hte, h⟩ := ih hu
        exact ⟨te, List.mem_cons_of_mem _ hte, h⟩

/-- Where no other event has the id, the one that has it is marked. -/
theorem marked_mem_markDeleted (hte : te ∈ l) (hid : te.id = some id)
    (hn : ∀ u ∈ l, u.id = some id → u = te) : { te with id := none } ∈ markDeleted id l := by
  induction l with
  | nil => exact absurd hte List.not_mem_nil
  | cons a rest ih =>
    unfold markDeleted
    split
    · next ha =>
      rw [hn a List.mem_cons_self ha]
      exact List.mem_cons_self
    · next ha =>
      rcases List.mem_cons.mp hte with rfl | hte
      · exact (ha hid).elim
      · exact List.mem_cons_of_mem _ (ih hte fun u hu => hn u (List.mem_cons_of_mem _ hu))

end CxxFiber.EcoAe
