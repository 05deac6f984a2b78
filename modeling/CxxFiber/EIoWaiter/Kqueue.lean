import CxxFiber.EIoWaiter.Epoll
import CxxFiber.Library.Kqueue

/-! The event table of an `EIoWaiter` beside the filters of its kqueue. -/
namespace CxxFiber.KqueueApi

open EcoAe Kqueue Transition

/-- `EVFILT_READ` and `EVFILT_WRITE`. -/
inductive Filter
  | read
  | write
  deriving DecidableEq, Repr

/-- The mask that `aeApiPoll` makes of a filter. -/
def Filter.mask : Filter → Mask
  | .read => ⟨true, false⟩
  | .write => ⟨false, true⟩

def Filter.isIn : Filter → Mask → Bool
  | .read, m => m.readable
  | .write, m => m.writable

/-- One `kevent_f` of the functions below; without the direction in the mask it is not made. -/
def added (k : Kernel Filter) (refused : Filter → Bool) (fd : ℕ) (mask : Mask) (x : Filter) :
    Except Kqueue.Errno (Kernel Filter) :=
  if x.isIn mask then k.kevent (refused x) fd x .add else .ok k

/-- The same with `EV_DELETE`, whose result is not looked at. -/
def deleted (k : Kernel Filter) (fd : ℕ) (mask : Mask) (x : Filter) : Kernel Filter :=
  if x.isIn mask then (k.kevent false fd x .delete).toOption.getD k else k

/-- `aeApiAddEvent`. When the second `kevent` fails the first one is not taken back. -/
def aeApiAddEvent (k : Kernel Filter) (refused : Filter → Bool) (fd : ℕ) (mask : Mask) :
    Kernel Filter × Bool :=
  match added k refused fd mask .read with
  | .error _ => (k, false)
  | .ok k' =>
    match added k' refused fd mask .write with
    | .error _ => (k', false)
    | .ok k'' => (k'', true)

/-- `aeApiUpdEvent`. -/
def aeApiUpdEvent (k : Kernel Filter) (refused : Filter → Bool) (fd : ℕ) (mask : Mask) :
    Kernel Filter × Bool :=
  match added k refused fd mask .read with
  | .error _ => (k, false)
  | .ok k =>
    let k := if mask.readable then k else deleted k fd .all .read
    match added k refused fd mask .write with
    | .error _ => (k, false)
    | .ok k => (if mask.writable then k else deleted k fd .all .write, true)

/-- `aeApiDelEvent`. -/
def aeApiDelEvent (k : Kernel Filter) (fd : ℕ) (mask : Mask) : Kernel Filter :=
  deleted (deleted k fd mask .read) fd mask .write

/-- An `EIoWaiter` and the kernel under it. -/
structure State (F : Type) where
  waiter : EIoWaiter F
  kernel : Kernel Filter

/-- `install` is any call that returns a new descriptor. -/
inductive Act (F : Type)
  | setFileEvent (refused : Filter → Bool) (fd : ℕ) (mask : Mask) (f : F)
  | delFileEvent (fd : ℕ) (mask : Mask)
  | close (fd : ℕ)
  | install (fd : ℕ)

variable {F : Type}

namespace State

def mask (s : State F) (fd : ℕ) : Mask := s.waiter.mask fd

/-- The constructor of `EIoWaiter`; whether the pipe could be registered is not looked at. -/
def create (setsize : ℕ) (k : Kernel Filter) (pipe : ℕ) (refused : Filter → Bool) : State F :=
  let w : EIoWaiter F := .create setsize
  let answer := aeApiUpdEvent k.create refused pipe ⟨true, false⟩
  let update := (w.poll.fileEventUpdate answer.2 pipe ⟨true, false⟩ .pipeEventProc none).1
  { waiter :=
      { w with
        poll := update
        old := fun fd a h => w.old fd a (Poll.fileEventUpdate_clientData h)
        apart := fun fd fd' a h h' => w.apart fd fd' a (Poll.fileEventUpdate_clientData h)
          (Poll.fileEventUpdate_clientData h') }
    kernel := if pipe < setsize then answer.1 else k.create }

/-- The kernel is asked only about descriptors of the table. -/
def setFileEvent (s : State F) (refused : Filter → Bool) (fd : ℕ) (mask : Mask) (f : F) : State F :=
  let answer := aeApiAddEvent s.kernel refused fd mask
  { waiter := s.waiter.setFileEvent answer.2 fd mask f
    kernel := if fd < s.waiter.poll.setsize then answer.1 else s.kernel }

/-- `eco_poll_file_event_delete` returns early on a slot without events. -/
def delFileEvent (s : State F) (fd : ℕ) (mask : Mask) : State F where
  waiter := s.waiter.delFileEvent fd mask
  kernel := if fd < s.waiter.poll.setsize ∧ s.mask fd ≠ .none then aeApiDelEvent s.kernel fd mask
    else s.kernel

/-- The hooked `close` leaves the table of events alone. -/
def close (s : State F) (fd : ℕ) : State F := { s with kernel := s.kernel.close fd }

def install (s : State F) (fd : ℕ) : State F := { s with kernel := s.kernel.install fd }

def step (s : State F) : Act F → State F
  | .setFileEvent refused fd mask f => s.setFileEvent refused fd mask f
  | .delFileEvent fd mask => s.delFileEvent fd mask
  | .close fd => s.close fd
  | .install fd => s.install fd

end State

def Step (s : State F) (a : Act F) (t : State F) : Prop := t = s.step a

/-- The filters of a descriptor are the directions of its slot. -/
def Agree (s : State F) : Prop := ∀ fd x, s.kernel.knote fd x = x.isIn (s.mask fd)

/-- The filter for reading is new and taken, the one for writing new and not. -/
def Half (k : Kernel Filter) (refused : Filter → Bool) (fd : ℕ) (mask : Mask) : Prop :=
  mask = .all ∧ k.isOpen fd = true ∧ (∀ x, k.knote fd x = false) ∧ refused .read = false ∧
    refused .write = true

/-- No registration is half taken, and no descriptor is closed while its slot has events. -/
def Guard (s : State F) : Act F → Prop
  | .setFileEvent refused fd mask _ =>
    ¬ (fd < s.waiter.poll.setsize ∧ Half s.kernel refused fd mask)
  | .close fd => s.mask fd = .none
  | _ => True

variable {s t : State F} {k k' : Kernel Filter} {refused : Filter → Bool} {fd fd' : ℕ} {m m' : Mask}
  {x y : Filter} {f : F} {e : Kqueue.Errno}

theorem Filter.isIn_union : x.isIn (m.union m') = (x.isIn m || x.isIn m') := by
  cases x <;> rfl

theorem Filter.isIn_diff : x.isIn (m.diff m') = (x.isIn m && !x.isIn m') := by
  cases x <;> rfl

theorem eq_none_iff_isIn : m = .none ↔ ∀ x : Filter, x.isIn m = false := by
  constructor
  · rintro rfl x
    cases x <;> rfl
  · intro h
    exact Mask.ext (h .read) (h .write)

/-- A filter that is taken is there afterwards, and nothing else has changed. -/
theorem added_ok (h : added k refused fd m x = .ok k') :
    k'.isOpen = k.isOpen ∧
    (∀ fd' y, k'.knote fd' y = (k.knote fd' y || (decide (fd' = fd ∧ y = x) && x.isIn m))) ∧
    (x.isIn m = true → k.isOpen fd = true ∧ (k.knote fd x = true ∨ refused x = false)) := by
  unfold added at h
  split at h
  · next hm =>
    by_cases ho : k.isOpen fd = true
    · rw [Kernel.kevent_add ho] at h
      split at h
      · cases h
      · next hr =>
        obtain rfl := Except.ok.inj h
        refine ⟨rfl, fun fd' y => ?_, fun _ => ⟨ho, ?_⟩⟩
        · by_cases hy : fd' = fd ∧ y = x <;> simp [Kernel.put, hm, hy]
        · cases hk : k.knote fd x <;> simp_all
    · rw [Kernel.kevent_closed (by simpa using ho)] at h
      cases h
  · next hm =>
    obtain rfl := Except.ok.inj h
    exact ⟨rfl, fun fd' y => by simp [hm], fun h => (hm h).elim⟩

theorem added_error (h : added k refused fd m x = .error e) : x.isIn m = true ∧
    (k.isOpen fd = false ∨ k.knote fd x = false ∧ refused x = true) := by
  unfold added at h
  split at h
  · next hm =>
    refine ⟨hm, ?_⟩
    by_cases ho : k.isOpen fd = true
    · rw [Kernel.kevent_add ho] at h
      split at h
      · next hr => exact Or.inr hr
      · cases h
    · exact Or.inl (by simpa using ho)
  · cases h

/-- A filter that is deleted is not there afterwards, whatever `kevent` returned. -/
theorem deleted_knote : (deleted k fd m x).knote fd' y =
    (k.knote fd' y && !(decide (fd' = fd ∧ y = x) && x.isIn m)) := by
  have hsame : k.knote fd x = false →
      k.knote fd' y = (k.knote fd' y && !decide (fd' = fd ∧ y = x)) := by
    intro hx
    by_cases hy : fd' = fd ∧ y = x
    · simp [hy, hx]
    · simp [hy]
  unfold deleted
  split
  · next hm =>
    rw [hm, Bool.and_true]
    by_cases ho : k.isOpen fd = true
    · rw [Kernel.kevent_delete ho]
      split
      · by_cases hy : fd' = fd ∧ y = x
        · simp [Except.toOption, Kernel.put, hy]
        · rw [decide_eq_false hy]
          exact (if_neg hy).trans (by simp)
      · next hx => exact hsame (by simpa using hx)
    · rw [Kernel.kevent_closed (by simpa using ho)]
      exact hsame (Kernel.not_knote (by simpa using ho))
  · next hm => simp [hm]

/-- A registration that succeeds adds the directions of its mask. -/
theorem aeApiAddEvent_ok (h : (aeApiAddEvent k refused fd m).2 = true) : ¬ Half k refused fd m ∧
    ∀ fd' y, (aeApiAddEvent k refused fd m).1.knote fd' y =
      (k.knote fd' y || (decide (fd' = fd) && y.isIn m)) := by
  cases hr : added k refused fd m .read with
  | error e => simp [aeApiAddEvent, hr] at h
  | ok k' =>
    obtain ⟨hro, hrk, -⟩ := added_ok hr
    cases hw : added k' refused fd m .write with
    | error e => simp [aeApiAddEvent, hr, hw] at h
    | ok k'' =>
      obtain ⟨-, hwk, hww⟩ := added_ok hw
      have hk : (aeApiAddEvent k refused fd m).1 = k'' := by simp [aeApiAddEvent, hr, hw]
      constructor
      · rintro ⟨rfl, ho, hn, -, hr'⟩
        obtain ⟨-, hx | hx⟩ := hww rfl
        · simp [hrk, hn] at hx
        · simp [hr'] at hx
      · intro fd' y
        rw [hk, hwk, hrk]
        cases y <;> simp

/-- One that fails leaves the filter for reading behind if only that was taken. -/
theorem aeApiAddEvent_failed (h : (aeApiAddEvent k refused fd m).2 = false) :
    (aeApiAddEvent k refused fd m).1.knote fd' y = true ↔
      k.knote fd' y = true ∨ Half k refused fd m ∧ fd' = fd ∧ y = .read := by
  cases hr : added k refused fd m .read with
  | error e =>
    obtain ⟨hm, hx⟩ := added_error hr
    have hk : (aeApiAddEvent k refused fd m).1 = k := by simp [aeApiAddEvent, hr]
    have hhalf : ¬ Half k refused fd m := by
      rintro ⟨rfl, ho, hn, hr', -⟩
      rcases hx with hx | hx
      · simp [ho] at hx
      · simp [hr'] at hx
    simp [hk, hhalf]
  | ok k' =>
    obtain ⟨hro, hrk, hrr⟩ := added_ok hr
    cases hw : added k' refused fd m .write with
    | ok k'' => simp [aeApiAddEvent, hr, hw] at h
    | error e =>
      obtain ⟨hm, hx⟩ := added_error hw
      have hk : (aeApiAddEvent k refused fd m).1 = k' := by simp [aeApiAddEvent, hr, hw]
      rw [hk, hrk]
      simp only [Bool.or_eq_true, Bool.and_eq_true, decide_eq_true_eq]
      constructor
      · rintro (h | ⟨⟨rfl, rfl⟩, hread⟩)
        · exact Or.inl h
        · obtain ⟨ho, hx'⟩ := hrr hread
          rcases hx with hx | ⟨hx, hr'⟩
          · simp [hro, ho] at hx
          · have hwrite : k.knote fd' .write = false := by simpa [hrk] using hx
            cases hn : k.knote fd' .read with
            | true => exact Or.inl rfl
            | false =>
              refine Or.inr ⟨⟨Mask.ext hread hm, ho, fun x => ?_, ?_, hr'⟩, rfl, rfl⟩
              · cases x with
                | read => exact hn
                | write => exact hwrite
              · simpa [hn] using hx'
      · rintro (h | ⟨⟨rfl, -⟩, rfl, rfl⟩)
        · exact Or.inl h
        · exact Or.inr ⟨⟨rfl, rfl⟩, rfl⟩

theorem aeApiDelEvent_knote : (aeApiDelEvent k fd m).knote fd' y =
    (k.knote fd' y && !(decide (fd' = fd) && y.isIn m)) := by
  rw [aeApiDelEvent, deleted_knote, deleted_knote]
  cases y <;> simp

/-! Runs -/

theorem Agree.setFileEvent_iff (h : Agree s) : Agree (s.setFileEvent refused fd m f) ↔
    ¬ (fd < s.waiter.poll.setsize ∧ Half s.kernel refused fd m) := by
  have hmask : ∀ fd', (s.setFileEvent refused fd m f).mask fd' = _ := fun fd' =>
    EIoWaiter.setFileEvent_mask
  by_cases hlt : fd < s.waiter.poll.setsize
  · have hk : (s.setFileEvent refused fd m f).kernel = (aeApiAddEvent s.kernel refused fd m).1 :=
      if_pos hlt
    cases ha : (aeApiAddEvent s.kernel refused fd m).2 with
    | true =>
      obtain ⟨hn, hadd⟩ := aeApiAddEvent_ok ha
      refine iff_of_true (fun fd' x => ?_) (fun hh => hn hh.2)
      rw [hk, hadd, hmask, ha, h fd' x]
      by_cases hf : fd' = fd
      · subst fd'
        simp [hlt, Filter.isIn_union]
        rfl
      · simp [hf]
        rfl
    | false =>
      have hfailed : ∀ fd' y, (aeApiAddEvent s.kernel refused fd m).1.knote fd' y = true ↔
          s.kernel.knote fd' y = true ∨ Half s.kernel refused fd m ∧ fd' = fd ∧ y = .read :=
        fun fd' y => aeApiAddEvent_failed ha
      have hsame : ∀ fd', (s.setFileEvent refused fd m f).mask fd' = s.mask fd' := by
        intro fd'
        rw [hmask, ha]
        simp
        rfl
      constructor
      · rintro ht ⟨-, hh⟩
        have hin := (hfailed fd .read).mpr (Or.inr ⟨hh, rfl, rfl⟩)
        rw [← hk, ht, hsame, ← h] at hin
        simp [hh.2.2.1] at hin
      · intro hn fd' x
        rw [hsame, ← h, hk, Bool.eq_iff_iff, hfailed]
        simp [show ¬ Half s.kernel refused fd m from fun hh => hn ⟨hlt, hh⟩]
  · refine iff_of_true (fun fd' x => ?_) (fun hh => hlt hh.1)
    have hk : (s.setFileEvent refused fd m f).kernel = s.kernel := if_neg hlt
    rw [hk, hmask, h fd' x]
    simp [hlt]
    rfl

theorem Agree.delFileEvent (h : Agree s) : Agree (s.delFileEvent fd m) := by
  intro fd' x
  have hmask : (s.delFileEvent fd m).mask fd' = _ := EIoWaiter.delFileEvent_mask
  rw [hmask]
  by_cases hm : s.mask fd = .none
  · have hk : (s.delFileEvent fd m).kernel = s.kernel := if_neg fun hn => hn.2 hm
    rw [hk, h fd' x]
    split
    · next hf =>
      subst fd'
      change x.isIn (s.mask fd) = x.isIn ((s.mask fd).diff m)
      rw [Filter.isIn_diff, hm, eq_none_iff_isIn.mp rfl, Bool.false_and]
    · rfl
  · have hlt : fd < s.waiter.poll.setsize := (s.waiter.poll.used fd hm).2
    have hk : (s.delFileEvent fd m).kernel = aeApiDelEvent s.kernel fd m := if_pos ⟨hlt, hm⟩
    rw [hk, aeApiDelEvent_knote, h fd' x]
    split
    · next hf =>
      subst fd'
      change _ = x.isIn ((s.mask fd).diff m)
      simp [Filter.isIn_diff]
    · next hf => simp [hf, State.mask]

/-- Closing a descriptor is harmless exactly when its slot has no events. -/
theorem Agree.close_iff (h : Agree s) : Agree (s.close fd) ↔ s.mask fd = .none := by
  constructor
  · intro ht
    refine eq_none_iff_isIn.mpr fun x => ?_
    have hx : (s.kernel.close fd).knote fd x = x.isIn (s.mask fd) := ht fd x
    rw [← hx]
    simp [Kernel.close]
  · intro hm fd' x
    change (s.kernel.close fd).knote fd' x = x.isIn (s.mask fd')
    by_cases hf : fd' = fd
    · subst fd'
      simp [Kernel.close, eq_none_iff_isIn.mp hm]
    · simpa [Kernel.close, hf] using h fd' x

/-- A step keeps table and kernel together exactly when it is guarded. -/
theorem agree_step_iff {a : Act F} (h : Agree s) (hs : Step s a t) : Agree t ↔ Guard s a := by
  subst hs
  cases a with
  | setFileEvent refused fd mask f => exact h.setFileEvent_iff
  | delFileEvent fd mask => exact iff_of_true h.delFileEvent trivial
  | close fd => exact h.close_iff
  | install fd => exact iff_of_true h trivial

theorem create_mask {setsize pipe : ℕ} :
    (State.create setsize k pipe refused : State F).mask fd =
      if fd = pipe ∧ pipe < setsize ∧
        (aeApiUpdEvent k.create refused pipe ⟨true, false⟩).2 = true then ⟨true, false⟩
      else .none := by
  change (Poll.events _ fd).mask = _
  rw [State.create, Poll.fileEventUpdate_events]
  split
  · next h => exact (if_pos h).symm
  · next h => exact (if_neg h).symm

theorem agree_create {setsize pipe : ℕ} :
    Agree (State.create setsize k pipe refused : State F) := by
  have hnone : ∀ x : Filter, x.isIn .none = false := eq_none_iff_isIn.mp rfl
  intro fd x
  rw [create_mask]
  by_cases hlt : pipe < setsize
  · have hk : (State.create setsize k pipe refused : State F).kernel =
        (aeApiUpdEvent k.create refused pipe ⟨true, false⟩).1 := if_pos hlt
    rw [hk]
    cases hr : added k.create refused pipe ⟨true, false⟩ .read with
    | error e =>
      have ha : aeApiUpdEvent k.create refused pipe ⟨true, false⟩ = (k.create, false) := by
        simp [aeApiUpdEvent, hr]
      simp [ha, hnone]
    | ok k' =>
      have ha : aeApiUpdEvent k.create refused pipe ⟨true, false⟩ =
          (deleted k' pipe .all .write, true) := by
        have hw : added k' refused pipe ⟨true, false⟩ .write = .ok k' := rfl
        simp [aeApiUpdEvent, hr, hw]
      rw [ha, deleted_knote, (added_ok hr).2.1]
      by_cases hf : fd = pipe
      · cases x <;> simp [hf, hlt, Filter.isIn]
      · simp [hf, hnone]
  · have hk : (State.create setsize k pipe refused : State F).kernel = k.create := if_neg hlt
    simp [hk, hlt, hnone]

/-- A run keeps table and filters together throughout exactly when it is guarded throughout. -/
theorem filters_agree_iff {setsize pipe : ℕ} {acts : List (Act F)} :
    Run (Keeping Agree Step) (.create setsize k pipe refused) acts t ↔
      Run (Guarded Guard Step) (.create setsize k pipe refused) acts t :=
  (Run.guarded_iff (I := Agree) (fun _ _ _ hu hst => agree_step_iff hu hst) agree_create).symm

/-- No registration is lost: the filters of a descriptor are at least the directions of its slot. -/
def Covers (s : State F) : Prop := ∀ fd x, x.isIn (s.mask fd) = true → s.kernel.knote fd x = true

/-- No descriptor is closed while its slot has events. -/
def Unused (s : State F) : Act F → Prop
  | .close fd => s.mask fd = .none
  | _ => True

theorem Covers.setFileEvent (h : Covers s) : Covers (s.setFileEvent refused fd m f) := by
  intro fd' x hx
  have hmask : (s.setFileEvent refused fd m f).mask fd' = _ := EIoWaiter.setFileEvent_mask
  rw [hmask] at hx
  by_cases hlt : fd < s.waiter.poll.setsize
  · have hk : (s.setFileEvent refused fd m f).kernel = (aeApiAddEvent s.kernel refused fd m).1 :=
      if_pos hlt
    rw [hk]
    cases ha : (aeApiAddEvent s.kernel refused fd m).2 with
    | true =>
      rw [(aeApiAddEvent_ok ha).2, Bool.or_eq_true]
      by_cases hf : fd' = fd
      · subst fd'
        rw [if_pos ⟨rfl, hlt, ha⟩, Filter.isIn_union, Bool.or_eq_true] at hx
        exact hx.imp (h fd x) fun hm => by simp [hm]
      · rw [if_neg fun hn => hf hn.1] at hx
        exact Or.inl (h fd' x hx)
    | false =>
      rw [if_neg fun hn => by simp [ha] at hn] at hx
      exact (aeApiAddEvent_failed ha).mpr (Or.inl (h fd' x hx))
  · have hk : (s.setFileEvent refused fd m f).kernel = s.kernel := if_neg hlt
    rw [if_neg fun hn => hlt hn.2.1] at hx
    rw [hk]
    exact h fd' x hx

theorem Covers.delFileEvent (h : Covers s) : Covers (s.delFileEvent fd m) := by
  intro fd' x hx
  have hmask : (s.delFileEvent fd m).mask fd' = _ := EIoWaiter.delFileEvent_mask
  have hold : x.isIn (s.mask fd') = true ∧ ¬ (fd' = fd ∧ x.isIn m = true) := by
    rw [hmask] at hx
    split at hx
    · next hf =>
      subst fd'
      rw [Filter.isIn_diff, Bool.and_eq_true, Bool.not_eq_true'] at hx
      exact ⟨hx.1, fun hn => by simp [hn.2] at hx⟩
    · next hf => exact ⟨hx, fun hn => hf hn.1⟩
  have hk := h fd' x hold.1
  change Kernel.knote (if _ then _ else _) fd' x = true
  split
  · rw [aeApiDelEvent_knote, hk, Bool.true_and, Bool.not_eq_true', Bool.and_eq_false_iff,
      decide_eq_false_iff_not]
    by_cases hf : fd' = fd
    · exact Or.inr (by simpa using fun hm => hold.2 ⟨hf, hm⟩)
    · exact Or.inl hf
  · exact hk

theorem Covers.close_iff (h : Covers s) : Covers (s.close fd) ↔ s.mask fd = .none := by
  constructor
  · intro ht
    refine eq_none_iff_isIn.mpr fun x => ?_
    have hx : x.isIn (s.mask fd) = true → (s.kernel.close fd).knote fd x = true := ht fd x
    simpa [Kernel.close] using hx
  · intro hm fd' x hx
    change x.isIn (s.mask fd') = true at hx
    have hne : fd' ≠ fd := by
      rintro rfl
      simp [eq_none_iff_isIn.mp hm] at hx
    simpa [State.close, Kernel.close, hne] using h fd' x hx

theorem covers_step_iff {a : Act F} (h : Covers s) (hs : Step s a t) : Covers t ↔ Unused s a := by
  subst hs
  cases a with
  | setFileEvent refused fd mask f => exact iff_of_true h.setFileEvent trivial
  | delFileEvent fd mask => exact iff_of_true h.delFileEvent trivial
  | close fd => exact h.close_iff
  | install fd => exact iff_of_true h trivial

/-- Whatever `kevent` refuses, no registration is lost throughout a run exactly when no descriptor
is closed while its slot has events. -/
theorem filters_cover_iff {setsize pipe : ℕ} {acts : List (Act F)} :
    Run (Keeping Covers Step) (.create setsize k pipe refused) acts t ↔
      Run (Guarded Unused Step) (.create setsize k pipe refused) acts t :=
  (Run.guarded_iff (I := Covers) (fun _ _ _ hu hst => covers_step_iff hu hst)
    fun fd x hx => (agree_create fd x).trans hx).symm

/-! Kevents -/

variable {D : Type} {fe : FileEvent D} {p : Poll D} {timeout : ℤ} {i : Invocation D}

/-- The callback of a slot for one direction. -/
def callback (fe : FileEvent D) : Filter → Option FileProc
  | .read => fe.rfileProc
  | .write => fe.wfileProc

/-- The file events of `eco_poll_process_events(ECO_POLL_ALL_EVENTS, timeout)`; `batch` is what
`kevent` returns if it is called. -/
def processFileEvents (p : Poll D) (timeout : ℤ) (batch : List (ℕ × Filter)) :
    List (Invocation D) :=
  if p.maxfd ≠ -1 ∨ timeout ≠ 0 then
    batch.flatMap fun e => (p.events e.1).dispatch e.1 e.2.mask
  else []

/-- A kevent of a registered direction runs the callback of that direction, and no other. -/
theorem dispatch_isIn (h : x.isIn fe.mask = true) : ∃ proc, callback fe x = some proc ∧
    ∀ fd, fe.dispatch fd x.mask = [⟨proc, fd, fe.clientData, x.mask⟩] := by
  cases x with
  | read =>
    obtain ⟨proc, hp⟩ := Option.isSome_iff_exists.mp (fe.readProc h)
    change fe.mask.readable = true at h
    exact ⟨proc, hp, fun fd => by simp [FileEvent.dispatch, Filter.mask, h, hp]⟩
  | write =>
    obtain ⟨proc, hp⟩ := Option.isSome_iff_exists.mp (fe.writeProc h)
    change fe.mask.writable = true at h
    exact ⟨proc, hp, fun fd => by simp [FileEvent.dispatch, Filter.mask, h, hp]⟩

/-- A kevent of any other direction runs none. -/
theorem dispatch_not_isIn (h : x.isIn fe.mask = false) : fe.dispatch fd x.mask = [] := by
  cases x <;> simp_all [FileEvent.dispatch, Filter.mask, Filter.isIn]

/-- What the callback of a kevent is given. -/
def Answers (p : Poll D) (e : ℕ × Filter) (i : Invocation D) : Prop :=
  some i.proc = callback (p.events e.1) e.2 ∧ i.fd = e.1 ∧
    i.clientData = (p.events e.1).clientData ∧ i.mask = e.2.mask

/-- The direction of a kevent is in the table. -/
def registered (p : Poll D) (e : ℕ × Filter) : Bool := e.2.isIn (p.maskOf e.1)

/-- The kevents of registered directions run one callback each, in their order, and the others run
none. -/
theorem processFileEvents_answers {batch : List (ℕ × Filter)} :
    List.Forall₂ (Answers p) (batch.filter (registered p))
      (processFileEvents p timeout batch) := by
  unfold processFileEvents
  split
  · induction batch with
    | nil => exact .nil
    | cons e batch ih =>
      rw [List.flatMap_cons]
      cases hx : registered p e with
      | true =>
        obtain ⟨proc, hp, hd⟩ := dispatch_isIn hx
        rw [hd, List.filter_cons_of_pos hx]
        exact .cons ⟨hp.symm, rfl, rfl, rfl⟩ ih
      | false =>
        rw [dispatch_not_isIn hx, List.filter_cons_of_neg (by simp [hx])]
        exact ih
  · next hn =>
    have hnone : ∀ e ∈ batch, ¬ registered p e = true := by
      intro e _ hx
      have hne : p.maskOf e.1 ≠ .none := by
        intro h
        simp [registered, eq_none_iff_isIn.mp h] at hx
      exact hn (Or.inl (p.maxfd_ne hne))
    rw [List.filter_eq_nil_iff.mpr hnone]
    exact .nil

/-- As long as table and filters agree, every kevent runs exactly one callback, the one that is
registered for its direction, in the order of the kevents. -/
theorem kevents_reach {setsize pipe : ℕ} {acts : List (Act F)} {batch : List (ℕ × Filter)}
    (h : Run (Guarded Guard Step) (.create setsize k pipe refused) acts t)
    (hb : ∀ e ∈ batch, t.kernel.knote e.1 e.2 = true) :
    List.Forall₂ (Answers t.waiter.poll) batch
      (processFileEvents t.waiter.poll timeout batch) := by
  have ht : Agree t :=
    h.invariant (fun _ _ _ hu hst => (agree_step_iff hu hst.2).mpr hst.1) agree_create
  have hin : ∀ e ∈ batch, registered t.waiter.poll e = true := fun e he =>
    (ht e.1 e.2).symm.trans (hb e he)
  have hanswers : List.Forall₂ (Answers t.waiter.poll) (batch.filter (registered t.waiter.poll))
      (processFileEvents t.waiter.poll timeout batch) := processFileEvents_answers
  rwa [List.filter_eq_self.mpr hin] at hanswers

/-- A process whose only open descriptor is the pipe. -/
def withPipe : Kernel Filter where
  isOpen fd := fd == 5
  knote _ _ := false
  live _ _ h := absurd h Bool.false_ne_true

/-- Both directions of a socket fire, and its record is the first one of the waiter. -/
theorem kevents_reach_both : ∃ (t : State Unit) (l : List (Invocation ℕ)),
    processFileEvents t.waiter.poll 0 [(3, .write), (3, .read)] = l ∧
      List.Forall₂ (Answers t.waiter.poll) [(3, .write), (3, .read)] l := by
  have h : Run (Guarded Guard Step) (.create 8 withPipe 5 fun _ => false : State Unit)
      [.install 3, .setFileEvent (fun _ => false) 3 .all ()] _ :=
    .guard rfl trivial <| .guard rfl (fun hn => by cases hn.2.2.2.2.2) .refl
  exact ⟨_, _, rfl, kevents_reach h (by decide)⟩

end CxxFiber.KqueueApi
