import CxxFiber.EIoWaiter
import CxxFiber.Library.Epoll
import CxxFiber.Library.Runs

/-! The event table of an `EIoWaiter` beside the interest list of its epoll. -/
namespace CxxFiber

open Epoll Transition

namespace EcoAe

variable {D X : Type} [DecidableEq X]

/-- The directions of a mask as they are put into `epoll_event`. -/
def eeEvents (mask : Mask) : EpollEvents := ⟨mask.readable, mask.writable, false, false⟩

/-- `aeApiAddEvent`. The old events are merged. -/
def aeApiAddEvent (p : Poll D) (k : Kernel X EpollEvents) (refused : Bool) (fd : ℕ) (mask : Mask) :
    Except Errno (Kernel X EpollEvents) :=
  let events := eeEvents (mask.union (p.maskOf fd))
  k.ctl refused fd (if p.maskOf fd = .none then .add events else .mod events)

/-- `aeApiUpdEvent`. The old events are not merged. -/
def aeApiUpdEvent (p : Poll D) (k : Kernel X EpollEvents) (refused : Bool) (fd : ℕ) (mask : Mask) :
    Except Errno (Kernel X EpollEvents) :=
  let events := eeEvents mask
  k.ctl refused fd (if p.maskOf fd = .none then .add events else .mod events)

/-- `aeApiDelEvent`. It is called with the mask of the slot already cleared, and the result of
`epoll_ctl` is not looked at. -/
def aeApiDelEvent (p : Poll D) (k : Kernel X EpollEvents) (fd : ℕ) (delmask : Mask) :
    Kernel X EpollEvents :=
  let mask := (p.maskOf fd).diff delmask
  match k.ctl false fd (if mask ≠ .none then .mod (eeEvents mask) else .del) with
  | .ok k' => k'
  | .error _ => k

variable {p : Poll D} {k : Kernel X EpollEvents} {fd fd' : ℕ} {m : Mask} {proc : FileProc}
  {d : Option D} {api refused : Bool}

theorem Poll.fileEventUpdate_events : (p.fileEventUpdate api fd m proc d).1.events fd' =
    if fd' = fd ∧ fd < p.setsize ∧ api = true then (p.events fd).update m proc d
    else p.events fd' := by
  unfold fileEventUpdate
  split
  · next h =>
    cases api with
    | false => simp
    | true => by_cases hf : fd' = fd <;> simp [hf, h]
  · next h => simp [h]

theorem Poll.fileEventUpdate_clientData {a : D}
    (h : ((p.fileEventUpdate api fd m proc none).1.events fd').clientData = some a) :
    (p.events fd').clientData = some a := by
  rw [Poll.fileEventUpdate_events] at h
  split at h
  · cases h
  · exact h

end EcoAe

namespace Registration

open EcoAe

variable {F X : Type} [DecidableEq X]

/-- An `EIoWaiter` and the kernel under it. -/
structure State (F X : Type) where
  waiter : EIoWaiter F
  kernel : Kernel X EpollEvents

/-- `install` is any call that returns a new descriptor. -/
inductive Act (F X : Type)
  | setFileEvent (refused : Bool) (fd : ℕ) (mask : Mask) (f : F)
  | delFileEvent (fd : ℕ) (mask : Mask)
  | close (fd : ℕ)
  | install (fd : ℕ) (x : X)

namespace State

def mask (s : State F X) (fd : ℕ) : Mask := s.waiter.mask fd

/-- The constructor of `EIoWaiter`; whether the pipe could be registered is not looked at. -/
def create (setsize : ℕ) (k : Kernel X EpollEvents) (pipe : ℕ) (refused : Bool) : State F X :=
  let w : EIoWaiter F := .create setsize
  let answer := aeApiUpdEvent w.poll k.create refused pipe ⟨true, false⟩
  { waiter :=
      { w with
        poll := (w.poll.fileEventUpdate answer.isOk pipe ⟨true, false⟩ .pipeEventProc none).1
        old := fun fd a h => w.old fd a (Poll.fileEventUpdate_clientData h)
        apart := fun fd fd' a h h' => w.apart fd fd' a (Poll.fileEventUpdate_clientData h)
          (Poll.fileEventUpdate_clientData h') }
    kernel := if pipe < setsize then answer.toOption.getD k.create else k.create }

/-- The kernel is asked only about descriptors of the table. -/
def setFileEvent (s : State F X) (refused : Bool) (fd : ℕ) (mask : Mask) (f : F) : State F X :=
  let answer := aeApiAddEvent s.waiter.poll s.kernel refused fd mask
  { waiter := s.waiter.setFileEvent answer.isOk fd mask f
    kernel := if fd < s.waiter.poll.setsize then answer.toOption.getD s.kernel else s.kernel }

/-- `eco_poll_file_event_delete` returns early on a slot without events. -/
def delFileEvent (s : State F X) (fd : ℕ) (mask : Mask) : State F X where
  waiter := s.waiter.delFileEvent fd mask
  kernel := if fd < s.waiter.poll.setsize ∧ s.mask fd ≠ .none then
    aeApiDelEvent (s.waiter.delFileEvent fd mask).poll s.kernel fd mask else s.kernel

/-- The hooked `close` forgets the file context of `fd` and calls `close_f`; it leaves the table of
events alone. -/
def close (s : State F X) (fd : ℕ) : State F X := { s with kernel := s.kernel.close fd }

def install (s : State F X) (fd : ℕ) (x : X) : State F X :=
  { s with kernel := s.kernel.install fd x }

def step (s : State F X) : Act F X → State F X
  | .setFileEvent refused fd mask f => s.setFileEvent refused fd mask f
  | .delFileEvent fd mask => s.delFileEvent fd mask
  | .close fd => s.close fd
  | .install fd x => s.install fd x

end State

def Step (s : State F X) (a : Act F X) (t : State F X) : Prop := t = s.step a

/-- The entry that a mask calls for. -/
def listed (m : Mask) : Option EpollEvents := if m = .none then none else some (eeEvents m)

/-- A descriptor is in the interest list exactly when its slot has events, and with the same ones;
nothing else is in it. -/
structure Agree (s : State F X) : Prop where
  entry : ∀ fd, s.kernel.entry fd = listed (s.mask fd)
  current : s.kernel.Current

/-- `epoll_ctl` takes the registration. -/
def Taken (s : State F X) (refused : Bool) (fd : ℕ) : Prop :=
  fd < s.waiter.poll.setsize ∧ s.kernel.file fd ≠ none ∧ (s.mask fd = .none → refused = false)

/-- No registration without events is taken for a slot without events, and no descriptor is closed
while its slot has events. -/
def Guard (s : State F X) : Act F X → Prop
  | .setFileEvent refused fd mask _ => Taken s refused fd → mask ≠ .none ∨ s.mask fd ≠ .none
  | .close fd => s.mask fd = .none
  | _ => True

variable {s t : State F X} {refused : Bool} {fd fd' : ℕ} {m m' : Mask} {f : F} {x : X}

theorem listed_eq_none : listed m = none ↔ m = .none := by
  unfold listed
  split
  · next h => simp [h]
  · next h => simp [h]

theorem listed_of_ne (h : m ≠ .none) : listed m = some (eeEvents m) := if_neg h

theorem union_comm : m.union m' = m'.union m := by
  simp [Mask.union, Bool.or_comm]

theorem union_eq_none : m.union m' = .none ↔ m = .none ∧ m' = .none := by
  simp only [Mask.ext_iff, Mask.union, Mask.none, Bool.or_eq_false_iff]
  tauto

theorem diff_diff : (m.diff m').diff m' = m.diff m' := by
  simp [Mask.diff]

namespace Agree

omit [DecidableEq X] in
theorem entry_ne (h : Agree s) (hm : s.mask fd ≠ .none) : s.kernel.entry fd ≠ none := by
  rw [h.entry]
  intro hn
  exact hm (listed_eq_none.mp hn)

omit [DecidableEq X] in
theorem entry_none (h : Agree s) (hm : s.mask fd = .none) : s.kernel.entry fd = none := by
  rw [h.entry]
  exact listed_eq_none.mpr hm

/-- What `epoll_ctl` answers to a registration of an open descriptor. -/
theorem addEvent_open (h : Agree s) (hf : s.kernel.file fd ≠ none) :
    aeApiAddEvent s.waiter.poll s.kernel refused fd m =
      if s.mask fd = .none ∧ refused = true then .error .other
      else .ok (s.kernel.put fd (some (eeEvents (m.union (s.mask fd))))) := by
  change s.kernel.ctl refused fd (if s.mask fd = .none then .add (eeEvents (m.union (s.mask fd)))
    else .mod (eeEvents (m.union (s.mask fd)))) = _
  by_cases hm : s.mask fd = .none
  · rw [if_pos hm, Kernel.ctl_add hf (h.entry_none hm)]
    simp [hm]
  · rw [if_neg hm, Kernel.ctl_mod (h.entry_ne hm)]
    simp [hm]

/-- A registration that is taken sets the entry and the slot. -/
theorem setFileEvent_taken (h : Agree s) (ht : Taken s refused fd) :
    (s.setFileEvent refused fd m f).kernel =
      s.kernel.put fd (some (eeEvents (m.union (s.mask fd)))) ∧
    ∀ fd', (s.setFileEvent refused fd m f).mask fd' =
      if fd' = fd then m.union (s.mask fd) else s.mask fd' := by
  obtain ⟨hlt, hf, hr⟩ := ht
  have hanswer : aeApiAddEvent s.waiter.poll s.kernel refused fd m =
      .ok (s.kernel.put fd (some (eeEvents (m.union (s.mask fd))))) := by
    rw [h.addEvent_open hf, if_neg]
    rintro ⟨hm, hrefused⟩
    simp [hr hm] at hrefused
  constructor
  · simp [State.setFileEvent, hanswer, hlt, Except.toOption]
  · intro fd'
    have hmask : (s.setFileEvent refused fd m f).mask fd' =
        if fd' = fd ∧ fd < s.waiter.poll.setsize ∧ true = true then (s.mask fd).union m
        else s.mask fd' := by
      unfold State.setFileEvent
      rw [hanswer]
      exact EIoWaiter.setFileEvent_mask
    simpa [hlt, union_comm] using hmask

/-- Any other registration leaves no trace but the count. -/
theorem setFileEvent_not_taken (h : Agree s) (ht : ¬ Taken s refused fd) :
    (s.setFileEvent refused fd m f).kernel = s.kernel ∧
    ∀ fd', (s.setFileEvent refused fd m f).mask fd' = s.mask fd' := by
  by_cases hlt : fd < s.waiter.poll.setsize
  · have hanswer : ∃ e, aeApiAddEvent s.waiter.poll s.kernel refused fd m = .error e := by
      by_cases hf : s.kernel.file fd = none
      · exact ⟨.ebadf, Kernel.ctl_closed hf⟩
      · refine ⟨.other, ?_⟩
        rw [h.addEvent_open hf, if_pos]
        by_contra hn
        refine ht ⟨hlt, hf, fun hm => ?_⟩
        simpa [hm] using hn
    obtain ⟨e, he⟩ := hanswer
    constructor
    · simp [State.setFileEvent, he, Except.toOption]
    · intro fd'
      unfold State.setFileEvent
      rw [he]
      exact EIoWaiter.setFileEvent_mask.trans (by simp [Except.isOk, Except.toBool]; rfl)
  · constructor
    · simp [State.setFileEvent, hlt]
    · intro fd'
      exact EIoWaiter.setFileEvent_mask.trans (by simp [hlt]; rfl)

/-- A deletion takes the directions out of the slot, and the entry follows. -/
theorem delFileEvent_mask :
    (s.delFileEvent fd m).mask fd' = if fd' = fd then (s.mask fd).diff m else s.mask fd' :=
  EIoWaiter.delFileEvent_mask

theorem delFileEvent_used (h : Agree s) (hm : s.mask fd ≠ .none) :
    (s.delFileEvent fd m).kernel = s.kernel.put fd (listed ((s.mask fd).diff m)) := by
  have hlt : fd < s.waiter.poll.setsize := (s.waiter.poll.used fd hm).2
  have hmask : (s.waiter.delFileEvent fd m).poll.maskOf fd = (s.mask fd).diff m :=
    EIoWaiter.delFileEvent_mask.trans (if_pos rfl)
  have hentry := h.entry_ne hm
  have hkernel : (s.delFileEvent fd m).kernel =
      aeApiDelEvent (s.waiter.delFileEvent fd m).poll s.kernel fd m := if_pos ⟨hlt, hm⟩
  rw [hkernel, aeApiDelEvent]
  simp only [hmask, diff_diff]
  by_cases hd : (s.mask fd).diff m = .none
  · rw [if_neg (not_not.mpr hd), Kernel.ctl_del hentry, listed_eq_none.mpr hd]
  · rw [if_pos hd, Kernel.ctl_mod hentry, listed_of_ne hd]

/-- After one entry and one slot have been set, they agree if these two do. -/
theorem put_iff {e : Option EpollEvents} (h : Agree s) (hf : s.kernel.file fd ≠ none)
    (hk : t.kernel = s.kernel.put fd e)
    (hm : ∀ fd', t.mask fd' = if fd' = fd then m else s.mask fd') : Agree t ↔ e = listed m := by
  constructor
  · intro ht
    have hentry := ht.entry fd
    rw [hk, Kernel.put_entry hf, hm] at hentry
    simpa using hentry
  · intro he
    constructor
    · intro fd'
      rw [hk, Kernel.put_entry hf, hm]
      split
      · exact he
      · exact h.entry fd'
    · rw [hk]
      exact Kernel.put_current h.current

omit [DecidableEq X] in
theorem of_eq (h : Agree s) (hk : t.kernel = s.kernel) (hm : ∀ fd', t.mask fd' = s.mask fd') :
    Agree t := by
  constructor
  · intro fd'
    rw [hk, hm]
    exact h.entry fd'
  · rw [hk]
    exact h.current

theorem setFileEvent_iff (h : Agree s) : Agree (s.setFileEvent refused fd m f) ↔
    (Taken s refused fd → m ≠ .none ∨ s.mask fd ≠ .none) := by
  by_cases ht : Taken s refused fd
  · obtain ⟨hk, hm⟩ := h.setFileEvent_taken (m := m) (f := f) ht
    rw [h.put_iff ht.2.1 hk hm, eq_comm]
    have hu : listed (m.union (s.mask fd)) = some (eeEvents (m.union (s.mask fd))) ↔
        m.union (s.mask fd) ≠ .none := by
      constructor
      · intro he hn
        rw [listed_eq_none.mpr hn] at he
        cases he
      · exact listed_of_ne
    rw [hu, ne_eq, union_eq_none]
    tauto
  · obtain ⟨hk, hm⟩ := h.setFileEvent_not_taken (m := m) (f := f) ht
    have ht' := h.of_eq hk hm
    tauto

theorem delFileEvent (h : Agree s) : Agree (s.delFileEvent fd m) := by
  by_cases hm : s.mask fd = .none
  · refine h.of_eq (if_neg fun hn => hn.2 hm) ?_
    intro fd'
    rw [delFileEvent_mask]
    split
    · next hf => simp [hf, hm, Mask.diff, Mask.none]
    · rfl
  · have hf := Kernel.file_of_entry (h.entry_ne hm)
    exact (h.put_iff hf (h.delFileEvent_used hm) fun fd' => delFileEvent_mask).mpr rfl

/-- Closing a descriptor is harmless exactly when its slot has no events. -/
theorem close_iff (h : Agree s) : Agree (s.close fd) ↔ s.mask fd = .none := by
  constructor
  · intro ht
    have hentry := ht.entry fd
    change (s.kernel.close fd).entry fd = listed (s.mask fd) at hentry
    rw [Kernel.close_entry, if_pos rfl] at hentry
    exact listed_eq_none.mp hentry.symm
  · intro hm
    constructor
    · intro fd'
      change (s.kernel.close fd).entry fd' = listed (s.mask fd')
      rw [Kernel.close_entry]
      split
      · next hf => rw [hf, listed_eq_none.mpr hm]
      · exact h.entry fd'
    · exact Kernel.close_current h.current (h.entry_none hm)

omit [DecidableEq X] in
theorem install (h : Agree s) : Agree (s.install fd x) := by
  constructor
  · intro fd'
    exact (Kernel.install_entry h.current).trans (h.entry fd')
  · exact Kernel.install_current h.current

end Agree

/-- A step keeps table and kernel together exactly when it is guarded. -/
theorem agree_step_iff {a : Act F X} (h : Agree s) (hs : Step s a t) : Agree t ↔ Guard s a := by
  subst hs
  cases a with
  | setFileEvent refused fd mask f => exact h.setFileEvent_iff
  | delFileEvent fd mask => exact iff_of_true h.delFileEvent trivial
  | close fd => exact h.close_iff
  | install fd x => exact iff_of_true h.install trivial

omit [DecidableEq X] in
theorem agree_new {setsize : ℕ} {k : Kernel X EpollEvents} :
    Agree (⟨.create setsize, k.create⟩ : State F X) := by
  constructor
  · intro fd
    rw [Kernel.create_entry]
    rfl
  · exact Kernel.create_current

/-- What the constructor registers. -/
def pipeAnswer (k : Kernel X EpollEvents) (pipe : ℕ) (refused : Bool) :
    Except Errno (Kernel X EpollEvents) :=
  k.create.ctl refused pipe (.add (eeEvents ⟨true, false⟩))

theorem create_mask {setsize pipe : ℕ} {k : Kernel X EpollEvents} :
    (State.create setsize k pipe refused : State F X).mask fd =
      if fd = pipe ∧ pipe < setsize ∧ (pipeAnswer k pipe refused).isOk = true then ⟨true, false⟩
      else .none := by
  change (Poll.events _ fd).mask = _
  rw [State.create, Poll.fileEventUpdate_events]
  split
  · next h => exact (if_pos h).symm
  · next h => exact (if_neg h).symm

theorem create_kernel {setsize pipe : ℕ} {k : Kernel X EpollEvents} :
    (State.create setsize k pipe refused : State F X).kernel =
      if pipe < setsize then (pipeAnswer k pipe refused).toOption.getD k.create else k.create := rfl

theorem agree_create {setsize pipe : ℕ} {k : Kernel X EpollEvents} :
    Agree (State.create setsize k pipe refused : State F X) := by
  have hnew : Agree (⟨.create setsize, k.create⟩ : State F X) := agree_new
  by_cases hlt : pipe < setsize
  · cases ha : pipeAnswer k pipe refused with
    | error e =>
      refine hnew.of_eq ?_ fun fd => ?_
      · simp [create_kernel, ha, Except.toOption]
      · rw [create_mask, ha]
        exact if_neg fun h => Bool.false_ne_true h.2.2
    | ok k' =>
      obtain ⟨hf, rfl⟩ := Kernel.ctl_add_ok Kernel.create_entry ha
      have hm : ∀ fd, (State.create setsize k pipe refused : State F X).mask fd =
          if fd = pipe then ⟨true, false⟩ else .none := by
        intro fd
        rw [create_mask, ha]
        simp [hlt, Except.isOk, Except.toBool]
      have hk : (State.create setsize k pipe refused : State F X).kernel =
          k.create.put pipe (some (eeEvents ⟨true, false⟩)) := by
        simp [create_kernel, ha, hlt, Except.toOption]
      exact (hnew.put_iff hf hk hm).mpr rfl
  · refine hnew.of_eq ?_ fun fd => ?_
    · simp [create_kernel, hlt]
    · rw [create_mask]
      exact if_neg fun h => hlt h.2.1

/-- Of an open descriptor no registration fails because of an entry that should not be there, or of
one that should. -/
def NeverStale (s : State F X) : Prop :=
  ∀ refused fd m, s.kernel.file fd ≠ none →
    aeApiAddEvent s.waiter.poll s.kernel refused fd m ≠ .error .eexist ∧
    aeApiAddEvent s.waiter.poll s.kernel refused fd m ≠ .error .enoent

theorem Agree.neverStale (h : Agree s) : NeverStale s := by
  intro refused fd m hf
  rw [h.addEvent_open hf]
  split <;> simp

theorem guarded_agree {as : List (Act F X)} (hs : Agree s) (h : Run (Guarded Guard Step) s as t) :
    Agree t :=
  h.invariant (fun _ _ _ hu hst => (agree_step_iff hu hst.2).mpr hst.1) hs

/-- A run keeps table and kernel together throughout exactly when it is guarded throughout. -/
theorem agree_iff_guarded {setsize pipe : ℕ} {k : Kernel X EpollEvents} {as : List (Act F X)} :
    Run (Keeping Agree Step) (.create setsize k pipe refused) as t ↔
      Run (Guarded Guard Step) (.create setsize k pipe refused) as t :=
  (Run.guarded_iff (I := Agree) (fun _ _ _ hu hst => agree_step_iff hu hst) agree_create).symm

/-- As long as no slot without events is registered without events and no descriptor is closed
with its slot in use, table and kernel agree. -/
theorem table_agrees {setsize pipe : ℕ} {k : Kernel X EpollEvents} {as : List (Act F X)}
    (h : Run (Guarded Guard Step) (.create setsize k pipe refused) as t) :
    Agree t ∧ NeverStale t := by
  have ht : Agree t := guarded_agree agree_create h
  exact ⟨ht, ht.neverStale⟩

/-- A process whose only open descriptor is the pipe. -/
def withPipe : Kernel ℕ EpollEvents where
  bound := 6
  file fd := if fd = 5 then some 0 else none
  epoll _ _ := none
  low fd h := by
    split at h
    · omega
    · exact absurd rfl h
  live _ _ h := absurd rfl h

/-- A descriptor that is registered, cleared, closed and opened again. -/
theorem table_agrees_reopened :
    ∃ t : State Unit ℕ, Run (Guarded Guard Step) (.create 8 withPipe 5 false)
      [.install 3 1, .setFileEvent false 3 ⟨true, false⟩ (), .delFileEvent 3 .all, .close 3,
        .install 3 2] t ∧ Agree t ∧ NeverStale t := by
  have hreg : (⟨true, false⟩ : Mask) ≠ .none := by decide
  have h : Run (Guarded Guard Step) (.create 8 withPipe 5 false : State Unit ℕ)
      [.install 3 1, .setFileEvent false 3 ⟨true, false⟩ (), .delFileEvent 3 .all, .close 3,
        .install 3 2] _ :=
    Run.guard rfl trivial <| Run.guard rfl (fun _ => Or.inl hreg) <| Run.guard rfl trivial <|
      Run.guard rfl rfl <| Run.guard rfl trivial .refl
  exact ⟨_, h, table_agrees h⟩

theorem table_disagrees :
    (∃ t : State Unit ℕ, Run Step (.create 8 withPipe 5 false)
      [.install 3 1, .setFileEvent false 3 .none (), .delFileEvent 3 .all] t ∧
      t.mask 3 = .none ∧ t.kernel.entry 3 = some ⟨false, false, false, false⟩ ∧
      aeApiAddEvent t.waiter.poll t.kernel false 3 ⟨true, false⟩ = .error .eexist) ∧
    ∃ t : State Unit ℕ, Run Step (.create 8 withPipe 5 false)
      [.install 3 1, .setFileEvent false 3 ⟨true, false⟩ (), .close 3, .install 3 2] t ∧
      t.mask 3 = ⟨true, false⟩ ∧ t.kernel.entry 3 = none ∧
      aeApiAddEvent t.waiter.poll t.kernel false 3 ⟨true, false⟩ = .error .enoent := by
  refine ⟨⟨_, .step rfl (.step rfl (.step rfl .refl)), ?_, ?_, ?_⟩,
    ⟨_, .step rfl (.step rfl (.step rfl (.step rfl .refl))), ?_, ?_, ?_⟩⟩
  · decide
  · decide
  · rfl
  · decide
  · decide
  · rfl

end Registration
end CxxFiber
