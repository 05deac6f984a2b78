import CxxFiber.EcoAe.FileEvents

/-! `EIoWaiter`: the event table and the heap records that its slots point to. -/
namespace CxxFiber

open EcoAe

/-- Records are `sp<EFiber>` objects, and a record is told apart from a later one that `new` puts at
the same address: a slot that keeps the pointer to a deleted record does not name the later one. No
two slots share a record. -/
structure EIoWaiter (F : Type) where
  poll : Poll ℕ
  heap : ℕ → Option F
  next : ℕ
  waiters : ℤ
  old : ∀ fd a, (poll.events fd).clientData = some a → a < next
  apart : ∀ fd fd' a, (poll.events fd).clientData = some a →
    (poll.events fd').clientData = some a → fd = fd'

namespace EIoWaiter

variable {F : Type}

def create (setsize : ℕ) : EIoWaiter F := ⟨.create setsize, fun _ => none, 0, 0, nofun, nofun⟩

/-- The fiber that the record of a slot names. -/
def named (w : EIoWaiter F) (fd : ℕ) : Option F := (w.poll.events fd).clientData.bind w.heap

def mask (w : EIoWaiter F) (fd : ℕ) : Mask := w.poll.maskOf fd

/-- The slot has the null pointer that the signal pipe is registered with. -/
def Null (w : EIoWaiter F) (fd : ℕ) : Prop :=
  (w.poll.events fd).clientData.isNone ∧ (w.poll.events fd).rfileProc = some .pipeEventProc

/-- What `delFileEvent` hands to `delete` is a live record or null, and not a record that has been
deleted or what is found in a slot that was never written. Beyond the table nothing is deleted. -/
def Deletable (w : EIoWaiter F) (fd : ℕ) : Prop :=
  fd < w.poll.setsize → w.Null fd ∨ (w.named fd).isSome = true

instance (w : EIoWaiter F) (fd : ℕ) : Decidable (w.Null fd) :=
  inferInstanceAs (Decidable (_ ∧ _))

instance (w : EIoWaiter F) (fd : ℕ) : Decidable (w.Deletable fd) :=
  inferInstanceAs (Decidable (fd < w.poll.setsize → w.Null fd ∨ (w.named fd).isSome = true))

end EIoWaiter

namespace EcoAe.Poll

variable {D : Type} {p : Poll D} {fd fd' : ℕ} {m : Mask} {proc : FileProc} {d : D} {api : Bool}

@[simp] theorem fileEventCreate_setsize :
    (p.fileEventCreate api fd m proc d).1.setsize = p.setsize := by
  unfold fileEventCreate
  split
  · split <;> rfl
  · rfl

theorem fileEventCreate_ok : (p.fileEventCreate api fd m proc d).2 = true ↔
    fd < p.setsize ∧ api = true := by
  unfold fileEventCreate
  split
  · next h => cases api <;> simp [h]
  · next h => simp [h]

theorem fileEventCreate_events : (p.fileEventCreate api fd m proc d).1.events fd' =
    if fd' = fd ∧ fd < p.setsize ∧ api = true then (p.events fd).register m proc d
    else p.events fd' := by
  unfold fileEventCreate
  split
  · next h =>
    cases api with
    | false => simp
    | true => by_cases hf : fd' = fd <;> simp [hf, h]
  · next h => simp [h]

@[simp] theorem fileEventDelete_setsize : (p.fileEventDelete fd m).setsize = p.setsize := by
  unfold fileEventDelete
  split <;> rfl

@[simp] theorem fileEventDelete_clientData :
    ((p.fileEventDelete fd m).events fd').clientData = (p.events fd').clientData := by
  unfold fileEventDelete
  split
  · by_cases h : fd' = fd
    · subst h
      simp [FileEvent.clear]
    · simp [h]
  · rfl

@[simp] theorem fileEventDelete_rfileProc :
    ((p.fileEventDelete fd m).events fd').rfileProc = (p.events fd').rfileProc := by
  unfold fileEventDelete
  split
  · by_cases h : fd' = fd
    · subst h
      simp [FileEvent.clear]
    · simp [h]
  · rfl

theorem maskOf_of_le (h : p.setsize ≤ fd) : p.maskOf fd = .none := by
  by_contra hm
  have := (p.used fd hm).2
  omega

theorem fileEventDelete_maskOf : (p.fileEventDelete fd m).maskOf fd' =
    if fd' = fd then (p.maskOf fd).diff m else p.maskOf fd' := by
  unfold fileEventDelete
  split
  · by_cases h : fd' = fd
    · subst h
      simp [maskOf, FileEvent.clear]
    · simp [maskOf, h]
  · next hn =>
    by_cases h : fd' = fd
    · subst h
      have hm : p.maskOf fd' = .none := by
        by_cases hlt : fd' < p.setsize
        · by_contra hne
          exact hn ⟨hlt, hne⟩
        · exact maskOf_of_le (Nat.le_of_not_lt hlt)
      simp [hm, Mask.diff, Mask.none]
    · simp [h]

@[simp] theorem getFileEvents_eq : p.getFileEvents fd = p.maskOf fd := by
  unfold getFileEvents
  split
  · rfl
  · next h => exact (maskOf_of_le (Nat.le_of_not_lt h)).symm

end EcoAe.Poll

namespace EIoWaiter

variable {F : Type}

/-- A failed registration deletes the new record and is otherwise ignored. -/
def setFileEvent (w : EIoWaiter F) (api : Bool) (fd : ℕ) (mask : Mask) (f : F) : EIoWaiter F :=
  { poll := (w.poll.fileEventCreate api fd mask .fileEventProc w.next).1
    heap := if (w.poll.fileEventCreate api fd mask .fileEventProc w.next).2 then
      Function.update w.heap w.next (some f) else w.heap
    next := w.next + 1
    waiters := w.waiters + 1
    old := fun fd' a ha => by
      rw [Poll.fileEventCreate_events] at ha
      split at ha
      · have := Option.some.inj ha
        omega
      · have := w.old fd' a ha
        omega
    apart := fun j j' a hj hj' => by
      rw [Poll.fileEventCreate_events] at hj hj'
      split at hj <;> split at hj'
      · next h h' => rw [h.1, h'.1]
      · have := w.old j' a hj'
        have := Option.some.inj hj
        omega
      · have := w.old j a hj
        have := Option.some.inj hj'
        omega
      · exact w.apart j j' a hj hj' }

/-- The record of the slot is deleted, whoever put it there. -/
def delFileEvent (w : EIoWaiter F) (fd : ℕ) (mask : Mask) : EIoWaiter F :=
  if fd < w.poll.setsize then
    { poll := w.poll.fileEventDelete fd mask
      heap := (w.poll.events fd).clientData.elim w.heap fun a => Function.update w.heap a none
      next := w.next
      waiters := w.waiters - 1
      old := fun fd' a h => w.old fd' a (by simpa using h)
      apart := fun j j' a h h' => w.apart j j' a (by simpa using h) (by simpa using h') }
  else w

def getFileEvent (w : EIoWaiter F) (fd : ℕ) : Mask := w.poll.getFileEvents fd

variable {w : EIoWaiter F} {fd fd' : ℕ} {m : Mask} {f : F} {api : Bool}

@[simp] theorem getFileEvent_eq : w.getFileEvent fd = w.mask fd := Poll.getFileEvents_eq

@[simp] theorem setFileEvent_setsize :
    (w.setFileEvent api fd m f).poll.setsize = w.poll.setsize := Poll.fileEventCreate_setsize

@[simp] theorem delFileEvent_setsize :
    (w.delFileEvent fd m).poll.setsize = w.poll.setsize := by
  unfold delFileEvent
  split
  · exact Poll.fileEventDelete_setsize
  · rfl

theorem setFileEvent_mask : (w.setFileEvent api fd m f).mask fd' =
    if fd' = fd ∧ fd < w.poll.setsize ∧ api = true then (w.mask fd).union m else w.mask fd' := by
  simp only [mask, Poll.maskOf, setFileEvent, Poll.fileEventCreate_events]
  split <;> rfl

theorem delFileEvent_mask : (w.delFileEvent fd m).mask fd' =
    if fd' = fd then (w.mask fd).diff m else w.mask fd' := by
  unfold delFileEvent
  split
  · exact Poll.fileEventDelete_maskOf
  · next h =>
    by_cases hf : fd' = fd
    · subst hf
      have : w.mask fd' = .none := Poll.maskOf_of_le (Nat.le_of_not_lt h)
      simp [this, Mask.diff, Mask.none]
    · simp [hf]

/-- A successful registration makes the slot name its fiber; other slots are not touched. -/
theorem setFileEvent_named : (w.setFileEvent api fd m f).named fd' =
    if fd' = fd ∧ fd < w.poll.setsize ∧ api = true then some f else w.named fd' := by
  simp only [named, setFileEvent, Poll.fileEventCreate_events, Poll.fileEventCreate_ok]
  by_cases hok : fd < w.poll.setsize ∧ api = true
  · by_cases hf : fd' = fd
    · simp [hf, hok, FileEvent.register]
    · cases hc : (w.poll.events fd').clientData with
      | none => simp [hf, hc]
      | some a =>
        have hne : a ≠ w.next := Nat.ne_of_lt (w.old fd' a hc)
        simp [hf, hc, hok, hne]
  · simp [hok]

/-- The slot then names nobody; other slots name whom they named. -/
theorem delFileEvent_named : (w.delFileEvent fd m).named fd' =
    if fd' = fd ∧ fd < w.poll.setsize then none else w.named fd' := by
  unfold delFileEvent
  split
  · next h =>
    cases hc : (w.poll.events fd).clientData with
    | none =>
      by_cases hf : fd' = fd
      · subst hf
        simp [named, hc]
      · simp [named, hf]
    | some a =>
      by_cases hf : fd' = fd
      · subst hf
        simp [named, hc, h]
      · cases hc' : (w.poll.events fd').clientData with
        | none => simp [named, hc', hf]
        | some a' =>
          have hne : a' ≠ a := by
            rintro rfl
            exact hf (w.apart fd' fd a' hc' hc)
          simp [named, hc', hf, hne]
  · next h => simp [h]

@[simp] theorem delFileEvent_null : (w.delFileEvent fd m).Null fd' ↔ w.Null fd' := by
  unfold delFileEvent
  split
  · unfold Null
    rw [Poll.fileEventDelete_clientData, Poll.fileEventDelete_rfileProc]
  · exact Iff.rfl

end EIoWaiter

end CxxFiber
