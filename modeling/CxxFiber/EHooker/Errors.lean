import CxxFiber.EFileContext.Manager
import CxxFiber.EHooker.Calls
import CxxFiber.EHooker.CommIo
import Mathlib.Data.Int.Bitwise

/-! What the hooks return, and the exceptions that leave them. -/
namespace CxxFiber.EHooker.Errors

open Calls (PollEntry)
open CommIo (Errno)
open EcoAe (Mask)
open Manager (Answers Builds Context Timeval lockFor)

/-- What a C function returns, and the errno that it sets. -/
structure Return where
  value : ℤ
  errno : Option Errno
  deriving DecidableEq, Repr

/-- -1 is an error, and errno says which. -/
structure Return.Proper (r : Return) : Prop where
  lower : -1 ≤ r.value
  errno : r.value = -1 → r.errno ≠ none

/-- What a function of the kernel returns. -/
abbrev Kernel := { r : Return // r.Proper }

/-- How a call ends without a value: with an exception, outside of the vectors of contexts, not at
all, at a lock that stays taken, or in the `delete` of a pointer that is not that of a live record.
-/
inductive Exit
  | fileNotFound
  | illegalArgument
  | interrupted
  | outOfRange
  | spins
  | strayDelete
  deriving DecidableEq, Repr

/-- `hooked`: the thread has a scheduler and is not in a signal handler. -/
structure Env (X : Type) where
  hooked : Bool
  interrupted : Bool
  files : Manager.State X
  answers : Answers
  isStreamFile : ℤ → Bool

/-- How a parked fiber is resumed: by its timer or not, and the table that it finds then. -/
structure Resumption where
  isWaitTimeout : Bool
  waiter : EIoWaiter Unit

/-- One call of `poll`: the kernel's function with the caller's timeout and with timeout 0, and the
resumption. -/
structure Polled where
  direct : Kernel
  once : Kernel
  resumed : Resumption

/-- One call of `select`: `select_f` with the caller's timeout, and with timeout 0 for the sets. -/
structure Selected where
  direct : Kernel
  once : Kernel
  first : SelectF
  same : first.ret = once.1.value
  resumed : Resumption

/-- One call of `connect`: the kernel's function, and `SO_ERROR` after the wait. -/
structure Connected where
  connect : Kernel
  resumed : Resumption
  soError : Except Errno (Option Errno)

/-- What `connect` makes of `SO_ERROR`. -/
def Connected.recheck (k : Connected) : Return :=
  match k.soError with
  | .error e => ⟨-1, some e⟩
  | .ok none => ⟨0, none⟩
  | .ok (some e) => ⟨-1, some e⟩

inductive Command
  | getfl
  | setfl (flags : ℤ)
  | other (cmd : ℤ)
  deriving DecidableEq, Repr

def EINPROGRESS : Errno := .other 115

def EINVAL : Errno := .other 22

def O_NONBLOCK : ℤ := 2048

def FIONBIO : ℤ := 0x5421

def SOL_SOCKET : ℤ := 1

def SO_RCVTIMEO : ℤ := 20

def SO_SNDTIMEO : ℤ := 21

/-- -1 with `EAGAIN` or `EWOULDBLOCK`. -/
def Return.again (r : Return) : Bool :=
  r.value == -1 && (r.errno == some .eagain || r.errno == some .ewouldblock)

section Operations

variable {X : Type} [DecidableEq X] [AlignUp]

namespace Env

/-- `EFiber::sleep`, which in a worker waits and then looks at the flag of `interrupt`. -/
def sleep (env : Env X) (millis : ℤ) : Except Exit Unit :=
  if millis < 0 then .error .illegalArgument
  else if env.interrupted then .error .interrupted
  else .ok ()

def getFileContext (env : Env X) (fd : ℤ) : Except Exit Context :=
  if env.files.pool (lockFor fd) then .error .spins
  else match (env.files.get fd env.answers).1 with
    | .returned c => .ok c
    | .thrown => .error .fileNotFound
    | .undefined => .error .outOfRange

/-- `delFileEvent` on what the fiber finds. A negative descriptor passes the check against
`setsize`. -/
def delFileEvent (w : EIoWaiter Unit) (fd : ℤ) (m : Mask) : Except Exit (EIoWaiter Unit) :=
  if 0 ≤ fd ∧ w.Deletable fd.toNat then .ok (w.delFileEvent fd.toNat m) else .error .strayDelete

def delFileEvents (w : EIoWaiter Unit) : List ℤ → Except Exit Unit
  | [] => .ok ()
  | fd :: fds => do
    let w ← delFileEvent w fd .all
    delFileEvents w fds

/-- The loop that runs when the fiber was not resumed by its timer, with the count of the
descriptors whose slots are in use. -/
def readBack (w : EIoWaiter Unit) : List ℤ → Except Exit ℕ
  | [] => .ok 0
  | fd :: fds => do
    let events := w.getFileEvent fd.toNat
    let w ← delFileEvent w fd .all
    let n ← readBack w fds
    return if events = .none then n else n + 1

/-- `poll` and `select` from the point where the fiber has been resumed. -/
def resume (r : Resumption) (fds : List ℤ) : Except Exit Return :=
  if r.isWaitTimeout then do
    delFileEvents r.waiter fds
    return ⟨0, none⟩
  else do
    let n ← readBack r.waiter fds
    return ⟨n, none⟩

def poll (env : Env X) (fds : List PollEntry) (timeout : ℤ) (k : Polled) : Except Exit Return :=
  if !env.hooked || timeout = 0 then .ok k.direct.1
  else if fds.all fun e => decide (e.fd < 0) then do
    env.sleep timeout
    return ⟨0, none⟩
  else if k.once.1.value ≠ 0 then .ok k.once.1
  else resume k.resumed (fds.map (·.fd))

/-- `ELLong::MAX_VALUE` without a timeout. -/
def milliseconds : Option Timeval → ℤ
  | none => 2 ^ 63 - 1
  | some tv => MachineInt.narrow 64 (tv.tv_sec * 1000 + tv.tv_usec.tdiv 1000)

def select (env : Env X) (nfds : ℤ) (readfds writefds exceptfds : FdSet)
    (timeout : Option Timeval) (k : Selected) : Except Exit Return :=
  if !env.hooked || milliseconds timeout = 0 then .ok k.direct.1
  else if nfds = 0 ∨ (readfds.isNone ∧ writefds.isNone ∧ exceptfds.isNone) then do
    env.sleep (milliseconds timeout)
    return ⟨0, none⟩
  else if k.once.1.value ≠ 0 then .ok k.once.1
  else resume k.resumed
    (Calls.Call.select nfds readfds writefds exceptfds (milliseconds timeout) k.first).dels

def connect (env : Env X) (fd : ℤ) (k : Connected) : Except Exit Return :=
  if !env.hooked then .ok k.connect.1
  else do
    let fdctx ← env.getFileContext fd
    if fdctx.userNonBlocked then return k.connect.1
    if k.connect.1 = ⟨-1, some EINPROGRESS⟩ then
      let _ ← delFileEvent k.resumed.waiter fd ⟨false, true⟩
      return k.recheck
    return k.connect.1

def fcntl (env : Env X) (fd : ℤ) (cmd : Command) (k : Kernel) : Except Exit Return :=
  if env.hooked && env.isStreamFile fd then do
    let fdctx ← env.getFileContext fd
    match cmd with
    | .setfl _ => return ⟨0, none⟩
    | .getfl =>
      if fdctx.userNonBlocked then return { k.1 with value := k.1.value.lor O_NONBLOCK }
      else return { k.1 with value := k.1.value.ldiff O_NONBLOCK }
    | .other _ => return k.1
  else .ok k.1

def ioctl (env : Env X) (fd request : ℤ) (k : Kernel) : Except Exit Return :=
  if env.hooked && decide (request = FIONBIO) && env.isStreamFile fd then do
    let _ ← env.getFileContext fd
    return ⟨0, none⟩
  else .ok k.1

def setsockopt (env : Env X) (fd level optname : ℤ) (k : Kernel) : Except Exit Return :=
  if level = SOL_SOCKET ∧ (optname = SO_RCVTIMEO ∨ optname = SO_SNDTIMEO) ∧
      env.hooked = true ∧ env.isStreamFile fd = true then do
    let _ ← env.getFileContext fd
    return k.1
  else .ok k.1

/-- `after` is the kernel's call with timeout 0 when the fiber was not resumed by its timer. -/
def epollWait (env : Env X) (epfd timeout : ℤ) (direct : Kernel) (resumed : Resumption)
    (after : Kernel) : Except Exit Return :=
  if !env.hooked || timeout = 0 then .ok direct.1
  else do
    let _ ← delFileEvent resumed.waiter epfd .all
    if resumed.isWaitTimeout then return ⟨-1, some EINVAL⟩ else return after.1

/-- The loop of `comm_io_on_fiber`. Each round is a hooked `poll` and a call of `fn`; none while
it waits. -/
def ioLoop (env : Env X) (fd : ℤ) (event : PollEvents) (milliseconds : ℤ) :
    List (Polled × Kernel) → Except Exit (Option Return)
  | [] => .ok none
  | (p, k) :: rounds => do
    let ret ← env.poll [⟨fd, event⟩] milliseconds p
    if ret.value = 1 then
      if k.1.again then ioLoop env fd event milliseconds rounds else return some k.1
    else if ret.value = 0 then return some ⟨-1, some .etimedout⟩
    else return some ret

/-- The read and write family: `fn` is the first call of the kernel's function, where there is one
before the loop. -/
def io (env : Env X) (fd : ℤ) (event : PollEvents) (fn : Kernel) (rounds : List (Polled × Kernel)) :
    Except Exit (Option Return) :=
  if env.hooked && env.isStreamFile fd then do
    let fdctx ← env.getFileContext fd
    if fdctx.userNonBlocked then return some fn.1
    if event.pollout && decide (0 ≤ fn.1.value) then return some fn.1
    let ms := if event = ⟨true, false⟩ then fdctx.recvTimeout else fdctx.sendTimeout
    env.ioLoop fd event (if ms = 0 then -1 else ms) rounds
  else .ok (some fn.1)

/-- The loop of `sendfile`. -/
def sendfileLoop (env : Env X) (fd : ℤ) (milliseconds : ℤ) :
    ℕ → List (Polled × Kernel) → Except Exit (Option Return)
  | _, [] => .ok none
  | count, (p, k) :: rounds => do
    let ret ← env.poll [⟨fd, ⟨false, true⟩⟩] milliseconds p
    if ret.value = 1 then
      let count := count - k.1.value.toNat
      if (0 ≤ k.1.value ∨ k.1.again = true) ∧ 0 < count then
        sendfileLoop env fd milliseconds count rounds
      else return some k.1
    else if ret.value = 0 then return some ⟨-1, some .etimedout⟩
    else return some ret

def sendfile (env : Env X) (fd : ℤ) (count : ℕ) (direct : Kernel)
    (rounds : List (Polled × Kernel)) : Except Exit (Option Return) :=
  if env.hooked && env.isStreamFile fd then do
    let fdctx ← env.getFileContext fd
    if fdctx.userNonBlocked then return some direct.1
    env.sendfileLoop fd (if fdctx.sendTimeout = 0 then -1 else fdctx.sendTimeout) count rounds
  else .ok (some direct.1)

end Env

/-- A call of one of the hooks, with what the kernel does in it. -/
inductive Call
  | connect (fd : ℤ) (k : Connected)
  | poll (fds : List PollEntry) (timeout : ℤ) (k : Polled)
  | select (nfds : ℤ) (readfds writefds exceptfds : FdSet) (timeout : Option Timeval)
    (k : Selected)
  | fcntl (fd : ℤ) (cmd : Command) (k : Kernel)
  | ioctl (fd request : ℤ) (k : Kernel)
  | setsockopt (fd level optname : ℤ) (k : Kernel)
  | epollWait (epfd timeout : ℤ) (direct : Kernel) (resumed : Resumption) (after : Kernel)
  | sendfile (fd : ℤ) (count : ℕ) (direct : Kernel) (rounds : List (Polled × Kernel))
  | io (fd : ℤ) (event : PollEvents) (fn : Kernel) (rounds : List (Polled × Kernel))

/-- None while a loop goes on. -/
def Env.call (env : Env X) : Call → Except Exit (Option Return)
  | .connect fd k => (env.connect fd k).map some
  | .poll fds timeout k => (env.poll fds timeout k).map some
  | .select nfds readfds writefds exceptfds timeout k =>
    (env.select nfds readfds writefds exceptfds timeout k).map some
  | .fcntl fd cmd k => (env.fcntl fd cmd k).map some
  | .ioctl fd request k => (env.ioctl fd request k).map some
  | .setsockopt fd level optname k => (env.setsockopt fd level optname k).map some
  | .epollWait epfd timeout direct resumed after =>
    (env.epollWait epfd timeout direct resumed after).map some
  | .sendfile fd count direct rounds => env.sendfile fd count direct rounds
  | .io fd event fn rounds => env.io fd event fn rounds

/-- A loop that has not ended returns nothing. -/
def Settled (o : Option Return) : Prop := ∀ r, o = some r → r.Proper

/-- Without an exception, and with a result for which `P` holds. -/
def Ok {α : Type} (P : α → Prop) (x : Except Exit α) : Prop := ∃ a, x = .ok a ∧ P a

/-- No exception leaves the call, and it returns a value, or -1 with errno set. -/
def Returns (env : Env X) (c : Call) : Prop := Ok Settled (env.call c)

/-- The lock is free, the descriptor has a place, and its context is there or can be built. -/
def Obtains (env : Env X) (fd : ℤ) : Prop :=
  env.files.pool (lockFor fd) = false ∧ ∃ e, env.files.element fd = some e ∧
    (e = none → Builds env.files.kernel fd.toNat env.answers)

/-- No descriptor is negative, and the slots of the table that the fiber finds have null, or a live
record and their descriptor only once in the list. -/
def Deletes (w : EIoWaiter Unit) (fds : List ℤ) : Prop :=
  ∀ fd ∈ fds, 0 ≤ fd ∧ (fd < w.poll.setsize →
    w.Null fd.toNat ∨ (w.named fd.toNat).isSome = true ∧ fds.count fd = 1)

/-- A `poll` of one descriptor returns 1: at once, or because the slot is in use when the fiber is
resumed and not by its timer. -/
def Polled.ready (p : Polled) (fd : ℤ) : Prop :=
  if p.once.1.value = 0 then
    p.resumed.isWaitTimeout = false ∧ p.resumed.waiter.mask fd.toNat ≠ .none
  else p.once.1.value = 1

/-- Each `poll` of the loop of `comm_io_on_fiber` that is reached ends soundly. -/
def IoSound (fd : ℤ) : List (Polled × Kernel) → Prop
  | [] => True
  | (p, k) :: rounds => (p.once.1.value = 0 → Deletes p.resumed.waiter [fd]) ∧
    (p.ready fd → k.1.again = true → IoSound fd rounds)

/-- Each `poll` of the loop of `sendfile` that is reached ends soundly. -/
def SendfileSound (fd : ℤ) : ℕ → List (Polled × Kernel) → Prop
  | _, [] => True
  | count, (p, k) :: rounds => (p.once.1.value = 0 → Deletes p.resumed.waiter [fd]) ∧
    (p.ready fd → (0 ≤ k.1.value ∨ k.1.again = true) ∧ 0 < count - k.1.value.toNat →
      SendfileSound fd (count - k.1.value.toNat) rounds)

/-- The context can be obtained, and `P` holds if it is in user-blocking mode. -/
def Blocks (env : Env X) (fd : ℤ) (P : Prop) : Prop :=
  Obtains env fd ∧ ∀ c, env.getFileContext fd = .ok c → c.userNonBlocked = false → P

/-- `connect` does not ask whether the descriptor is a stream file; only `poll` and `select` that
sleep hand on a negative timeout; a call that parks deletes live records only; and `F_GETFL` takes
a bit out of a failure. -/
def Safe (env : Env X) : Call → Prop
  | .connect fd k => env.hooked = true → Blocks env fd
      (k.connect.1 = ⟨-1, some EINPROGRESS⟩ → Deletes k.resumed.waiter [fd])
  | .poll fds timeout k => env.hooked = true → timeout ≠ 0 →
      if ∀ e ∈ fds, e.fd < 0 then 0 < timeout
      else k.once.1.value = 0 → Deletes k.resumed.waiter (fds.map (·.fd))
  | .select nfds readfds writefds exceptfds timeout _ => env.hooked = true →
      Env.milliseconds timeout < 0 →
        nfds ≠ 0 ∧ ¬ (readfds.isNone ∧ writefds.isNone ∧ exceptfds.isNone)
  | .fcntl fd cmd k => env.hooked = true → env.isStreamFile fd = true →
      Blocks env fd (cmd = .getfl → k.1.value ≠ -1)
  | .sendfile fd count _ rounds => env.hooked = true → env.isStreamFile fd = true →
      Blocks env fd (SendfileSound fd count rounds)
  | .io fd event fn rounds => env.hooked = true → env.isStreamFile fd = true →
      Blocks env fd ((event.pollout = true → fn.1.value < 0) → IoSound fd rounds)
  | .ioctl fd request _ => env.hooked = true → request = FIONBIO → env.isStreamFile fd = true →
      Obtains env fd
  | .setsockopt fd level optname _ => env.hooked = true → level = SOL_SOCKET →
      optname = SO_RCVTIMEO ∨ optname = SO_SNDTIMEO → env.isStreamFile fd = true → Obtains env fd
  | .epollWait epfd timeout _ resumed _ => env.hooked = true → timeout ≠ 0 →
      Deletes resumed.waiter [epfd]

end Operations

section Returns

variable {X : Type}
variable {env : Env X} {c : Call} {fd : ℤ} {fds : List PollEntry} {timeout : ℤ} {k : Kernel}
  {p : Polled}

theorem getFileContext_thrown [DecidableEq X] [AlignUp] (hl : env.files.pool (lockFor fd) = false)
    (h : (env.files.get fd env.answers).1 = .thrown) :
    env.getFileContext fd = .error .fileNotFound := by
  unfold Env.getFileContext
  rw [hl, h]
  rfl

theorem getFileContext_ok [DecidableEq X] [AlignUp] :
    (∃ c, env.getFileContext fd = .ok c) ↔ Obtains env fd := by
  unfold Env.getFileContext Obtains
  cases hl : env.files.pool (lockFor fd) with
  | true => simp
  | false =>
    simp only [Bool.false_eq_true, if_false, true_and]
    cases he : env.files.element fd with
    | none =>
      rw [Manager.get_undefined he]
      simp
    | some e =>
      by_cases hb : e = none → Builds env.files.kernel fd.toNat env.answers
      · obtain ⟨c, hc⟩ := Manager.get_returned he hb
        rw [hc]
        exact iff_of_true ⟨c, rfl⟩ ⟨e, rfl, hb⟩
      · obtain ⟨rfl, hn⟩ := Classical.not_imp.mp hb
        rw [(Manager.get_thrown he hn).1]
        simp [hn]

theorem Obtains.nonneg [AlignUp] (h : Obtains env fd) : 0 ≤ fd := by
  obtain ⟨_, e, he, _⟩ := h
  unfold Manager.State.element at he
  split at he
  · next h0 => exact h0
  · exact nomatch he

section Ok

variable {α β : Type} {P : β → Prop} {x : Except Exit α} {f : α → Except Exit β} {b : β}

theorem ok_ok : Ok P (.ok b) ↔ P b := by simp [Ok]

theorem ok_of_bind (h : Ok P (x >>= f)) : ∃ a, x = .ok a := by
  cases x with
  | error e =>
    obtain ⟨b, hb, _⟩ := h
    exact nomatch hb
  | ok a => exact ⟨a, rfl⟩

theorem ok_bind (h : ∀ a, Ok P (f a)) : Ok P (x >>= f) ↔ ∃ a, x = .ok a := by
  refine ⟨ok_of_bind, ?_⟩
  rintro ⟨a, rfl⟩
  exact h a

theorem ok_bind_iff : Ok P (x >>= f) ↔ ∃ a, x = .ok a ∧ Ok P (f a) := by
  refine ⟨fun h => ?_, ?_⟩
  · obtain ⟨a, rfl⟩ := ok_of_bind h
    exact ⟨a, rfl, h⟩
  · rintro ⟨a, rfl, h⟩
    exact h

theorem ok_map {g : α → β} : Ok P (x.map g) ↔ Ok (fun a => P (g a)) x := by
  cases x <;> simp [Ok, Except.map]

end Ok

theorem proper_of_nonneg {r : Return} (h : 0 ≤ r.value) : r.Proper :=
  ⟨by omega, fun he => by omega⟩

theorem proper_zero : (⟨0, none⟩ : Return).Proper := proper_of_nonneg (le_refl 0)

theorem returns_zero : Ok Return.Proper (pure ⟨0, none⟩) := ok_ok.mpr proper_zero

theorem proper_count (n : ℕ) : (⟨n, none⟩ : Return).Proper :=
  proper_of_nonneg (Int.natCast_nonneg n)

theorem proper_error (e : Errno) : (⟨-1, some e⟩ : Return).Proper := ⟨le_refl _, nofun⟩

theorem sleep_ok (hi : env.interrupted = false) {millis : ℤ} :
    (∃ u, env.sleep millis = .ok u) ↔ 0 ≤ millis := by
  unfold Env.sleep
  split
  · next h => exact iff_of_false nofun (by omega)
  · next h => exact iff_of_true ⟨(), by simp [hi]⟩ (by omega)

section Resumed

variable {w : EIoWaiter Unit} {m : Mask} {fds : List ℤ} {r : Resumption}

theorem delFileEvent_ok :
    (∃ w', Env.delFileEvent w fd m = .ok w') ↔ 0 ≤ fd ∧ w.Deletable fd.toNat := by
  unfold Env.delFileEvent
  split
  · next h => exact iff_of_true ⟨_, rfl⟩ h
  · next h => exact iff_of_false nofun h

/-- Both loops go through exactly when each of their deletions is sound. -/
theorem delFileEvents_ok : (∃ u, Env.delFileEvents w fds = .ok u) ↔
    (∀ fd ∈ fds, 0 ≤ fd) ∧ EHooker.Deletes w .all (fds.map Int.toNat) := by
  induction fds generalizing w with
  | nil => simp [Env.delFileEvents, EHooker.Deletes]
  | cons fd fds ih =>
    rw [Env.delFileEvents, Env.delFileEvent, List.forall_mem_cons, List.map_cons, EHooker.Deletes]
    split
    · next h =>
      refine (ih (w := w.delFileEvent fd.toNat .all)).trans ?_
      simp [h]
    · next h => exact iff_of_false (by rintro ⟨_, ⟨⟩⟩) fun hd => h ⟨hd.1.1, hd.2.1⟩

theorem readBack_ok : (∃ n, Env.readBack w fds = .ok n) ↔
    (∀ fd ∈ fds, 0 ≤ fd) ∧ EHooker.Deletes w .all (fds.map Int.toNat) := by
  induction fds generalizing w with
  | nil => simp [Env.readBack, EHooker.Deletes]
  | cons fd fds ih =>
    rw [Env.readBack, Env.delFileEvent, List.forall_mem_cons, List.map_cons, EHooker.Deletes]
    split
    · next h =>
      have hrest := ih (w := w.delFileEvent fd.toNat .all)
      cases hr : Env.readBack (w.delFileEvent fd.toNat .all) fds with
      | error e =>
        rw [hr] at hrest
        refine iff_of_false ?_ fun hd => ?_
        · rintro ⟨n, hn⟩
          simp [bind, Except.bind, hr] at hn
        · obtain ⟨n, hn⟩ := hrest.mpr ⟨hd.1.2, hd.2.2⟩
          cases hn
      | ok n =>
        rw [hr] at hrest
        obtain ⟨hpos, hdel⟩ := hrest.mp ⟨n, rfl⟩
        refine iff_of_true ⟨if w.getFileEvent fd.toNat = .none then n else n + 1, ?_⟩
          ⟨⟨h.1, hpos⟩, h.2, hdel⟩
        simp [bind, Except.bind, hr]
        rfl
    · next h => exact iff_of_false (by rintro ⟨_, ⟨⟩⟩) fun hd => h ⟨hd.1.1, hd.2.1⟩

theorem deletes_iff_loops : Deletes w fds ↔
    (∀ fd ∈ fds, 0 ≤ fd) ∧ EHooker.Deletes w .all (fds.map Int.toNat) := by
  constructor
  · intro h
    have hpos : ∀ fd ∈ fds, 0 ≤ fd := fun fd hfd => (h fd hfd).1
    exact ⟨hpos, (Calls.deletes_toNat_iff hpos).mpr fun fd hfd => (h fd hfd).2⟩
  · rintro ⟨hpos, h⟩ fd hfd
    exact ⟨hpos fd hfd, (Calls.deletes_toNat_iff hpos).mp h fd hfd⟩

/-- A call that has been resumed ends with a count exactly when its deletions are sound. -/
theorem resume_ok {P : Return → Prop} (hP : ∀ n : ℕ, P ⟨n, none⟩) :
    Ok P (Env.resume r fds) ↔ Deletes r.waiter fds := by
  unfold Env.resume
  split
  · rw [deletes_iff_loops, ← delFileEvents_ok]
    exact ok_bind fun _ => ok_ok.mpr (hP 0)
  · rw [deletes_iff_loops, ← readBack_ok]
    exact ok_bind fun n => ok_ok.mpr (hP n)

end Resumed

theorem settled_none : Settled none := nofun

theorem settled_some {r : Return} (h : r.Proper) : Settled (some r) := fun _ he =>
  Option.some.inj he ▸ h

theorem settled_map {x : Except Exit Return} : Ok Settled (x.map some) ↔ Ok Return.Proper x := by
  rw [ok_map]
  simp [Settled]

/-- `poll` and `select`, which sleep if they have nothing to wait for. -/
theorem sleeping_ok (hi : env.interrupted = false) {direct once : Kernel} {millis : ℤ}
    {nothing R : Prop} [Decidable nothing] {rest : Except Exit Return}
    (hrest : once.1.value = 0 → (Ok Return.Proper rest ↔ R)) :
    Ok Return.Proper (if !env.hooked || millis = 0 then .ok direct.1
      else if nothing then do
        env.sleep millis
        return ⟨0, none⟩
      else if once.1.value ≠ 0 then .ok once.1
      else rest) ↔
    (env.hooked = true → millis ≠ 0 → if nothing then 0 < millis else once.1.value = 0 → R) := by
  split
  · next h =>
    refine iff_of_true (ok_ok.mpr direct.2) fun hh ht => ?_
    simp [hh, ht] at h
  · next h =>
    simp only [Bool.or_eq_true, Bool.not_eq_true', decide_eq_true_eq, not_or,
      Bool.not_eq_false] at h
    rw [forall_prop_of_true h.1, forall_prop_of_true h.2]
    split
    · rw [ok_bind fun _ => returns_zero, sleep_ok hi]
      omega
    · split
      · next hv => exact iff_of_true (ok_ok.mpr once.2) fun hz => absurd hz hv
      · next hv =>
        have hz := not_not.mp hv
        rw [hrest hz, forall_prop_of_true hz]

theorem poll_ok (hi : env.interrupted = false) : Ok Return.Proper (env.poll fds timeout p) ↔
    (env.hooked = true → timeout ≠ 0 → if ∀ e ∈ fds, e.fd < 0 then 0 < timeout
      else p.once.1.value = 0 → Deletes p.resumed.waiter (fds.map (·.fd))) := by
  unfold Env.poll
  rw [sleeping_ok hi fun _ => resume_ok proper_count]
  simp only [List.all_eq_true, decide_eq_true_eq]

/-- A `select` that reaches its loop has nothing to delete. -/
theorem select_ok (hi : env.interrupted = false) {nfds : ℤ} {readfds writefds exceptfds : FdSet}
    {tv : Option Timeval} {k : Selected} :
    Ok Return.Proper (env.select nfds readfds writefds exceptfds tv k) ↔
      (env.hooked = true → Env.milliseconds tv < 0 →
        nfds ≠ 0 ∧ ¬ (readfds.isNone ∧ writefds.isNone ∧ exceptfds.isNone)) := by
  unfold Env.select
  rw [sleeping_ok (R := True) hi fun hz => ?_]
  · rw [← not_or]
    refine imp_congr_right fun _ => ⟨fun h hneg hnothing => ?_, fun h hne => ?_⟩
    · have hpos := h hneg.ne
      rw [if_pos hnothing] at hpos
      omega
    · split
      · next hnothing =>
        by_contra hpos
        exact h (by omega) hnothing
      · exact fun _ => trivial
  · have hdels : (Calls.Call.select nfds readfds writefds exceptfds (Env.milliseconds tv)
        k.first).dels = [] := by
      change ((Calls.Call.select ..).regs).map Prod.fst = []
      rw [Calls.select_regs_of_ret (k.same.trans hz)]
      rfl
    rw [resume_ok proper_count, hdels]
    exact iff_of_true nofun trivial

theorem blocks_true [DecidableEq X] [AlignUp] : Blocks env fd True ↔ Obtains env fd :=
  ⟨And.left, fun h => ⟨h, fun _ _ _ => trivial⟩⟩

/-- What a hook does behind `getFileContext`. -/
theorem context_bind_ok [DecidableEq X] [AlignUp]
    {α : Type} {P : α → Prop} {Q : Prop} {f : Context → Except Exit α}
    (hf : 0 ≤ fd → ∀ c, Ok P (f c) ↔ (c.userNonBlocked = false → Q)) :
    Ok P (env.getFileContext fd >>= f) ↔ Blocks env fd Q := by
  rw [ok_bind_iff]
  constructor
  · rintro ⟨c, hc, hok⟩
    have ho := getFileContext_ok.mp ⟨c, hc⟩
    refine ⟨ho, fun c' hc' => ?_⟩
    obtain rfl := Except.ok.inj (hc.symm.trans hc')
    exact (hf ho.nonneg c).mp hok
  · rintro ⟨ho, hq⟩
    obtain ⟨c, hc⟩ := getFileContext_ok.mpr ho
    exact ⟨c, hc, (hf ho.nonneg c).mpr (hq c hc)⟩

/-- The hooks that ask for the context first. -/
theorem context_ok [DecidableEq X] [AlignUp] {α : Type} {P : α → Prop} {q Q : Prop} [Decidable q]
    {f : Context → Except Exit α} {y : α}
    (hf : 0 ≤ fd → ∀ c, Ok P (f c) ↔ (c.userNonBlocked = false → Q)) (hy : P y) :
    Ok P (if q then env.getFileContext fd >>= f else .ok y) ↔ (q → Blocks env fd Q) := by
  split
  · next h => rw [forall_prop_of_true h, context_bind_ok hf]
  · next h => exact iff_of_true (ok_ok.mpr hy) fun hq => absurd hq h

theorem deletes_single {w : EIoWaiter Unit} :
    Deletes w [fd] ↔ 0 ≤ fd ∧ w.Deletable fd.toNat := by
  simp only [Deletes, EIoWaiter.Deletable, List.forall_mem_singleton, List.count_singleton_self,
    and_true]
  refine and_congr_right fun h0 => imp_congr_left (by omega)

theorem Connected.recheck_proper {k : Connected} : k.recheck.Proper := by
  unfold recheck
  split
  · exact proper_error _
  · exact proper_zero
  · exact proper_error _

theorem connect_ok [DecidableEq X] [AlignUp] {k : Connected} : Ok Return.Proper (env.connect fd k) ↔
    (env.hooked = true → Blocks env fd
      (k.connect.1 = ⟨-1, some EINPROGRESS⟩ → Deletes k.resumed.waiter [fd])) := by
  unfold Env.connect
  cases hh : env.hooked with
  | false => exact iff_of_true (ok_ok.mpr k.connect.2) nofun
  | true =>
    rw [forall_prop_of_true rfl]
    refine context_bind_ok fun h0 c => ?_
    cases c.userNonBlocked with
    | true => exact iff_of_true (ok_ok.mpr k.connect.2) nofun
    | false =>
      rw [forall_prop_of_true rfl]
      by_cases hk : k.connect.1 = ⟨-1, some EINPROGRESS⟩
      · rw [forall_prop_of_true hk, deletes_single, ← delFileEvent_ok (m := ⟨false, true⟩)]
        simp only [hk, if_true, Bool.false_eq_true, if_false]
        exact ok_bind fun _ => ok_ok.mpr Connected.recheck_proper
      · simp only [hk, if_false, Bool.false_eq_true]
        exact iff_of_true (ok_ok.mpr k.connect.2) fun h => h.elim

theorem lor_proper : Return.Proper { k.1 with value := k.1.value.lor O_NONBLOCK } := by
  have hl := k.2.lower
  by_cases hv : k.1.value = -1
  · have hsame : k.1.value.lor O_NONBLOCK = -1 := by
      rw [hv]
      change Int.negSucc (Nat.ldiff 0 2048) = -1
      rw [Nat.ldiff, Nat.bitwise_zero_left]
      rfl
    exact ⟨hsame.ge, fun _ => k.2.errno hv⟩
  · obtain ⟨n, hn⟩ := Int.eq_ofNat_of_zero_le (show 0 ≤ k.1.value by omega)
    refine proper_of_nonneg ?_
    rw [hn]
    exact Int.natCast_nonneg (n ||| 2048)

/-- A failure loses a bit and is no failure any more. -/
theorem ldiff_proper : Return.Proper { k.1 with value := k.1.value.ldiff O_NONBLOCK } ↔
    k.1.value ≠ -1 := by
  have hl := k.2.lower
  by_cases hv : k.1.value = -1
  · refine iff_of_false (fun h => ?_) fun h => h hv
    have hlow : -1 ≤ k.1.value.ldiff O_NONBLOCK := h.lower
    rw [hv] at hlow
    exact absurd hlow (by decide)
  · refine iff_of_true ?_ hv
    obtain ⟨n, hn⟩ := Int.eq_ofNat_of_zero_le (show 0 ≤ k.1.value by omega)
    refine proper_of_nonneg ?_
    rw [hn]
    exact Int.natCast_nonneg (Nat.ldiff n 2048)

theorem fcntl_ok [DecidableEq X] [AlignUp] {cmd : Command} : Ok Return.Proper (env.fcntl fd cmd k) ↔
    (env.hooked = true → env.isStreamFile fd = true →
      Blocks env fd (cmd = .getfl → k.1.value ≠ -1)) := by
  unfold Env.fcntl
  refine (context_ok (Q := cmd = .getfl → k.1.value ≠ -1) (fun _ c => ?_) k.2).trans (by simp)
  cases cmd with
  | setfl _ => exact iff_of_true returns_zero fun _ h => nomatch h
  | getfl =>
    rw [forall_prop_of_true rfl]
    cases c.userNonBlocked with
    | true => exact iff_of_true (ok_ok.mpr lor_proper) nofun
    | false =>
      rw [forall_prop_of_true rfl]
      exact ok_ok.trans ldiff_proper
  | other _ => exact iff_of_true (ok_ok.mpr k.2) fun _ h => nomatch h

theorem ioctl_ok [DecidableEq X] [AlignUp]
    {request : ℤ} : Ok Return.Proper (env.ioctl fd request k) ↔
    (env.hooked = true → request = FIONBIO → env.isStreamFile fd = true → Obtains env fd) := by
  unfold Env.ioctl
  refine (context_ok (fun _ _ => iff_of_true returns_zero fun _ => trivial) k.2).trans ?_
  simp only [Bool.and_eq_true, decide_eq_true_eq, and_imp, blocks_true]

theorem setsockopt_ok [DecidableEq X] [AlignUp]
    {level optname : ℤ} : Ok Return.Proper (env.setsockopt fd level optname k) ↔
    (env.hooked = true → level = SOL_SOCKET → optname = SO_RCVTIMEO ∨ optname = SO_SNDTIMEO →
      env.isStreamFile fd = true → Obtains env fd) := by
  unfold Env.setsockopt
  refine (context_ok (fun _ _ => iff_of_true (ok_ok.mpr k.2) fun _ => trivial) k.2).trans ?_
  rw [blocks_true]
  constructor
  · intro h hh hl ho hs
    exact h ⟨hl, ho, hh, hs⟩
  · rintro h ⟨hl, ho, hh, hs⟩
    exact h hh hl ho hs

theorem epollWait_ok {epfd : ℤ} {r : Resumption} {after : Kernel} :
    Ok Return.Proper (env.epollWait epfd timeout k r after) ↔
      (env.hooked = true → timeout ≠ 0 → Deletes r.waiter [epfd]) := by
  unfold Env.epollWait
  split
  · next h =>
    refine iff_of_true (ok_ok.mpr k.2) fun hh ht => ?_
    simp [hh, ht] at h
  · next h =>
    simp only [Bool.or_eq_true, Bool.not_eq_true', decide_eq_true_eq, not_or,
      Bool.not_eq_false] at h
    rw [forall_prop_of_true h.1, forall_prop_of_true h.2, deletes_single,
      ← delFileEvent_ok (m := .all)]
    refine ok_bind fun _ => ?_
    split
    · exact ok_ok.mpr (proper_error _)
    · exact ok_ok.mpr after.2

/-- A `poll` of one descriptor in one of the loops, which has a result if its deletion is sound. -/
theorem poll_round (hh : env.hooked = true) (h0 : 0 ≤ fd) (event : PollEvents) {ms : ℤ}
    (hms : ms ≠ 0) :
    ((∃ r, env.poll [⟨fd, event⟩] ms p = .ok r) ↔
      (p.once.1.value = 0 → Deletes p.resumed.waiter [fd])) ∧
    ∀ r, env.poll [⟨fd, event⟩] ms p = .ok r → r.Proper ∧ (r.value = 1 ↔ p.ready fd) := by
  have hneg : ¬ fd < 0 := by omega
  have hpoll : env.poll [⟨fd, event⟩] ms p =
      if p.once.1.value ≠ 0 then .ok p.once.1 else Env.resume p.resumed [fd] := by
    simp [Env.poll, hh, hms, hneg]
  rw [hpoll, Polled.ready]
  by_cases hz : p.once.1.value = 0
  · rw [forall_prop_of_true hz, if_neg (not_not.mpr hz), if_pos hz]
    have hok : Ok (fun _ => True) (Env.resume p.resumed [fd]) ↔ Deletes p.resumed.waiter [fd] :=
      resume_ok fun _ => trivial
    have hex : (∃ r, Env.resume p.resumed [fd] = .ok r) ↔ Deletes p.resumed.waiter [fd] := by
      rw [← hok]
      simp [Ok]
    refine ⟨hex, fun r hr => ?_⟩
    have hdel := deletes_single.mp (hex.mp ⟨r, hr⟩)
    have hone : Env.delFileEvent p.resumed.waiter fd .all =
        .ok (p.resumed.waiter.delFileEvent fd.toNat .all) := if_pos hdel
    cases ht : p.resumed.isWaitTimeout with
    | true =>
      have hval : Env.resume p.resumed [fd] = .ok ⟨0, none⟩ := by
        simp only [Env.resume, ht, if_true, Env.delFileEvents, hone]
        rfl
      obtain rfl := Except.ok.inj (hval.symm.trans hr)
      exact ⟨proper_zero, by simp⟩
    | false =>
      have hval : Env.resume p.resumed [fd] =
          .ok ⟨((if p.resumed.waiter.mask fd.toNat = .none then 0 else 1 : ℕ) : ℤ), none⟩ := by
        simp only [Env.resume, ht, Bool.false_eq_true, if_false, Env.readBack, hone,
          EIoWaiter.getFileEvent_eq]
        rfl
      obtain rfl := Except.ok.inj (hval.symm.trans hr)
      refine ⟨proper_count _, ?_⟩
      by_cases hm : p.resumed.waiter.mask fd.toNat = .none <;> simp [hm]
  · rw [if_pos hz, if_neg hz]
    refine ⟨iff_of_true ⟨_, rfl⟩ fun h => absurd h hz, fun r hr => ?_⟩
    obtain rfl := Except.ok.inj hr
    exact ⟨p.once.2, Iff.rfl⟩

/-- One round of a loop, with what it does after the `poll` has returned 1. -/
theorem round_ok (hh : env.hooked = true) (h0 : 0 ≤ fd) {event : PollEvents} {ms : ℤ}
    (hms : ms ≠ 0) {next : Except Exit (Option Return)} {R : Prop} (hnext : Ok Settled next ↔ R) :
    Ok Settled (do
      let ret ← env.poll [⟨fd, event⟩] ms p
      if ret.value = 1 then next
      else if ret.value = 0 then return some ⟨-1, some .etimedout⟩
      else return some ret) ↔
    (p.once.1.value = 0 → Deletes p.resumed.waiter [fd]) ∧ (p.ready fd → R) := by
  obtain ⟨hex, hval⟩ := poll_round (p := p) hh h0 event hms
  rw [ok_bind_iff, ← hex]
  constructor
  · rintro ⟨r, hr, hok⟩
    refine ⟨⟨r, hr⟩, fun hready => hnext.mp ?_⟩
    rwa [if_pos ((hval r hr).2.mpr hready)] at hok
  · rintro ⟨⟨r, hr⟩, hR⟩
    obtain ⟨hproper, hready⟩ := hval r hr
    refine ⟨r, hr, ?_⟩
    split
    · next hone => exact hnext.mpr (hR (hready.mp hone))
    split
    · exact ok_ok.mpr (settled_some (proper_error _))
    · exact ok_ok.mpr (settled_some hproper)

theorem ioLoop_ok (hh : env.hooked = true) (h0 : 0 ≤ fd) {event : PollEvents} {ms : ℤ}
    (hms : ms ≠ 0) : ∀ rounds, Ok Settled (env.ioLoop fd event ms rounds) ↔ IoSound fd rounds
  | [] => iff_of_true (ok_ok.mpr settled_none) trivial
  | (p, k) :: rounds => by
    unfold Env.ioLoop IoSound
    refine round_ok hh h0 hms ?_
    split
    · next ha =>
      rw [forall_prop_of_true ha]
      exact ioLoop_ok hh h0 hms rounds
    · next ha => exact iff_of_true (ok_ok.mpr (settled_some k.2)) fun h => absurd h ha

theorem sendfileLoop_ok (hh : env.hooked = true) (h0 : 0 ≤ fd) {ms : ℤ} (hms : ms ≠ 0) :
    ∀ count rounds,
      Ok Settled (env.sendfileLoop fd ms count rounds) ↔ SendfileSound fd count rounds
  | _, [] => iff_of_true (ok_ok.mpr settled_none) trivial
  | count, (p, k) :: rounds => by
    unfold Env.sendfileLoop SendfileSound
    refine round_ok hh h0 hms ?_
    dsimp only
    split
    · next ha =>
      rw [forall_prop_of_true ha]
      exact sendfileLoop_ok hh h0 hms _ rounds
    · next ha => exact iff_of_true (ok_ok.mpr (settled_some k.2)) fun h => absurd h ha

/-- No timeout is handed on as -1. -/
theorem milliseconds_ne_zero {t : ℤ} : (if t = 0 then -1 else t) ≠ 0 := by
  split
  · decide
  · assumption

variable [DecidableEq X] [AlignUp]

theorem io_ok {event : PollEvents} {rounds : List (Polled × Kernel)} :
    Ok Settled (env.io fd event k rounds) ↔
      (env.hooked = true → env.isStreamFile fd = true →
        Blocks env fd ((event.pollout = true → k.1.value < 0) → IoSound fd rounds)) := by
  unfold Env.io
  cases hh : env.hooked with
  | false => exact iff_of_true (ok_ok.mpr (settled_some k.2)) nofun
  | true =>
    refine (context_ok (Q := (event.pollout = true → k.1.value < 0) → IoSound fd rounds)
      (fun h0 c => ?_) (settled_some k.2)).trans (by simp)
    cases c.userNonBlocked with
    | true => exact iff_of_true (ok_ok.mpr (settled_some k.2)) nofun
    | false =>
      rw [forall_prop_of_true rfl]
      by_cases ht : event.pollout = true ∧ 0 ≤ k.1.value
      · simp only [Bool.false_eq_true, if_false, ht, decide_true, Bool.and_self, if_true]
        refine iff_of_true (ok_ok.mpr (settled_some k.2)) fun h => ?_
        have hneg := h trivial
        omega
      · have htry : event.pollout = true → k.1.value < 0 := fun hp => by
          by_contra hv
          exact ht ⟨hp, not_lt.mp hv⟩
        have hfalse : (event.pollout && decide (0 ≤ k.1.value)) = false := by
          simpa using htry
        rw [forall_prop_of_true htry]
        simp only [Bool.false_eq_true, if_false, hfalse]
        exact ioLoop_ok hh h0 milliseconds_ne_zero rounds

theorem sendfile_ok {count : ℕ} {rounds : List (Polled × Kernel)} :
    Ok Settled (env.sendfile fd count k rounds) ↔
      (env.hooked = true → env.isStreamFile fd = true →
        Blocks env fd (SendfileSound fd count rounds)) := by
  unfold Env.sendfile
  cases hh : env.hooked with
  | false => exact iff_of_true (ok_ok.mpr (settled_some k.2)) nofun
  | true =>
    refine (context_ok (Q := SendfileSound fd count rounds) (fun h0 c => ?_)
      (settled_some k.2)).trans (by simp)
    cases c.userNonBlocked with
    | true => exact iff_of_true (ok_ok.mpr (settled_some k.2)) nofun
    | false =>
      rw [forall_prop_of_true rfl]
      exact sendfileLoop_ok hh h0 milliseconds_ne_zero count rounds

end Returns

/-- What the kernel returns for nothing. -/
def returnsZero : Kernel := ⟨⟨0, none⟩, proper_zero⟩

/-- The table of eight in which descriptor 3 is registered. -/
def registered₃ : EIoWaiter Unit := (EIoWaiter.create 8).setFileEvent true 3 ⟨true, false⟩ ()

end CxxFiber.EHooker.Errors
