import CxxFiber.EIoWaiter

/-! The parts of the hooks `poll`, `select`, `connect` and `epoll_wait` before and after the
fiber is parked. Descriptors are natural numbers. -/
namespace CxxFiber.EHooker

open EcoAe

/-- POLLIN and POLLOUT of a pollfd; the two conversions ignore every other flag. -/
structure PollEvents where
  pollin : Bool
  pollout : Bool
  deriving DecidableEq, Repr

structure PollFd where
  fd : ℕ
  events : PollEvents
  revents : PollEvents
  deriving DecidableEq, Repr

def pollEvent2EEvent (e : PollEvents) : Mask := ⟨e.pollin, e.pollout⟩

def eEvent2PollEvent (m : Mask) : PollEvents := ⟨m.readable, m.writable⟩

/-- An `fd_set`, or null. -/
abbrev FdSet := Option (ℕ → Bool)

def FdSet.isset (s : FdSet) (fd : ℕ) : Bool := s.elim false fun b => b fd

def fdSetSize : ℕ := 1024

/-- What the first call of `select_f`, with a timeout of zero, returns and leaves in the sets: when
it returns 0 it has emptied them. -/
structure SelectF where
  ret : ℤ
  readfds : ℕ → Bool
  writefds : ℕ → Bool
  exceptfds : ℕ → Bool
  empties : ret = 0 → ∀ fd, readfds fd = false ∧ writefds fd = false ∧ exceptfds fd = false

/-- The set that `select_f` leaves; it does not write to null. -/
def FdSet.left (s : FdSet) (bits : ℕ → Bool) : FdSet := s.map fun _ => bits

/-- The registration loop of `select`; `events` is declared outside the loop. -/
def selectRegs (readfds writefds : FdSet) : Mask → List ℕ → List (ℕ × Mask)
  | _, [] => []
  | events, fd :: fds =>
    let events := if readfds.isset fd then ⟨true, false⟩ else events
    let events := if writefds.isset fd then ⟨false, true⟩ else events
    if events = .none then selectRegs readfds writefds events fds
    else (fd, events) :: selectRegs readfds writefds events fds

/-- A hooked call with what its caller gives it, that has not returned before it could park. -/
inductive HookCall
  | poll (fds : List PollFd) (timeout : ℤ)
  | select (nfds : ℕ) (readfds writefds exceptfds : FdSet) (milliseconds : ℤ) (first : SelectF)
  | connect (fd : ℕ)
  | epollWait (epfd : ℕ) (timeout : ℤ)

namespace HookCall

/-- What the call hands to `setFileEvent`, in order. The loop of `select` reads the sets that
`select_f` has left. -/
def regs : HookCall → List (ℕ × Mask)
  | .poll fds _ => fds.map fun e => (e.fd, pollEvent2EEvent e.events)
  | .select nfds readfds writefds _ _ first =>
    selectRegs (readfds.left first.readfds) (writefds.left first.writefds) .none
      (List.range (min nfds fdSetSize))
  | .connect fd => [(fd, ⟨false, true⟩)]
  | .epollWait epfd _ => [(epfd, ⟨true, false⟩)]

/-- The directions the caller asked for. -/
def asks : HookCall → ℕ → Mask
  | .poll fds _, fd =>
    (fds.filter (·.fd = fd)).foldr (fun e m => (pollEvent2EEvent e.events).union m) .none
  | .select nfds readfds writefds _ _ _, fd =>
    if fd < min nfds fdSetSize then ⟨readfds.isset fd, writefds.isset fd⟩ else .none
  | .connect fd', fd => ⟨false, decide (fd = fd')⟩
  | .epollWait epfd _, fd => ⟨decide (fd = epfd), false⟩

/-- Whether the call only sleeps: no descriptor, no set. -/
def sleeps : HookCall → Bool
  | .poll fds _ => fds.isEmpty
  | .select nfds readfds writefds exceptfds _ _ =>
    nfds == 0 || (readfds.isNone && writefds.isNone && exceptfds.isNone)
  | _ => false

/-- Whether the call gets as far as parking. `EFiber::sleep` throws on a negative time, and
`select` returns what `select_f` does unless that is 0. -/
def parks (c : HookCall) : Bool :=
  match c with
  | .poll _ timeout => timeout ≠ 0 && (!c.sleeps || 0 ≤ timeout)
  | .select _ _ _ _ milliseconds first =>
    milliseconds ≠ 0 && (if c.sleeps then decide (0 ≤ milliseconds) else first.ret == 0)
  | .connect _ => true
  | .epollWait _ timeout => timeout ≠ 0

/-- Whether the call arms a timer. `epoll_wait` always does. -/
def timer : HookCall → Bool
  | .poll _ timeout => decide (0 < timeout)
  | .select _ _ _ _ milliseconds _ => decide (0 < milliseconds)
  | .connect _ => false
  | .epollWait _ _ => true

/-- Whether the call ends with `isWaitTimeout`. -/
def readsFlag (c : HookCall) : Bool :=
  match c with
  | .connect _ => false
  | _ => !c.sleeps

/-- The mask handed to `delFileEvent` at the end. -/
def delMask : HookCall → Mask
  | .connect _ => ⟨false, true⟩
  | _ => .all

def fds (c : HookCall) : List ℕ := c.regs.map Prod.fst

theorem mem_fds {c : HookCall} {fd : ℕ} :
    fd ∈ c.fds ↔ ∃ (k : ℕ) (m : Mask), c.regs[k]? = some (fd, m) := by
  constructor
  · intro h
    obtain ⟨⟨_, m⟩, hm, rfl⟩ := List.mem_map.mp h
    obtain ⟨k, hk⟩ := List.mem_iff_getElem?.mp hm
    exact ⟨k, m, hk⟩
  · rintro ⟨k, m, hk⟩
    exact List.mem_map_of_mem (f := Prod.fst) (List.mem_of_getElem? hk)

end HookCall

variable {F : Type}

/-- A loop of `setFileEvent`; `api k` is the answer of `epoll_ctl` to the registration `k`. -/
def register (w : EIoWaiter F) (f : F) (api : ℕ → Bool) : List (ℕ × Mask) → EIoWaiter F
  | [] => w
  | (fd, m) :: regs => register (w.setFileEvent (api 0) fd m f) f (fun k => api (k + 1)) regs

/-- A loop of `getFileEvent` and `delFileEvent`: the masks found, and what is left. -/
def readBack (w : EIoWaiter F) : List ℕ → List Mask × EIoWaiter F
  | [] => ([], w)
  | fd :: fds =>
    let r := readBack (w.delFileEvent fd .all) fds
    (w.getFileEvent fd :: r.1, r.2)

/-- A loop of `delFileEvent`. -/
def delFileEvents (w : EIoWaiter F) (m : Mask) : List ℕ → EIoWaiter F
  | [] => w
  | fd :: fds => delFileEvents (w.delFileEvent fd m) m fds

/-- Each turn of that loop deletes a live record, or nothing. -/
def Deletes (w : EIoWaiter F) (m : Mask) : List ℕ → Prop
  | [] => True
  | fd :: fds => w.Deletable fd ∧ Deletes (w.delFileEvent fd m) m fds

/-- `poll` after the fiber has been resumed. -/
def pollResume (w : EIoWaiter F) (isWaitTimeout : Bool) (fds : List PollFd) :
    List PollFd × ℕ :=
  if isWaitTimeout then (fds, 0)
  else
    let fds := fds.zipWith (fun e m => { e with revents := eEvent2PollEvent m })
      (readBack w (fds.map (·.fd))).1
    (fds, fds.countP (·.revents ≠ ⟨false, false⟩))

/-- `select` after the fiber has been resumed, with its sets cleared: the descriptors set in
each, and the count. A null set is not written. -/
def selectResume (w : EIoWaiter F) (isWaitTimeout : Bool) (readfds writefds : FdSet)
    (pfds : List ℕ) : (List ℕ × List ℕ) × ℕ :=
  if isWaitTimeout then (([], []), 0)
  else
    let events := pfds.zip (readBack w pfds).1
    ((((events.filter fun e => readfds.isSome && e.2.readable).map Prod.fst),
      ((events.filter fun e => writefds.isSome && e.2.writable).map Prod.fst)),
      events.countP (·.2 ≠ .none))

variable {w : EIoWaiter F} {f : F} {api : ℕ → Bool} {fd : ℕ} {m : Mask} {fds : List ℕ}
  {regs : List (ℕ × Mask)} {readfds writefds : FdSet} {first : SelectF}

theorem selectRegs_of_empty (hr : ∀ fd, readfds.isset fd = false)
    (hw : ∀ fd, writefds.isset fd = false) : selectRegs readfds writefds .none fds = [] := by
  induction fds with
  | nil => rfl
  | cons fd fds ih => simpa [selectRegs, hr fd, hw fd] using ih

theorem FdSet.left_isset {s : FdSet} {bits : ℕ → Bool} (h : bits fd = false) :
    (s.left bits).isset fd = false := by
  cases s with
  | none => rfl
  | some b => exact h

/-- The registration loop finds nothing without a descriptor or a set, and in the sets that
`select_f` leaves when it returns 0. -/
theorem SelectF.regs_eq_nil
    (h : fds = [] ∨ (readfds = none ∧ writefds = none) ∨ first.ret = 0) :
    selectRegs (readfds.left first.readfds) (writefds.left first.writefds) .none fds = [] := by
  obtain rfl | ⟨rfl, rfl⟩ | h := h
  · rfl
  · exact selectRegs_of_empty (fun _ => rfl) fun _ => rfl
  · exact selectRegs_of_empty (fun fd => FdSet.left_isset (first.empties h fd).1)
      fun fd => FdSet.left_isset (first.empties h fd).2.1

/-- A `select` that parks registers nothing. -/
theorem HookCall.select_regs {nfds : ℕ} {exceptfds : FdSet} {ms : ℤ}
    (h : (HookCall.select nfds readfds writefds exceptfds ms first).parks = true) :
    (HookCall.select nfds readfds writefds exceptfds ms first).regs = [] := by
  simp only [HookCall.parks, Bool.and_eq_true] at h
  have hp := h.2
  refine first.regs_eq_nil ?_
  split at hp
  · next hs =>
    simp only [HookCall.sleeps, Bool.or_eq_true, beq_iff_eq, Bool.and_eq_true,
      Option.isNone_iff_eq_none] at hs
    exact hs.imp (fun h0 => by rw [h0]; rfl) fun hn => Or.inl hn.1
  · exact Or.inr (Or.inr (by simpa using hp))

@[simp] theorem register_setsize : (register w f api regs).poll.setsize = w.poll.setsize := by
  induction regs generalizing w api with
  | nil => rfl
  | cons r regs ih => simp [register, ih]

@[simp] theorem readBack_length : (readBack w fds).1.length = fds.length := by
  induction fds generalizing w with
  | nil => rfl
  | cons fd fds ih => simp [readBack, ih]

/-- Both branches of `poll` and of `select` leave the same table. -/
theorem readBack_snd : (readBack w fds).2 = delFileEvents w .all fds := by
  induction fds generalizing w with
  | nil => rfl
  | cons fd fds ih => simp [readBack, delFileEvents, ih]

/-- Without repeated descriptors the loop reads the table as it was before. -/
theorem readBack_fst (hn : fds.Nodup) : (readBack w fds).1 = fds.map w.mask := by
  induction fds generalizing w with
  | nil => rfl
  | cons fd fds ih =>
    obtain ⟨hfd, hn⟩ := List.nodup_cons.mp hn
    have hrest : fds.map (w.delFileEvent fd .all).mask = fds.map w.mask := by
      refine List.map_congr_left fun fd' hm => ?_
      rw [EIoWaiter.delFileEvent_mask, if_neg]
      rintro rfl
      exact hfd hm
    simp [readBack, ih hn, hrest]

/-- A registered descriptor is seen at its first place in the list. -/
theorem readBack_ne_none (hm : fd ∈ fds) (hw : w.mask fd ≠ .none) :
    ∃ m ∈ (readBack w fds).1, m ≠ .none := by
  induction fds generalizing w with
  | nil => exact nomatch hm
  | cons fd' fds ih =>
    by_cases h : fd = fd'
    · subst h
      exact ⟨w.mask fd, by simp [readBack], hw⟩
    · have hm' : fd ∈ fds := by simpa [h] using hm
      obtain ⟨m, hmem, hne⟩ := ih (w := w.delFileEvent fd' .all) hm' (by
        rwa [EIoWaiter.delFileEvent_mask, if_neg h])
      exact ⟨m, by simp [readBack, hmem], hne⟩

/-- The deletions of a loop are sound exactly when each slot of the table has null, or a live record
and its descriptor only once in the list. -/
theorem deletes_iff : Deletes w m fds ↔ ∀ fd ∈ fds, fd < w.poll.setsize →
    w.Null fd ∨ (w.named fd).isSome = true ∧ fds.count fd = 1 := by
  induction fds generalizing w with
  | nil => simp [Deletes]
  | cons fd fds ih =>
    rw [Deletes, ih, List.forall_mem_cons]
    simp only [EIoWaiter.delFileEvent_setsize, EIoWaiter.delFileEvent_null,
      EIoWaiter.delFileEvent_named, EIoWaiter.Deletable, List.count_cons_self]
    constructor
    · rintro ⟨hfd, hrest⟩
      refine ⟨fun hlt => (hfd hlt).imp_right fun hlive => ⟨hlive, ?_⟩, fun fd' hmem hlt => ?_⟩
      · have hnot : fd ∉ fds := by
          intro hmem
          rcases hrest fd hmem hlt with hnull | ⟨hnone, -⟩
          · simp [EIoWaiter.named, Option.isNone_iff_eq_none.mp hnull.1] at hlive
          · simp [hlt] at hnone
        rw [List.count_eq_zero_of_not_mem hnot]
      · refine (hrest fd' hmem hlt).imp_right ?_
        split
        · exact fun h => absurd h.1 (by simp)
        · next hne =>
          rintro ⟨hlive, hcount⟩
          have hfd' : fd ≠ fd' := by
            rintro rfl
            exact hne ⟨rfl, hlt⟩
          exact ⟨hlive, by rwa [List.count_cons_of_ne hfd']⟩
    · rintro ⟨hfd, hrest⟩
      refine ⟨fun hlt => (hfd hlt).imp_right And.left, fun fd' hmem hlt => ?_⟩
      refine (hrest fd' hmem hlt).imp_right ?_
      rintro ⟨hlive, hcount⟩
      have hne : fd ≠ fd' := by
        rintro rfl
        have hpos := List.count_pos_iff.mpr hmem
        rw [List.count_cons_self] at hcount
        omega
      rw [if_neg fun h => hne h.1.symm]
      exact ⟨hlive, by rwa [List.count_cons_of_ne hne] at hcount⟩

end CxxFiber.EHooker
