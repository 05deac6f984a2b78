import CxxFiber.EHooker.System

/-! The calls that use the `EIoWaiter`, with descriptors as the caller gives them. What `poll` and
`select` return is in `Hooks`; here is what every call does to the table and to the counter. -/
namespace CxxFiber.EHooker.Calls

open EcoAe

structure PollEntry where
  fd : ℤ
  events : PollEvents
  deriving DecidableEq, Repr

/-- `tryWait` is the timed wait of a blocker that found no permit. -/
inductive Call
  | poll (fds : List PollEntry) (timeout : ℤ)
  | select (nfds : ℤ) (readfds writefds exceptfds : FdSet) (milliseconds : ℤ) (first : SelectF)
  | connect (fd : ℤ)
  | epollWait (epfd : ℤ) (timeout : ℤ)
  | sleep (millis : ℤ)
  | tryWait (timeout : ℤ)

namespace Call

/-- Whether `poll` or `select` calls `EFiber::sleep` instead. -/
def sleeps : Call → Bool
  | .poll fds _ => fds.all fun e => decide (e.fd < 0)
  | .select nfds readfds writefds exceptfds _ _ =>
    nfds == 0 || (readfds.isNone && writefds.isNone && exceptfds.isNone)
  | _ => false

/-- The registrations, in order. `poll` skips negative entries, and `select` goes by the sets that
`select_f` has left. -/
def regs : Call → List (ℤ × Mask)
  | .poll fds _ => (fds.filter fun e => decide (0 ≤ e.fd)).map
      fun e => (e.fd, pollEvent2EEvent e.events)
  | .select nfds readfds writefds _ _ first =>
    (selectRegs (readfds.left first.readfds) (writefds.left first.writefds) .none
      (List.range (min nfds fdSetSize).toNat)).map fun r => ((r.1 : ℤ), r.2)
  | .connect fd => [(fd, ⟨false, true⟩)]
  | .epollWait epfd _ => [(epfd, ⟨true, false⟩)]
  | .sleep _ => []
  | .tryWait _ => []

/-- The deletions, in order. Neither loop of `poll` skips an entry. -/
def dels (c : Call) : List ℤ :=
  match c with
  | .poll fds _ => if c.sleeps then [] else fds.map (·.fd)
  | _ => c.regs.map Prod.fst

def delMask : Call → Mask
  | .connect _ => ⟨false, true⟩
  | _ => .all

def timer : Call → Bool
  | .poll _ timeout => decide (0 < timeout)
  | .select _ _ _ _ milliseconds _ => decide (0 < milliseconds)
  | .connect _ => false
  | .epollWait _ _ => true
  | .sleep _ => true
  | .tryWait timeout => decide (0 < timeout)

/-- Whether the call gets as far as parking. `EFiber::sleep` throws on a negative time, `select`
returns what `select_f` does unless that is 0, and the kernel refuses a negative `nfds` and a
`connect` on a negative descriptor. -/
def parks (c : Call) : Bool :=
  match c with
  | .poll _ timeout => timeout ≠ 0 && (!c.sleeps || 0 ≤ timeout)
  | .select nfds _ _ _ milliseconds first =>
    milliseconds ≠ 0 &&
      (if c.sleeps then decide (0 ≤ milliseconds) else decide (0 ≤ nfds) && first.ret == 0)
  | .connect fd => 0 ≤ fd
  | .epollWait _ timeout => timeout ≠ 0
  | .sleep millis => 0 ≤ millis
  | .tryWait _ => true

/-- The descriptors that the caller names. -/
def asks : Call → ℤ → Bool
  | .poll fds _, fd => fds.any (·.fd == fd)
  | .select nfds readfds writefds exceptfds _ _, fd =>
    decide (0 ≤ fd ∧ fd < min nfds fdSetSize) &&
      (readfds.isset fd.toNat || writefds.isset fd.toNat || exceptfds.isset fd.toNat)
  | .connect fd', fd => fd == fd'
  | .epollWait epfd _, fd => fd == epfd
  | .sleep _, _ => false
  | .tryWait _, _ => false

/-- Parked on a file event or a timer. -/
def waits (c : Call) : Bool := !c.regs.isEmpty || c.timer

/-- What the call adds to the counter while it is parked. -/
def weight (c : Call) : ℕ := c.regs.length + if c.timer then 1 else 0

end Call

variable {F : Type}

/-- `epoll_ctl` refuses a negative descriptor. -/
def setFileEvent (w : EIoWaiter F) (api : Bool) (fd : ℤ) (m : Mask) (f : F) : EIoWaiter F :=
  w.setFileEvent (api && decide (0 ≤ fd)) fd.toNat m f

/-- A negative descriptor passes the check against `setsize`: a pointer found in front of the table
is deleted, and there is no result. -/
def delFileEvent (w : EIoWaiter F) (fd : ℤ) (m : Mask) : Except ℤ (EIoWaiter F) :=
  if 0 ≤ fd then .ok (w.delFileEvent fd.toNat m) else .error fd

/-- `api k` is the answer of `epoll_ctl` to the registration `k`. -/
def setFileEvents (w : EIoWaiter F) (f : F) (api : ℕ → Bool) : List (ℤ × Mask) → EIoWaiter F
  | [] => w
  | (fd, m) :: regs => setFileEvents (setFileEvent w (api 0) fd m f) f (fun k => api (k + 1)) regs

def delFileEvents (w : EIoWaiter F) (m : Mask) : List ℤ → Except ℤ (EIoWaiter F)
  | [] => .ok w
  | fd :: fds => (delFileEvent w fd m).bind fun w' => delFileEvents w' m fds

/-- The loop that runs when the fiber was not resumed by its timer. -/
def readBack (w : EIoWaiter F) : List ℤ → Except ℤ (List Mask × EIoWaiter F)
  | [] => .ok ([], w)
  | fd :: fds => (delFileEvent w fd .all).bind fun w' =>
    (readBack w' fds).map fun r => (w.getFileEvent fd.toNat :: r.1, r.2)

/-- What `setupTimer` does to the counter. -/
def setupTimer (w : EIoWaiter F) : EIoWaiter F := { w with waiters := w.waiters + 1 }

/-- What `cancelTimer` does to the counter. -/
def cancelTimer (w : EIoWaiter F) : EIoWaiter F := { w with waiters := w.waiters - 1 }

namespace Call

/-- The call up to the point where its fiber is parked. -/
def enter (c : Call) (w : EIoWaiter F) (f : F) (api : ℕ → Bool) : EIoWaiter F :=
  let w := setFileEvents w f api c.regs
  if c.timer then setupTimer w else w

/-- The call from the point where its fiber has been resumed. -/
def leave (c : Call) (w : EIoWaiter F) (isWaitTimeout : Bool) : Except ℤ (EIoWaiter F) :=
  let w := if c.timer then cancelTimer w else w
  match c with
  | .poll .. => if isWaitTimeout then delFileEvents w .all c.dels
      else (readBack w c.dels).map Prod.snd
  | .select .. => if isWaitTimeout then delFileEvents w .all c.dels
      else (readBack w c.dels).map Prod.snd
  | _ => delFileEvents w c.delMask c.dels

end Call

/-- The fibers of one worker that are parked in a call, and its `EIoWaiter`. -/
structure State (F : Type) where
  waiter : EIoWaiter F
  parked : List (F × Call)

inductive Act (F : Type)
  | enter (f : F) (c : Call) (api : ℕ → Bool)
  | dispatch (timeout : ℤ) (batch : List (ℕ × EpollEvents))
  | leave (f : F) (c : Call) (isWaitTimeout : Bool)

/-- A parked fiber may be resumed at any time: by an event, its timer, `interrupt` or a blocker.
Callbacks only do that. What comes after a deletion in front of the table is not modelled. -/
inductive Step : State F → Act F → State F → Prop
  | enter {s : State F} {f : F} {c : Call} {api : ℕ → Bool} (hf : f ∉ s.parked.map Prod.fst)
      (hp : c.parks = true) :
      Step s (.enter f c api) ⟨c.enter s.waiter f api, (f, c) :: s.parked⟩
  | dispatch {s : State F} {timeout : ℤ} {batch : List (ℕ × EpollEvents)} :
      Step s (.dispatch timeout batch) s
  | leave {s : State F} {f : F} {c : Call} {b : Bool} {w : EIoWaiter F} {ps qs : List (F × Call)}
      (hp : s.parked = ps ++ (f, c) :: qs) (hl : c.leave s.waiter b = .ok w) :
      Step s (.leave f c b) ⟨w, ps ++ qs⟩
  | stray {s : State F} {f : F} {c : Call} {b : Bool} {fd : ℤ} (hp : (f, c) ∈ s.parked)
      (hl : c.leave s.waiter b = .error fd) : Step s (.leave f c b) s

variable {w w' : EIoWaiter F} {f : F} {api : ℕ → Bool} {fd : ℕ} {m : Mask} {c : Call} {b : Bool}
  {fds : List ℤ} {regs : List (ℤ × Mask)}

/-- When `select` reaches its loop it hands over nothing. -/
theorem select_regs_of_ret {nfds milliseconds : ℤ} {readfds writefds exceptfds : FdSet}
    {first : SelectF} (h : first.ret = 0) :
    (Call.select nfds readfds writefds exceptfds milliseconds first).regs = [] := by
  rw [Call.regs, first.regs_eq_nil (Or.inr (Or.inr h))]
  rfl

/-- A `select` that parks registers nothing. -/
theorem select_regs {nfds milliseconds : ℤ} {readfds writefds exceptfds : FdSet} {first : SelectF}
    (h : (Call.select nfds readfds writefds exceptfds milliseconds first).parks = true) :
    (Call.select nfds readfds writefds exceptfds milliseconds first).regs = [] := by
  simp only [Call.parks, Bool.and_eq_true] at h
  have hp := h.2
  rw [Call.regs, first.regs_eq_nil ?_, List.map_nil]
  split at hp
  · next hs =>
    simp only [Call.sleeps, Bool.or_eq_true, beq_iff_eq, Bool.and_eq_true,
      Option.isNone_iff_eq_none] at hs
    exact hs.imp (fun h0 => by rw [h0]; rfl) fun hn => Or.inl hn.1
  · simp only [Bool.and_eq_true, beq_iff_eq] at hp
    exact Or.inr (Or.inr hp.2)

/-- Both loops of `poll` and of `select` delete the same. -/
theorem readBack_snd : (readBack w fds).map Prod.snd = delFileEvents w .all fds := by
  induction fds generalizing w with
  | nil => rfl
  | cons fd fds ih =>
    rw [readBack, delFileEvents, delFileEvent]
    split
    · change Except.map Prod.snd (Except.map _ (readBack (w.delFileEvent fd.toNat .all) fds)) =
        delFileEvents (w.delFileEvent fd.toNat .all) .all fds
      rw [← ih]
      cases readBack (w.delFileEvent fd.toNat .all) fds <;> rfl
    · rfl

theorem leave_eq : c.leave w b =
    delFileEvents (if c.timer then cancelTimer w else w) c.delMask c.dels := by
  cases c with
  | poll fds timeout =>
    simp only [Call.leave, readBack_snd, ite_self]
    rfl
  | select nfds readfds writefds exceptfds milliseconds first =>
    simp only [Call.leave, readBack_snd, ite_self]
    rfl
  | connect fd => rfl
  | epollWait epfd timeout => rfl
  | sleep millis => rfl
  | tryWait timeout => rfl

theorem dels_eq_fds {c : Call} (h : ∀ fd ∈ c.dels, 0 ≤ fd) : c.dels = c.regs.map Prod.fst := by
  cases c with
  | poll fds timeout =>
    by_cases hs : (Call.poll fds timeout).sleeps = true
    · have hall : ∀ e ∈ fds, e.fd < 0 := by simpa [Call.sleeps] using hs
      have hf : fds.filter (fun e => decide (0 ≤ e.fd)) = [] := by
        refine List.filter_eq_nil_iff.mpr fun e he => ?_
        simpa using hall e he
      simp [Call.dels, Call.regs, hs, hf]
    · have hf : fds.filter (fun e => decide (0 ≤ e.fd)) = fds := by
        refine List.filter_eq_self.mpr fun e he => decide_eq_true (h e.fd ?_)
        simpa [Call.dels, hs] using ⟨e, he, rfl⟩
      simp [Call.dels, Call.regs, hs, hf]
  | select nfds readfds writefds exceptfds milliseconds first => rfl
  | connect fd => rfl
  | epollWait epfd timeout => rfl
  | sleep millis => rfl
  | tryWait timeout => rfl

@[simp] theorem setFileEvents_setsize :
    (setFileEvents w f api regs).poll.setsize = w.poll.setsize := by
  induction regs generalizing w api with
  | nil => rfl
  | cons r regs ih => simp [setFileEvents, setFileEvent, ih]

@[simp] theorem enter_setsize : (c.enter w f api).poll.setsize = w.poll.setsize := by
  unfold Call.enter
  split
  · exact setFileEvents_setsize
  · exact setFileEvents_setsize

theorem delFileEvents_cons {fd : ℤ} (hfd : 0 ≤ fd) :
    delFileEvents w m (fd :: fds) = delFileEvents (w.delFileEvent fd.toNat m) m fds := by
  rw [delFileEvents, delFileEvent, if_pos hfd]
  rfl

/-- The deletions have a result exactly when no descriptor is negative. -/
theorem delFileEvents_ok : (∃ w', delFileEvents w m fds = .ok w') ↔ ∀ fd ∈ fds, 0 ≤ fd := by
  induction fds generalizing w with
  | nil => simp [delFileEvents]
  | cons fd fds ih =>
    by_cases hfd : 0 ≤ fd
    · rw [delFileEvents_cons hfd, ih]
      simp [hfd]
    · rw [delFileEvents, delFileEvent, if_neg hfd]
      refine ⟨fun h => ?_, fun h => absurd (h fd List.mem_cons_self) hfd⟩
      obtain ⟨w', hw'⟩ := h
      cases hw'

theorem delFileEvents_cons_ok {fd : ℤ} (h : delFileEvents w m (fd :: fds) = .ok w') :
    0 ≤ fd ∧ delFileEvents (w.delFileEvent fd.toNat m) m fds = .ok w' := by
  have hfd : 0 ≤ fd := delFileEvents_ok.mp ⟨w', h⟩ fd List.mem_cons_self
  rw [delFileEvents_cons hfd] at h
  exact ⟨hfd, h⟩

theorem delFileEvents_ok_setsize (h : delFileEvents w m fds = .ok w') :
    w'.poll.setsize = w.poll.setsize := by
  induction fds generalizing w with
  | nil =>
    obtain rfl := Except.ok.inj h
    rfl
  | cons fd fds ih =>
    obtain ⟨-, h⟩ := delFileEvents_cons_ok h
    simpa using ih h

theorem leave_setsize (h : c.leave w b = .ok w') : w'.poll.setsize = w.poll.setsize := by
  rw [leave_eq] at h
  rw [delFileEvents_ok_setsize h]
  split <;> rfl

/-- The soundness of a loop of deletions, for descriptors as the caller gives them. -/
theorem deletes_toNat_iff (hpos : ∀ fd ∈ fds, 0 ≤ fd) :
    Deletes w m (fds.map Int.toNat) ↔ ∀ fd ∈ fds, fd < (w.poll.setsize : ℤ) →
      w.Null fd.toNat ∨ (w.named fd.toNat).isSome = true ∧ fds.count fd = 1 := by
  rw [deletes_iff, List.forall_mem_map]
  refine forall₂_congr fun fd hfd => ?_
  have hfd' := hpos fd hfd
  have hcount : (fds.map Int.toNat).count fd.toNat = fds.count fd := by
    rw [List.count, List.countP_map, List.count]
    refine List.countP_congr fun x hx => ?_
    have hx' := hpos x hx
    simp only [Function.comp_apply, beq_iff_eq]
    omega
  rw [hcount]
  exact imp_congr_left (by omega)

/-- A call on natural descriptors. -/
def ofHook : HookCall → Call
  | .poll fds timeout => .poll (fds.map fun e => ⟨e.fd, e.events⟩) timeout
  | .select nfds readfds writefds exceptfds milliseconds first =>
    .select nfds readfds writefds exceptfds milliseconds first
  | .connect fd => .connect fd
  | .epollWait epfd timeout => .epollWait epfd timeout

theorem ofHook_regs (c : HookCall) : (ofHook c).regs = c.regs.map fun r => ((r.1 : ℤ), r.2) := by
  cases c with
  | poll fds timeout =>
    have hf : (fds.map fun e => (⟨e.fd, e.events⟩ : PollEntry)).filter
        (fun e => decide (0 ≤ e.fd)) = fds.map fun e => ⟨e.fd, e.events⟩ := by
      refine List.filter_eq_self.mpr fun e he => ?_
      obtain ⟨x, -, rfl⟩ := List.mem_map.mp he
      simp
    simp [ofHook, Call.regs, HookCall.regs, hf]
  | select nfds readfds writefds exceptfds milliseconds first =>
    have hmin : (min (nfds : ℤ) (fdSetSize : ℤ)).toNat = min nfds fdSetSize := by omega
    simp [ofHook, Call.regs, HookCall.regs, hmin]
  | connect fd => rfl
  | epollWait epfd timeout => rfl

theorem ofHook_dels (c : HookCall) : (ofHook c).dels = c.fds.map fun fd : ℕ => (fd : ℤ) := by
  have hpos : ∀ fd ∈ (ofHook c).dels, 0 ≤ fd := by
    cases c with
    | poll fds timeout =>
      intro fd hfd
      by_cases hs : (ofHook (.poll fds timeout)).sleeps = true
      · rw [ofHook, Call.dels, ← ofHook, if_pos hs] at hfd
        exact absurd hfd List.not_mem_nil
      · rw [ofHook, Call.dels, ← ofHook, if_neg hs] at hfd
        obtain ⟨e, he, rfl⟩ := List.mem_map.mp hfd
        obtain ⟨x, -, rfl⟩ := List.mem_map.mp he
        exact Int.natCast_nonneg _
    | select nfds readfds writefds exceptfds milliseconds first =>
      intro fd hfd
      obtain ⟨r, hr, rfl⟩ := List.mem_map.mp hfd
      obtain ⟨x, -, rfl⟩ := List.mem_map.mp hr
      exact Int.natCast_nonneg _
    | connect fd => simp [ofHook, Call.dels, Call.regs]
    | epollWait epfd timeout => simp [ofHook, Call.dels, Call.regs]
  rw [dels_eq_fds hpos, ofHook_regs, HookCall.fds]
  simp

theorem setFileEvents_natCast {regs : List (ℕ × Mask)} :
    setFileEvents w f api (regs.map fun r => ((r.1 : ℤ), r.2)) = register w f api regs := by
  induction regs generalizing w api with
  | nil => rfl
  | cons r regs ih => simp [setFileEvents, register, setFileEvent, ih]

theorem delFileEvents_natCast {fds : List ℕ} :
    delFileEvents w m (fds.map fun fd : ℕ => (fd : ℤ)) = .ok (EHooker.delFileEvents w m fds) := by
  induction fds generalizing w with
  | nil => rfl
  | cons fd fds ih =>
    rw [List.map_cons, delFileEvents_cons (Int.natCast_nonneg fd), Int.toNat_natCast, ih]
    rfl

/-- On natural descriptors the calls do what the hooks do, and count the timer. -/
theorem enter_ofHook (c : HookCall) : (ofHook c).enter w f api =
    if (ofHook c).timer then setupTimer (register w f api c.regs)
    else register w f api c.regs := by
  unfold Call.enter
  rw [ofHook_regs, setFileEvents_natCast]

theorem leave_ofHook (c : HookCall) : (ofHook c).leave w b =
    .ok (EHooker.delFileEvents (if (ofHook c).timer then cancelTimer w else w)
      (ofHook c).delMask c.fds) := by
  rw [leave_eq, ofHook_dels, delFileEvents_natCast]

end CxxFiber.EHooker.Calls
