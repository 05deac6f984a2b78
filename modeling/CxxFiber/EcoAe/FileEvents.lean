import Mathlib.Data.Int.Notation
import Mathlib.Data.List.Basic
import Mathlib.Logic.Function.Basic

/-! The file event table of `eco_ae.c` over epoll. A descriptor is a natural number. -/
namespace CxxFiber.EcoAe

/-- A mask of `ECO_POLL_READABLE` and `ECO_POLL_WRITABLE`. -/
@[ext]
structure Mask where
  readable : Bool
  writable : Bool
  deriving DecidableEq, Repr

namespace Mask

/-- `ECO_POLL_NONE`. -/
def none : Mask := ⟨false, false⟩

/-- `ECO_POLL_ALL_EVENTS` is used as a mask too; its bits are those of both directions. -/
def all : Mask := ⟨true, true⟩

def union (m n : Mask) : Mask := ⟨m.readable || n.readable, m.writable || n.writable⟩

def inter (m n : Mask) : Mask := ⟨m.readable && n.readable, m.writable && n.writable⟩

/-- `m & ~n`. -/
def diff (m n : Mask) : Mask := ⟨m.readable && !n.readable, m.writable && !n.writable⟩

theorem ne_none {m : Mask} : m ≠ none ↔ m.readable = true ∨ m.writable = true := by
  cases m with
  | mk r w => cases r <;> cases w <;> simp [none]

end Mask

/-- The event word of epoll, restricted to the flags that `aeApiPoll` reads. -/
structure EpollEvents where
  epollin : Bool
  epollout : Bool
  epollerr : Bool
  epollhup : Bool
  deriving DecidableEq, Repr

/-- The callbacks that are ever registered. -/
inductive FileProc
  | fileEventProc
  | pipeEventProc
  deriving DecidableEq, Repr

/-- A slot of `poll->events`. A direction in the mask has its callback. -/
structure FileEvent (D : Type) where
  mask : Mask
  rfileProc : Option FileProc
  wfileProc : Option FileProc
  clientData : Option D
  readProc : mask.readable = true → rfileProc.isSome = true
  writeProc : mask.writable = true → wfileProc.isSome = true

namespace FileEvent

variable {D : Type}

def empty : FileEvent D := ⟨.none, none, none, none, nofun, nofun⟩

/-- A direction that is in one of two masks has a callback when the second one brings it. -/
theorem isSome_of_union {before added : Bool} {p : Option FileProc} {proc : FileProc}
    (hp : before = true → p.isSome = true) (h : (before || added) = true) :
    (if added then some proc else p).isSome = true := by
  cases added with
  | true => rfl
  | false =>
    rw [Bool.or_false] at h
    exact hp h

/-- What `eco_poll_file_event_create` writes once the kernel has agreed. -/
def register (fe : FileEvent D) (mask : Mask) (proc : FileProc) (d : D) : FileEvent D where
  mask := fe.mask.union mask
  rfileProc := if mask.readable then some proc else fe.rfileProc
  wfileProc := if mask.writable then some proc else fe.wfileProc
  clientData := some d
  readProc h := isSome_of_union fe.readProc h
  writeProc h := isSome_of_union fe.writeProc h

/-- What `eco_poll_file_event_update` writes once the kernel has agreed. -/
def update (fe : FileEvent D) (mask : Mask) (proc : FileProc) (clientData : Option D) :
    FileEvent D where
  mask := fe.mask.union mask
  rfileProc := if mask.readable then some proc else fe.rfileProc
  wfileProc := if mask.writable then some proc else fe.wfileProc
  clientData := clientData
  readProc h := isSome_of_union fe.readProc h
  writeProc h := isSome_of_union fe.writeProc h

def clear (fe : FileEvent D) (mask : Mask) : FileEvent D where
  mask := fe.mask.diff mask
  rfileProc := fe.rfileProc
  wfileProc := fe.wfileProc
  clientData := fe.clientData
  readProc h := fe.readProc (by simp_all [Mask.diff])
  writeProc h := fe.writeProc (by simp_all [Mask.diff])

end FileEvent

theorem FileEvent.used_of_clear {D : Type} {fe : FileEvent D} {mask : Mask}
    (h : (fe.clear mask).mask ≠ .none) : fe.mask ≠ .none := by
  rw [Mask.ne_none] at h ⊢
  simp only [clear, Mask.diff, Bool.and_eq_true] at h
  rcases h with h | h
  · exact Or.inl h.1
  · exact Or.inr h.1

/-- The loop that looks for the new `maxfd` below `n`. -/
def lastUsed {D : Type} (events : ℕ → FileEvent D) : ℕ → ℤ
  | 0 => -1
  | n + 1 => if (events n).mask ≠ .none then n else lastUsed events n

theorem le_lastUsed {D : Type} {events : ℕ → FileEvent D} {n fd : ℕ} (h : fd < n)
    (hm : (events fd).mask ≠ .none) : (fd : ℤ) ≤ lastUsed events n := by
  induction n with
  | zero => omega
  | succ n ih =>
    unfold lastUsed
    split
    · omega
    · next hn =>
      have hne : fd ≠ n := by
        rintro rfl
        exact hn hm
      exact ih (by omega)

/-- The part of `co_poll_t` that concerns file events. Every registered descriptor is in the
table and at most `maxfd`. -/
structure Poll (D : Type) where
  maxfd : ℤ
  setsize : ℕ
  events : ℕ → FileEvent D
  used : ∀ fd, (events fd).mask ≠ .none → (fd : ℤ) ≤ maxfd ∧ fd < setsize

namespace Poll

variable {D : Type}

/-- `eco_poll_create`. -/
def create (setsize : ℕ) : Poll D := ⟨-1, setsize, fun _ => .empty, fun _ h => (h rfl).elim⟩

def maskOf (p : Poll D) (fd : ℕ) : Mask := (p.events fd).mask

/-- `eco_poll_file_event_create`; `api` is the answer of `epoll_ctl`. -/
def fileEventCreate (p : Poll D) (api : Bool) (fd : ℕ) (mask : Mask) (proc : FileProc) (d : D) :
    Poll D × Bool :=
  if h : fd < p.setsize then
    if api then
      ({ p with
          maxfd := if p.maxfd < fd then fd else p.maxfd
          events := Function.update p.events fd ((p.events fd).register mask proc d)
          used := fun j hj => by
            by_cases hjf : j = fd
            · subst j
              refine ⟨?_, h⟩
              split <;> omega
            · have := p.used j (by simpa [hjf] using hj)
              refine ⟨?_, this.2⟩
              split <;> omega }, true)
    else (p, false)
  else (p, false)

/-- `eco_poll_file_event_update`; `api` is the answer of `epoll_ctl`. -/
def fileEventUpdate (p : Poll D) (api : Bool) (fd : ℕ) (mask : Mask) (proc : FileProc)
    (clientData : Option D) : Poll D × Bool :=
  if h : fd < p.setsize then
    if api then
      ({ p with
          maxfd := if p.maxfd < fd then fd else p.maxfd
          events := Function.update p.events fd ((p.events fd).update mask proc clientData)
          used := fun j hj => by
            by_cases hjf : j = fd
            · subst j
              refine ⟨?_, h⟩
              split <;> omega
            · have := p.used j (by simpa [hjf] using hj)
              refine ⟨?_, this.2⟩
              split <;> omega }, true)
    else (p, false)
  else (p, false)

/-- `eco_poll_file_event_delete`. -/
def fileEventDelete (p : Poll D) (fd : ℕ) (mask : Mask) : Poll D :=
  if fd < p.setsize ∧ p.maskOf fd ≠ .none then
    let events := Function.update p.events fd ((p.events fd).clear mask)
    { p with
      maxfd := if (fd : ℤ) = p.maxfd ∧ (events fd).mask = .none then lastUsed events fd else p.maxfd
      events := events
      used := fun j hj => by
        have hold : p.maskOf j ≠ .none := by
          by_cases hjf : j = fd
          · subst j
            exact FileEvent.used_of_clear (by simpa [events] using hj)
          · simpa [events, hjf, maskOf] using hj
        have hle := p.used j hold
        refine ⟨?_, hle.2⟩
        split
        · next hm =>
          have hne : j ≠ fd := by
            rintro rfl
            exact hj hm.2
          exact le_lastUsed (by omega) hj
        · exact hle.1 }
  else p

/-- `eco_poll_get_file_events`. -/
def getFileEvents (p : Poll D) (fd : ℕ) : Mask := if fd < p.setsize then p.maskOf fd else .none

end Poll

/-- `aeApiPoll`'s translation of one entry of `epoll_wait`: anything but EPOLLIN counts as
writable. -/
def firedMask (e : EpollEvents) : Mask := ⟨e.epollin, e.epollout || e.epollerr || e.epollhup⟩

/-- A call of a callback: which one, on which descriptor, with which client data and mask. -/
structure Invocation (D : Type) where
  proc : FileProc
  fd : ℕ
  clientData : Option D
  mask : Mask
  deriving DecidableEq, Repr

/-- The callbacks that the dispatch loop runs for one fired event: the read callback, then the
write callback unless it is the same one and has just run. -/
def FileEvent.dispatch {D : Type} (fe : FileEvent D) (fd : ℕ) (mask : Mask) :
    List (Invocation D) :=
  let rfired := fe.mask.readable && mask.readable
  let call (proc : FileProc) : Invocation D := ⟨proc, fd, fe.clientData, mask⟩
  let reads := if rfired then fe.rfileProc.toList.map call else []
  let again := rfired && decide (fe.wfileProc = fe.rfileProc)
  let writes := if fe.mask.writable && mask.writable && !again then
    fe.wfileProc.toList.map call else []
  reads ++ writes

namespace Poll

variable {D : Type}

/-- The file events of `eco_poll_process_events(ECO_POLL_ALL_EVENTS, timeout)`; `batch` is what
`epoll_wait` returns if it is called. Neither callback touches the table. -/
def processFileEvents (p : Poll D) (timeout : ℤ) (batch : List (ℕ × EpollEvents)) :
    List (Invocation D) :=
  if p.maxfd ≠ -1 ∨ timeout ≠ 0 then
    batch.flatMap fun e => (p.events e.1).dispatch e.1 (firedMask e.2)
  else []

end Poll

variable {D : Type} {fe : FileEvent D} {p : Poll D} {fd : ℕ} {m : Mask} {i : Invocation D}
  {timeout : ℤ} {batch : List (ℕ × EpollEvents)} {e : EpollEvents}

theorem dispatch_fd (h : i ∈ fe.dispatch fd m) : i.fd = fd ∧ i.clientData = fe.clientData := by
  simp only [FileEvent.dispatch, List.mem_append] at h
  rcases h with h | h
  · split at h
    · obtain ⟨proc, -, rfl⟩ := List.mem_map.mp h
      exact ⟨rfl, rfl⟩
    · exact nomatch h
  · split at h
    · obtain ⟨proc, -, rfl⟩ := List.mem_map.mp h
      exact ⟨rfl, rfl⟩
    · exact nomatch h

/-- A fired event is called back exactly when it meets the registered mask. -/
theorem dispatch_ne_nil : fe.dispatch fd m ≠ [] ↔ fe.mask.inter m ≠ .none := by
  rw [Mask.ne_none]
  have hr := fe.readProc
  have hw := fe.writeProc
  simp only [FileEvent.dispatch, Mask.inter, Bool.and_eq_true, ne_eq, List.append_eq_nil_iff]
  cases hr' : fe.rfileProc <;> cases hw' : fe.wfileProc <;> simp_all
  grind

/-- A slot without events is not called back. -/
theorem dispatch_mask (h : i ∈ fe.dispatch fd m) : fe.mask ≠ .none := by
  intro hm
  have hne := dispatch_ne_nil.mp (List.ne_nil_of_mem h)
  rw [hm] at hne
  exact hne rfl

/-- Some callback of `fd` runs in the pass. -/
def CalledBack (p : Poll D) (timeout : ℤ) (batch : List (ℕ × EpollEvents)) (fd : ℕ) : Prop :=
  ∃ i ∈ p.processFileEvents timeout batch, i.fd = fd

/-- Every event of a registered descriptor reaches a callback. -/
def EventsReach (p : Poll D) (timeout : ℤ) (batch : List (ℕ × EpollEvents)) : Prop :=
  ∀ fd e, (fd, e) ∈ batch → p.maskOf fd ≠ .none → e ≠ ⟨false, false, false, false⟩ →
    CalledBack p timeout batch fd

/-- EPOLLIN for a reader, or any other flag for a writer. -/
def Matches (m : Mask) (e : EpollEvents) : Prop :=
  m.readable = true ∧ e.epollin = true ∨
  m.writable = true ∧ (e.epollout = true ∨ e.epollerr = true ∨ e.epollhup = true)

theorem inter_firedMask : m.inter (firedMask e) ≠ .none ↔ Matches m e := by
  rw [Mask.ne_none]
  simp [Mask.inter, firedMask, Matches, or_assoc]

theorem mem_processFileEvents (hm : p.maxfd ≠ -1) :
    i ∈ p.processFileEvents timeout batch ↔
      ∃ fd e, (fd, e) ∈ batch ∧ i ∈ (p.events fd).dispatch fd (firedMask e) := by
  simp [Poll.processFileEvents, hm]

theorem Poll.maxfd_ne (hm : p.maskOf fd ≠ .none) : p.maxfd ≠ -1 := by
  have := (p.used fd hm).1
  omega

theorem calledBack_iff (hm : p.maskOf fd ≠ .none) :
    CalledBack p timeout batch fd ↔ ∃ e, (fd, e) ∈ batch ∧ Matches (p.maskOf fd) e := by
  constructor
  · rintro ⟨i, hi, rfl⟩
    obtain ⟨fd, e, hb, hd⟩ := (mem_processFileEvents (p.maxfd_ne hm)).mp hi
    obtain ⟨hfd, -⟩ := dispatch_fd hd
    subst hfd
    exact ⟨e, hb, inter_firedMask.mp (dispatch_ne_nil.mp (List.ne_nil_of_mem hd))⟩
  · rintro ⟨e, hb, hmatch⟩
    obtain ⟨i, hd⟩ := List.exists_mem_of_ne_nil _ (dispatch_ne_nil.mpr (inter_firedMask.mpr hmatch))
    exact ⟨i, (mem_processFileEvents (p.maxfd_ne hm)).mpr ⟨fd, e, hb, hd⟩, (dispatch_fd hd).1⟩

/-- The event words that the mask misses: no EPOLLIN for a reader, a lone EPOLLIN for a writer. -/
def Missed (m : Mask) (e : EpollEvents) : Prop :=
  m = ⟨true, false⟩ ∧ e.epollin = false ∨ m = ⟨false, true⟩ ∧ e = ⟨true, false, false, false⟩

theorem matches_iff (hm : m ≠ .none) (he : e ≠ ⟨false, false, false, false⟩) :
    Matches m e ↔ ¬ Missed m e := by
  obtain ⟨r, w⟩ := m
  obtain ⟨i, o, x, h⟩ := e
  cases r <;> cases w <;> simp_all [Matches, Missed, Mask.none] <;> grind

/-- Every event reaches a callback, unless one is missed and no other entry of the same batch
makes up for it. -/
theorem events_reach_iff : EventsReach p timeout batch ↔
    ∀ fd e, (fd, e) ∈ batch → e ≠ ⟨false, false, false, false⟩ → Missed (p.maskOf fd) e →
      ∃ e', (fd, e') ∈ batch ∧ Matches (p.maskOf fd) e' := by
  constructor
  · intro h fd e hb he hmiss
    have hm : p.maskOf fd ≠ .none := by
      rcases hmiss with ⟨hm, -⟩ | ⟨hm, -⟩ <;> simp [hm, Mask.none]
    exact (calledBack_iff hm).mp (h fd e hb hm he)
  · intro h fd e hb hm he
    rw [calledBack_iff hm]
    by_cases hmatch : Matches (p.maskOf fd) e
    · exact ⟨e, hb, hmatch⟩
    · rw [matches_iff hm he, not_not] at hmatch
      exact h fd e hb he hmatch

/-- A pipe whose writer has closed: EPOLLHUP alone, on a descriptor registered for reading. -/
theorem events_reach_fails : ¬ EventsReach
    ((Poll.create 8).fileEventCreate true 3 ⟨true, false⟩ .fileEventProc ()).1 0
    [(3, ⟨false, false, false, true⟩)] := by
  intro h
  have hm : (((Poll.create 8).fileEventCreate true 3 ⟨true, false⟩ .fileEventProc ()).1).maskOf 3 =
      ⟨true, false⟩ := rfl
  have hc := h 3 ⟨false, false, false, true⟩ (List.mem_singleton.mpr rfl) (by rw [hm]; nofun) nofun
  rw [calledBack_iff (by rw [hm]; nofun), hm] at hc
  simp [Matches] at hc

end CxxFiber.EcoAe
