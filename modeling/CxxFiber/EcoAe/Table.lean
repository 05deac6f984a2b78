import CxxFiber.EcoAe.FileEvents
import CxxFiber.Library.Buffer
import CxxFiber.Library.Runs

/-! `co_poll_t` and its `aeApiState` as they lie in memory: arrays of `setsize` cells, where a field
holds nothing until it is written. An access to such a field, or outside an array, has no result.
`malloc`, `realloc` and `epoll_create` succeed. -/
namespace CxxFiber.EcoAe

open Buffer Transition

/-- `coFileEvent`; a `clientData` of `some none` is NULL. -/
structure Slot (D : Type) where
  mask : Option Mask
  rfileProc : Option FileProc
  wfileProc : Option FileProc
  clientData : Option (Option D)
  deriving DecidableEq, Repr

namespace Slot

variable {D : Type}

/-- As `malloc` leaves it. -/
def unset : Slot D := ⟨none, none, none, none⟩

def setMask (m : Mask) (s : Slot D) : Slot D := { s with mask := some m }

/-- The assignments of `eco_poll_file_event_create` and `eco_poll_file_event_update`; `old` is the
mask that has been read. -/
def register (s : Slot D) (old mask : Mask) (proc : FileProc) (clientData : Option D) : Slot D where
  mask := some (old.union mask)
  rfileProc := if mask.readable then some proc else s.rfileProc
  wfileProc := if mask.writable then some proc else s.wfileProc
  clientData := some clientData

/-- The body of the dispatch loop. -/
def dispatch (s : Slot D) (fd : ℕ) (mask : Mask) : Option (List (Invocation D)) := do
  let m ← s.mask
  let rfired := m.readable && mask.readable
  let reads ← if rfired then do
      let proc ← s.rfileProc
      let clientData ← s.clientData
      some [⟨proc, fd, clientData, mask⟩]
    else some []
  let writes ← if m.writable && mask.writable then do
      let proc ← s.wfileProc
      let same ← if rfired then s.rfileProc.map fun r => decide (proc = r) else some false
      if same then some []
      else do
        let clientData ← s.clientData
        some [⟨proc, fd, clientData, mask⟩]
    else some []
  some (reads ++ writes)

end Slot

/-- `apiEvents` is the array of `aeApiState`. -/
structure Table (D : Type) where
  maxfd : ℤ
  setsize : ℕ
  events : List (Slot D)
  fired : List (Option (ℕ × Mask))
  apiEvents : List (Option (ℕ × EpollEvents))

/-- The calls, with the answer of `epoll_ctl` (`api`) or of `epoll_wait` (`batch`). -/
inductive TableCall (D : Type)
  | create (api : Bool) (fd : ℤ) (mask : Mask) (proc : FileProc) (clientData : D)
  | update (api : Bool) (fd : ℤ) (mask : Mask) (proc : FileProc) (clientData : Option D)
  | delete (fd : ℤ) (mask : Mask)
  | get (fd : ℤ)
  | process (timeout : ℤ) (batch : List (ℕ × EpollEvents))
  | resize (setsize : ℕ)

/-- What a call returns, or the callbacks that it runs. -/
inductive TableResult (D : Type)
  | status (ok : Bool)
  | mask (m : Mask)
  | calls (l : List (Invocation D))
  | done
  deriving DecidableEq, Repr

namespace Table

variable {D : Type}

/-- `eco_poll_create`. -/
def create (setsize : ℕ) : Option (Table D) := do
  let events ← updateFrom (Slot.setMask .none) (malloc .unset setsize) 0 setsize
  some ⟨-1, setsize, events, malloc none setsize, malloc none setsize⟩

/-- `eco_poll_file_event_create`, and `eco_poll_file_event_update`, which differ in what they hand
to `epoll_ctl` only. Nothing tests whether `fd` is negative. -/
def fileEventCreate (t : Table D) (api : Bool) (fd : ℤ) (mask : Mask) (proc : FileProc)
    (clientData : Option D) : Option (TableResult D × Table D) :=
  if t.setsize ≤ fd then some (.status false, t)
  else do
    let i ← fd.toNat?
    let fe ← load t.events i
    let old ← fe.mask
    if api then do
      let events ← store t.events i (fe.register old mask proc clientData)
      some (.status true,
        { t with events := events, maxfd := if t.maxfd < fd then fd else t.maxfd })
    else some (.status false, t)

/-- The loop that looks for the new `maxfd`. -/
def searchDown (events : List (Slot D)) : ℕ → Option ℤ
  | 0 => some (-1)
  | n + 1 => do
    let fe ← load events n
    let m ← fe.mask
    if m ≠ .none then some n else searchDown events n

/-- `eco_poll_file_event_delete`. -/
def fileEventDelete (t : Table D) (fd : ℤ) (mask : Mask) : Option (TableResult D × Table D) :=
  if t.setsize ≤ fd then some (.done, t)
  else do
    let i ← fd.toNat?
    let fe ← load t.events i
    let old ← fe.mask
    if old = .none then some (.done, t)
    else do
      let events ← store t.events i (fe.setMask (old.diff mask))
      let maxfd ← if fd = t.maxfd ∧ old.diff mask = .none then searchDown events i
        else some t.maxfd
      some (.done, { t with events := events, maxfd := maxfd })

/-- `eco_poll_get_file_events`. -/
def getFileEvents (t : Table D) (fd : ℤ) : Option (TableResult D × Table D) :=
  if t.setsize ≤ fd then some (.mask .none, t)
  else do
    let i ← fd.toNat?
    let fe ← load t.events i
    let m ← fe.mask
    some (.mask m, t)

/-- `aeApiPoll`: the kernel writes the batch, the loop translates it. -/
def aeApiPoll (t : Table D) (batch : List (ℕ × EpollEvents)) : Option (Table D) := do
  let apiEvents ← storeFrom t.apiEvents 0 (batch.map some)
  let read ← loadFrom apiEvents 0 batch.length
  let fired ← storeFrom t.fired 0 (read.map fun e => e.map fun e => (e.1, firedMask e.2))
  some { t with apiEvents := apiEvents, fired := fired }

/-- The dispatch loop. -/
def dispatchAll (events : List (Slot D)) : List (Option (ℕ × Mask)) → Option (List (Invocation D))
  | [] => some []
  | e :: fired => do
    let e ← e
    let fe ← load events e.1
    let calls ← fe.dispatch e.1 e.2
    let rest ← dispatchAll events fired
    some (calls ++ rest)

/-- The file events of `eco_poll_process_events(ECO_POLL_ALL_EVENTS, timeout)`. -/
def processFileEvents (t : Table D) (timeout : ℤ) (batch : List (ℕ × EpollEvents)) :
    Option (TableResult D × Table D) :=
  if t.maxfd ≠ -1 ∨ timeout ≠ 0 then do
    let t ← t.aeApiPoll batch
    let fired ← loadFrom t.fired 0 batch.length
    let calls ← dispatchAll t.events fired
    some (.calls calls, t)
  else some (.calls [], t)

/-- `eco_poll_resize`, with `aeApiResize`. -/
def resize (t : Table D) (setsize : ℕ) : Option (TableResult D × Table D) :=
  if setsize = t.setsize then some (.status true, t)
  else if (setsize : ℤ) ≤ t.maxfd then some (.status false, t)
  else do
    let start := (t.maxfd + 1).toNat
    let events ← updateFrom (Slot.setMask .none) (realloc .unset t.events setsize) start
      (setsize - start)
    some (.status true,
      { t with
        setsize := setsize, events := events, fired := realloc none t.fired setsize,
        apiEvents := realloc none t.apiEvents setsize })

def exec (t : Table D) : TableCall D → Option (TableResult D × Table D)
  | .create api fd mask proc clientData => t.fileEventCreate api fd mask proc (some clientData)
  | .update api fd mask proc clientData => t.fileEventCreate api fd mask proc clientData
  | .delete fd mask => t.fileEventDelete fd mask
  | .get fd => t.getFileEvents fd
  | .process timeout batch => t.processFileEvents timeout batch
  | .resize setsize => t.resize setsize

/-- Descriptors are not negative, and the kernel keeps to `maxevents` and names descriptors of the
table. -/
def InBounds (t : Table D) : TableCall D → Prop
  | .create _ fd _ _ _ | .update _ fd _ _ _ | .delete fd _ | .get fd => 0 ≤ fd
  | .process timeout batch => t.maxfd ≠ -1 ∨ timeout ≠ 0 →
      batch.length ≤ t.setsize ∧ ∀ e ∈ batch, e.1 < t.setsize
  | .resize _ => True

/-- A call that has a result. -/
def Step (t : Table D) (c : TableCall D × TableResult D) (t' : Table D) : Prop :=
  t.exec c.1 = some (c.2, t')

end Table

namespace Poll

variable {D : Type}

/-- What `eco_poll_resize` makes of the table: the slots that it cuts off are new ones when it grows
again. -/
def resize (p : Poll D) (setsize : ℕ) : Poll D × Bool :=
  if setsize = p.setsize then (p, true)
  else if h : (setsize : ℤ) ≤ p.maxfd then (p, false)
  else
    ({ p with
        setsize := setsize
        events := fun fd => if fd < p.setsize ∧ fd < setsize then p.events fd else .empty
        used := fun fd hfd => by
          have hfd : (p.events fd).mask ≠ .none := by
            intro he
            apply hfd
            split
            · exact he
            · rfl
          have := (p.used fd hfd).1
          omega }, true)

def exec (p : Poll D) : TableCall D → TableResult D × Poll D
  | .create api fd mask proc clientData =>
    let r := p.fileEventCreate api fd.toNat mask proc clientData
    (.status r.2, r.1)
  | .update api fd mask proc clientData =>
    let r := p.fileEventUpdate api fd.toNat mask proc clientData
    (.status r.2, r.1)
  | .delete fd mask => (.done, p.fileEventDelete fd.toNat mask)
  | .get fd => (.mask (p.getFileEvents fd.toNat), p)
  | .process timeout batch => (.calls (p.processFileEvents timeout batch), p)
  | .resize setsize =>
    let r := p.resize setsize
    (.status r.2, r.1)

def Step (p : Poll D) (c : TableCall D × TableResult D) (p' : Poll D) : Prop :=
  p.exec c.1 = (c.2, p')

end Poll

variable {D : Type} {s : Slot D} {fe : FileEvent D} {t t' : Table D} {p p' : Poll D}
  {fd n setsize : ℕ} {m mask : Mask} {proc : FileProc} {d : Option D} {events : List (Slot D)}
  {timeout : ℤ} {batch : List (ℕ × EpollEvents)} {c : TableCall D} {r : TableResult D}

/-- What has been written into a slot is what the slot of the model holds; a slot with an event has
a `clientData`. -/
structure Slot.Holds (s : Slot D) (fe : FileEvent D) : Prop where
  mask : s.mask = some fe.mask
  rfileProc : s.rfileProc = fe.rfileProc
  wfileProc : s.wfileProc = fe.wfileProc
  clientData : s.clientData = some fe.clientData ∨
    s.clientData = none ∧ fe.mask = .none ∧ fe.clientData = none

/-- The arrays have `setsize` cells and the slots are those of the model. -/
structure Represents (t : Table D) (p : Poll D) : Prop where
  maxfd : t.maxfd = p.maxfd
  setsize : t.setsize = p.setsize
  range : -1 ≤ p.maxfd ∧ p.maxfd < p.setsize
  length : t.events.length = p.setsize
  fired : t.fired.length = p.setsize
  apiEvents : t.apiEvents.length = p.setsize
  slot : ∀ fd s, load t.events fd = some s → s.Holds (p.events fd)

theorem Slot.Holds.known (h : s.Holds fe) (hm : fe.mask ≠ .none) :
    s.clientData = some fe.clientData := by
  rcases h.clientData with hd | ⟨-, hn, -⟩
  · exact hd
  · exact (hm hn).elim

theorem Slot.holds_empty : (Slot.unset.setMask .none).Holds (FileEvent.empty : FileEvent D) :=
  ⟨rfl, rfl, rfl, Or.inr ⟨rfl, rfl, rfl⟩⟩

/-- The dispatch loop reads only fields that have been written. -/
theorem Slot.Holds.dispatch (h : s.Holds fe) : s.dispatch fd m = some (fe.dispatch fd m) := by
  unfold Slot.dispatch FileEvent.dispatch
  rw [h.mask, h.rfileProc, h.wfileProc]
  cases hr : fe.mask.readable with
  | false =>
    cases hw : fe.mask.writable with
    | false => simp [hr, hw]
    | true =>
      obtain ⟨w, hwp⟩ := Option.isSome_iff_exists.mp (fe.writeProc hw)
      rw [h.known (Mask.ne_none.mpr (Or.inr hw)), hwp]
      cases m.writable <;> simp [hr, hw]
  | true =>
    obtain ⟨q, hq⟩ := Option.isSome_iff_exists.mp (fe.readProc hr)
    rw [h.known (Mask.ne_none.mpr (Or.inl hr)), hq]
    cases hw : fe.mask.writable with
    | false => cases m.readable <;> simp [hr, hw]
    | true =>
      obtain ⟨w, hwp⟩ := Option.isSome_iff_exists.mp (fe.writeProc hw)
      rw [hwp]
      cases m.readable <;> cases m.writable <;> by_cases hwq : w = q <;> simp [hr, hw, hwq]

theorem Represents.load (h : Represents t p) (hfd : fd < p.setsize) :
    ∃ s, load t.events fd = some s ∧ s.Holds (p.events fd) := by
  obtain ⟨s, hs⟩ := load_isSome.mpr (h.length ▸ hfd)
  exact ⟨s, hs, h.slot fd s hs⟩

/-- One slot is written, and nothing else but `maxfd`. -/
theorem Represents.store (h : Represents t p) (hs : Buffer.store t.events fd s = some events)
    (hf : s.Holds fe) (hmax : -1 ≤ p'.maxfd ∧ p'.maxfd < p.setsize) (hset : p'.setsize = p.setsize)
    (hp : p'.events = Function.update p.events fd fe) :
    Represents { t with events := events, maxfd := p'.maxfd } p' := by
  refine ⟨rfl, h.setsize.trans hset.symm, hset ▸ hmax, ?_, ?_, ?_, fun j x hx => ?_⟩
  · rw [length_store hs, h.length, hset]
  · rw [h.fired, hset]
  · rw [h.apiEvents, hset]
  · rw [load_store hs] at hx
    rw [hp]
    by_cases hj : j = fd
    · subst j
      rw [if_pos rfl] at hx
      obtain rfl := Option.some.inj hx
      rwa [Function.update_self]
    · rw [if_neg hj] at hx
      rw [Function.update_of_ne hj]
      exact h.slot j x hx

theorem Slot.Holds.register (h : s.Holds fe) :
    (s.register fe.mask mask proc d).Holds (fe.update mask proc d) where
  mask := rfl
  rfileProc := by simp [Slot.register, FileEvent.update, h.rfileProc]
  wfileProc := by simp [Slot.register, FileEvent.update, h.wfileProc]
  clientData := Or.inl rfl

theorem Slot.Holds.clear (h : s.Holds fe) (hm : fe.mask ≠ .none) :
    (s.setMask (fe.mask.diff mask)).Holds (fe.clear mask) :=
  ⟨rfl, h.rfileProc, h.wfileProc, Or.inl (h.known hm)⟩

theorem toNat?_natCast (n : ℕ) : (n : ℤ).toNat? = some n := rfl

theorem create_refines {api : Bool} (h : Represents t p) :
    ∃ t', t.fileEventCreate api fd mask proc d =
        some (.status (p.fileEventUpdate api fd mask proc d).2, t') ∧
      Represents t' (p.fileEventUpdate api fd mask proc d).1 := by
  unfold Table.fileEventCreate
  by_cases hfd : fd < p.setsize
  · obtain ⟨s, hs, hf⟩ := h.load hfd
    have hstore : Buffer.store t.events fd (s.register (p.events fd).mask mask proc d) = some _ :=
      store_of_lt (h.length ▸ hfd)
    rw [if_neg (by rw [h.setsize]; omega), toNat?_natCast, Option.bind_eq_bind, Option.bind_some,
      hs]
    cases api with
    | false => exact ⟨t, by simp [hf.mask, Poll.fileEventUpdate, hfd], by
        simpa [Poll.fileEventUpdate, hfd] using h⟩
    | true =>
      have hmax : (p.fileEventUpdate true fd mask proc d).1.maxfd =
          if p.maxfd < fd then (fd : ℤ) else p.maxfd := by simp [Poll.fileEventUpdate, hfd]
      have hrange : -1 ≤ (p.fileEventUpdate true fd mask proc d).1.maxfd ∧
          (p.fileEventUpdate true fd mask proc d).1.maxfd < p.setsize := by
        have := h.range
        rw [hmax]
        split <;> omega
      refine ⟨_, ?_, h.store hstore hf.register hrange (by simp [Poll.fileEventUpdate, hfd])
        (by simp [Poll.fileEventUpdate, hfd])⟩
      simp [hf.mask, hstore, Poll.fileEventUpdate, hfd, h.maxfd]
  · rw [if_pos (by rw [h.setsize]; omega)]
    exact ⟨t, by simp [Poll.fileEventUpdate, hfd], by simpa [Poll.fileEventUpdate, hfd] using h⟩

theorem searchDown_eq (h : ∀ j < n, ∃ s, load events j = some s ∧ s.mask = some (p.events j).mask) :
    Table.searchDown events n = some (lastUsed p.events n) := by
  induction n with
  | zero => rfl
  | succ n ih =>
    obtain ⟨s, hs, hm⟩ := h n (Nat.lt_succ_self n)
    unfold Table.searchDown lastUsed
    rw [hs, Option.bind_eq_bind, Option.bind_some, hm, Option.bind_eq_bind, Option.bind_some]
    split
    · rfl
    · exact ih fun j hj => h j (Nat.lt_succ_of_lt hj)

theorem lastUsed_range {e : ℕ → FileEvent D} : -1 ≤ lastUsed e n ∧ lastUsed e n < n := by
  induction n with
  | zero => exact ⟨Int.le_refl _, by simp [lastUsed]⟩
  | succ n ih =>
    unfold lastUsed
    split <;> omega

theorem fileEventDelete_used (mask : Mask) (hfd : fd < p.setsize)
    (hm : (p.events fd).mask ≠ .none) :
    (p.fileEventDelete fd mask).setsize = p.setsize ∧
      (p.fileEventDelete fd mask).events =
        Function.update p.events fd ((p.events fd).clear mask) ∧
      (p.fileEventDelete fd mask).maxfd =
        if (fd : ℤ) = p.maxfd ∧ (p.events fd).mask.diff mask = .none then
          lastUsed (p.fileEventDelete fd mask).events fd
        else p.maxfd := by
  rw [Poll.fileEventDelete, if_pos ⟨hfd, hm⟩]
  simp [FileEvent.clear]

theorem delete_refines (h : Represents t p) :
    ∃ t', t.fileEventDelete fd mask = some (.done, t') ∧
      Represents t' (p.fileEventDelete fd mask) := by
  unfold Table.fileEventDelete
  by_cases hfd : fd < p.setsize
  · obtain ⟨s, hs, hf⟩ := h.load hfd
    rw [if_neg (by rw [h.setsize]; omega), toNat?_natCast, Option.bind_eq_bind, Option.bind_some,
      hs, Option.bind_eq_bind, Option.bind_some, hf.mask, Option.bind_eq_bind, Option.bind_some]
    by_cases hm : (p.events fd).mask = .none
    · rw [if_pos hm]
      refine ⟨t, rfl, ?_⟩
      rwa [Poll.fileEventDelete, if_neg fun hn => hn.2 hm]
    · obtain ⟨hset, hev, hmax⟩ := fileEventDelete_used mask hfd hm
      have hstore : Buffer.store t.events fd (s.setMask ((p.events fd).mask.diff mask)) = some _ :=
        store_of_lt (h.length ▸ hfd)
      have hrange : -1 ≤ (p.fileEventDelete fd mask).maxfd ∧
          (p.fileEventDelete fd mask).maxfd < p.setsize := by
        have := lastUsed_range (e := (p.fileEventDelete fd mask).events) (n := fd)
        have := h.range
        rw [hmax]
        split <;> omega
      have hr := h.store hstore (hf.clear hm) hrange hset hev
      -- the search reads the new masks
      have hsearch := searchDown_eq (n := fd) fun j hj => by
        obtain ⟨x, hx, hxf⟩ := hr.load
          (show j < (p.fileEventDelete fd mask).setsize by rw [hset]; omega)
        exact ⟨x, hx, hxf.mask⟩
      rw [if_neg hm, hstore, Option.bind_eq_bind, Option.bind_some, h.maxfd]
      refine ⟨_, ?_, hr⟩
      rw [hmax]
      split
      · rw [hsearch]
        rfl
      · rfl
  · rw [if_pos (by rw [h.setsize]; omega)]
    refine ⟨t, rfl, ?_⟩
    rwa [Poll.fileEventDelete, if_neg fun hn => hfd hn.1]

theorem get_refines (h : Represents t p) :
    t.getFileEvents fd = some (.mask (p.getFileEvents fd), t) := by
  unfold Table.getFileEvents Poll.getFileEvents
  by_cases hfd : fd < p.setsize
  · obtain ⟨s, hs, hf⟩ := h.load hfd
    rw [if_neg (by rw [h.setsize]; omega), if_pos hfd, toNat?_natCast, Option.bind_eq_bind,
      Option.bind_some, hs, Option.bind_eq_bind, Option.bind_some, hf.mask]
    rfl
  · rw [if_pos (by rw [h.setsize]; omega), if_neg hfd]

theorem dispatchAll_eq (fired : List (ℕ × Mask)) (h : Represents t p)
    (hf : ∀ e ∈ fired, e.1 < p.setsize) : Table.dispatchAll t.events (fired.map some) =
      some (fired.flatMap fun e => (p.events e.1).dispatch e.1 e.2) := by
  induction fired with
  | nil => rfl
  | cons e fired ih =>
    obtain ⟨s, hs, hfe⟩ := h.load (hf e List.mem_cons_self)
    rw [List.map_cons, List.flatMap_cons]
    unfold Table.dispatchAll
    rw [Option.bind_eq_bind, Option.bind_some, hs, Option.bind_eq_bind, Option.bind_some,
      hfe.dispatch, Option.bind_eq_bind, Option.bind_some,
      ih fun e he => hf e (List.mem_cons_of_mem _ he)]
    rfl

/-- The arrays of `epoll_wait` and of the fired events are long enough for the batch. -/
theorem aeApiPoll_refines (h : Represents t p) (hb : batch.length ≤ p.setsize) :
    ∃ t', t.aeApiPoll batch = some t' ∧ Represents t' p ∧ t'.events = t.events ∧
      loadFrom t'.fired 0 batch.length =
        some ((batch.map fun e => (e.1, firedMask e.2)).map some) := by
  obtain ⟨a, ha, hla, -, hra⟩ := storeFrom_of_le (a := t.apiEvents) (i := 0)
    (batch.map some) (by rw [List.length_map, h.apiEvents]; omega)
  rw [List.length_map] at hra
  obtain ⟨b, hb, hlb, -, hrb⟩ := storeFrom_of_le (a := t.fired) (i := 0)
    ((batch.map fun e => (e.1, firedMask e.2)).map some)
    (by rw [List.length_map, List.length_map, h.fired]; omega)
  rw [List.length_map, List.length_map] at hrb
  refine ⟨{ t with apiEvents := a, fired := b }, ?_,
    ⟨h.maxfd, h.setsize, h.range, h.length, hlb.trans h.fired, hla.trans h.apiEvents, h.slot⟩, rfl,
    hrb⟩
  have hread : (batch.map some).map (fun e : Option (ℕ × EpollEvents) =>
      e.map fun e => (e.1, firedMask e.2)) =
        (batch.map fun e => (e.1, firedMask e.2)).map some := by
    simp
  unfold Table.aeApiPoll
  rw [ha, Option.bind_eq_bind, Option.bind_some, hra, Option.bind_eq_bind, Option.bind_some, hread,
    hb]
  rfl

theorem process_refines (h : Represents t p) (hb : p.maxfd ≠ -1 ∨ timeout ≠ 0 →
    batch.length ≤ p.setsize ∧ ∀ e ∈ batch, e.1 < p.setsize) :
    ∃ t', t.processFileEvents timeout batch =
        some (.calls (p.processFileEvents timeout batch), t') ∧ Represents t' p := by
  unfold Table.processFileEvents Poll.processFileEvents
  rw [h.maxfd]
  by_cases hn : p.maxfd ≠ -1 ∨ timeout ≠ 0
  · obtain ⟨hlen, hf⟩ := hb hn
    obtain ⟨t', ht, hr, hev, hfired⟩ := aeApiPoll_refines h hlen
    have hd := dispatchAll_eq (batch.map fun e => (e.1, firedMask e.2)) hr fun e he => by
      obtain ⟨e', he', rfl⟩ := List.mem_map.mp he
      exact hf e' he'
    rw [if_pos hn, if_pos hn, ht, Option.bind_eq_bind, Option.bind_some, hfired,
      Option.bind_eq_bind, Option.bind_some, hd]
    exact ⟨t', by simp [List.flatMap_map], hr⟩
  · rw [if_neg hn, if_neg hn]
    exact ⟨t, rfl, h⟩

theorem represents_create (setsize : ℕ) : ∃ t : Table D, Table.create setsize = some t ∧
    Represents t (Poll.create setsize) := by
  obtain ⟨a, ha, hl, hload⟩ := updateFrom_of_le (a := malloc (Slot.unset : Slot D) setsize)
    (f := Slot.setMask .none) (i := 0) (k := setsize) (by rw [length_malloc]; omega)
  rw [length_malloc] at hl
  refine ⟨⟨-1, setsize, a, malloc none setsize, malloc none setsize⟩, ?_, rfl, rfl,
    ⟨Int.le_refl _, by simp only [Poll.create]; omega⟩, hl, length_malloc, length_malloc,
    fun j x hx => ?_⟩
  · unfold Table.create
    rw [ha]
    rfl
  · have hj : j < setsize := hl ▸ load_isSome.mp ⟨x, hx⟩
    rw [hload j, if_pos ⟨Nat.zero_le _, by omega⟩, load_malloc hj] at hx
    obtain rfl := Option.some.inj hx
    exact Slot.holds_empty

/-- A slot above `maxfd` has no event, so its mask is written again as it is. -/
theorem resize_refines (setsize : ℕ) (h : Represents t p) :
    ∃ t', t.resize setsize = some (.status (p.resize setsize).2, t') ∧
      Represents t' (p.resize setsize).1 := by
  unfold Table.resize Poll.resize
  rw [h.setsize, h.maxfd]
  by_cases hs : setsize = p.setsize
  · rw [if_pos hs, if_pos hs]
    exact ⟨t, rfl, h⟩
  rw [if_neg hs, if_neg hs]
  by_cases hm : (setsize : ℤ) ≤ p.maxfd
  · rw [if_pos hm, dif_pos hm]
    exact ⟨t, rfl, h⟩
  rw [if_neg hm, dif_neg hm]
  have hrange := h.range
  obtain ⟨a, ha, hl, hload⟩ := updateFrom_of_le (a := realloc Slot.unset t.events setsize)
    (f := Slot.setMask .none) (i := (p.maxfd + 1).toNat) (k := setsize - (p.maxfd + 1).toNat)
    (by rw [length_realloc]; omega)
  rw [length_realloc] at hl
  refine ⟨{ t with setsize := setsize, events := a, fired := realloc none t.fired setsize,
                   apiEvents := realloc none t.apiEvents setsize }, ?_,
    h.maxfd, rfl, ⟨hrange.1, by simpa using hm⟩, hl, length_realloc, length_realloc,
    fun j x hx => ?_⟩
  · simp only [ha, h.maxfd, Option.bind_eq_bind, Option.bind_some]
  · have hj : j < setsize := hl ▸ load_isSome.mp ⟨x, hx⟩
    change x.Holds (if j < p.setsize ∧ j < setsize then p.events j else .empty)
    change load a j = some x at hx
    rw [hload j] at hx
    by_cases hold : j < p.setsize
    · obtain ⟨y, hy, hf⟩ := h.load hold
      rw [load_realloc hj (h.length ▸ hold), hy] at hx
      rw [if_pos ⟨hold, hj⟩]
      by_cases hn : (p.maxfd + 1).toNat ≤ j ∧
          j < (p.maxfd + 1).toNat + (setsize - (p.maxfd + 1).toNat)
      · rw [if_pos hn] at hx
        obtain rfl := Option.some.inj hx
        have hmask : (p.events j).mask = .none := by
          by_contra hu
          have := (p.used j hu).1
          omega
        exact ⟨by rw [hmask]; rfl, hf.rfileProc, hf.wfileProc, hf.clientData⟩
      · rw [if_neg hn] at hx
        obtain rfl := Option.some.inj hx
        exact hf
    · rw [load_realloc_new hj (by rw [h.length]; omega), if_pos (by omega)] at hx
      obtain rfl := Option.some.inj hx
      rw [if_neg fun hn => hold hn.1]
      exact Slot.holds_empty

theorem exec_refines (h : Represents t p) (hb : t.InBounds c) :
    ∃ t', t.exec c = some ((p.exec c).1, t') ∧ Represents t' (p.exec c).2 := by
  cases c with
  | create api fd mask proc d =>
    obtain ⟨i, rfl⟩ := Int.eq_ofNat_of_zero_le hb
    exact create_refines h
  | update api fd mask proc d =>
    obtain ⟨i, rfl⟩ := Int.eq_ofNat_of_zero_le hb
    exact create_refines h
  | delete fd mask =>
    obtain ⟨i, rfl⟩ := Int.eq_ofNat_of_zero_le hb
    exact delete_refines h
  | get fd =>
    obtain ⟨i, rfl⟩ := Int.eq_ofNat_of_zero_le hb
    exact ⟨t, get_refines h, h⟩
  | process timeout batch =>
    refine process_refines h fun hn => ?_
    rw [← h.setsize]
    exact hb (h.maxfd ▸ hn)
  | resize setsize => exact resize_refines setsize h

/-- A negative descriptor is before the array. -/
theorem slot_none {β : Type} {fd : ℤ} {x : β} {f : ℕ → Option β} (hfd : fd < 0) :
    (if (t.setsize : ℤ) ≤ fd then some x else fd.toNat? >>= f) = none := by
  rw [if_neg (by omega)]
  obtain i | i := fd
  · exact absurd hfd (by simp)
  · rfl

theorem dispatchAll_some {fired : List (ℕ × Mask)} {calls : List (Invocation D)}
    (h : Table.dispatchAll events (fired.map some) = some calls) :
    ∀ e ∈ fired, e.1 < events.length := by
  induction fired generalizing calls with
  | nil => exact fun _ he => absurd he List.not_mem_nil
  | cons e fired ih =>
    rw [List.map_cons, Table.dispatchAll, Option.bind_eq_bind, Option.bind_some,
      Option.bind_eq_bind, Option.bind_eq_some_iff] at h
    obtain ⟨fe, hfe, h⟩ := h
    obtain ⟨_, -, h⟩ := Option.bind_eq_some_iff.mp h
    obtain ⟨rest, hrest, -⟩ := Option.bind_eq_some_iff.mp h
    exact List.forall_mem_cons.mpr ⟨load_isSome.mp ⟨fe, hfe⟩, ih hrest⟩

/-- A call that has a result stays inside the arrays. -/
theorem inBounds_of_exec (h : Represents t p) (he : t.exec c = some (r, t')) : t.InBounds c := by
  cases c with
  | create | update | delete | get =>
    exact Int.not_lt.mp fun hfd => absurd ((slot_none hfd).symm.trans he) (by simp)
  | process timeout batch =>
    intro hn
    rw [Table.exec, Table.processFileEvents, if_pos hn, Option.bind_eq_bind,
      Option.bind_eq_some_iff] at he
    obtain ⟨u, hu, he⟩ := he
    have hlen : batch.length ≤ p.setsize := by
      rw [Table.aeApiPoll, Option.bind_eq_bind, Option.bind_eq_some_iff] at hu
      obtain ⟨a, ha, -⟩ := hu
      have := storeFrom_le ha
      rwa [List.length_map, h.apiEvents, Nat.sub_zero] at this
    obtain ⟨u', hu', -, hev, hfired⟩ := aeApiPoll_refines h hlen
    obtain rfl := Option.some.inj (hu'.symm.trans hu)
    rw [hfired, Option.bind_eq_bind, Option.bind_some, Option.bind_eq_bind,
      Option.bind_eq_some_iff] at he
    obtain ⟨calls, hcalls, -⟩ := he
    refine ⟨h.setsize ▸ hlen, fun e hm => ?_⟩
    have := dispatchAll_some hcalls _ (List.mem_map_of_mem hm)
    rwa [hev, h.length, ← h.setsize] at this
  | resize => trivial

variable {t₀ : Table D} {as : List (TableCall D × TableResult D)}

theorem represents_step (h : Represents t p) {a : TableCall D × TableResult D}
    (hst : t.Step a t') : ∃ p', Run Poll.Step p [a] p' ∧ Represents t' p' := by
  obtain ⟨u, hu, hr⟩ := exec_refines h (inBounds_of_exec h hst)
  have he : some (a.2, t') = some ((p.exec a.1).1, u) :=
    (show t.exec a.1 = _ from hst).symm.trans hu
  obtain ⟨ha, rfl⟩ := Prod.mk.inj (Option.some.inj he)
  exact ⟨(p.exec a.1).2, .step (Prod.ext ha.symm rfl) .refl, hr⟩

/-- Whatever has been called after `eco_poll_create`, the next call has a result, that is it stays
inside the arrays and reads only what has been written, exactly when its descriptors are in bounds.
All results are those of the model without memory. -/
theorem table_refines (hc : Table.create setsize = some t₀) (h : Run Table.Step t₀ as t) :
    ∃ p, Run Poll.Step (Poll.create setsize) as p ∧ Represents t p ∧
      ∀ c, (∃ r t', t.Step (c, r) t') ↔ t.InBounds c := by
  obtain ⟨t₁, h₁, hr⟩ := represents_create (D := D) setsize
  obtain rfl := Option.some.inj (hc.symm.trans h₁)
  have hsim := h.simulation (R := Represents) (l := fun a => [a])
    (fun _ _ _ _ hr hst => represents_step hr hst) hr
  obtain ⟨p, hp, hr⟩ := hsim
  refine ⟨p, by simpa using hp, hr, fun c => ⟨?_, fun hb => ?_⟩⟩
  · rintro ⟨r, t', hst⟩
    exact inBounds_of_exec hr hst
  · obtain ⟨t', ht, -⟩ := exec_refines hr hb
    exact ⟨_, t', ht⟩

/-- A table of two slots shrinks to the one in use and grows again before a descriptor is ready. -/
theorem table_refines_grown : ∃ t : Table ℕ, t.setsize = 4 ∧
    ∃ p, Run Poll.Step (Poll.create 2)
      [(.create true 0 ⟨true, false⟩ .fileEventProc 7, .status true), (.resize 0, .status false),
        (.resize 1, .status true), (.resize 4, .status true),
        (.process 0 [(0, ⟨true, false, false, false⟩)],
          .calls [⟨.fileEventProc, 0, some 7, ⟨true, false⟩⟩])] p ∧
      Represents t p ∧ ∀ c, (∃ r t', t.Step (c, r) t') ↔ t.InBounds c :=
  ⟨_, rfl, table_refines rfl <|
    .step rfl <| .step rfl <| .step rfl <| .step rfl <| .step rfl .refl⟩

/-- A registration names a direction. -/
def Named : TableCall D → Prop
  | .create _ _ mask _ _ | .update _ _ mask _ _ => mask ≠ .none
  | _ => True

/-- `maxfd` is in use. -/
def InUse (p : Poll D) : Prop := p.maxfd = -1 ∨ ∃ fd : ℕ, (fd : ℤ) = p.maxfd ∧ p.maskOf fd ≠ .none

theorem lastUsed_inUse {e : ℕ → FileEvent D} : lastUsed e n = -1 ∨
    ∃ fd : ℕ, (fd : ℤ) = lastUsed e n ∧ (e fd).mask ≠ .none := by
  induction n with
  | zero => exact Or.inl rfl
  | succ n ih =>
    unfold lastUsed
    split
    · next hm => exact Or.inr ⟨n, rfl, hm⟩
    · exact ih

theorem inUse_update {api : Bool} (hm : mask ≠ .none) (h : InUse p) :
    InUse (p.fileEventUpdate api fd mask proc d).1 := by
  by_cases hok : fd < p.setsize ∧ api = true
  · obtain ⟨hfd, rfl⟩ := hok
    have hmax : (p.fileEventUpdate true fd mask proc d).1.maxfd =
        if p.maxfd < fd then (fd : ℤ) else p.maxfd := by simp [Poll.fileEventUpdate, hfd]
    have hev : (p.fileEventUpdate true fd mask proc d).1.events =
        Function.update p.events fd ((p.events fd).update mask proc d) := by
      simp [Poll.fileEventUpdate, hfd]
    have hused : ((p.events fd).update mask proc d).mask ≠ .none := by
      rw [Mask.ne_none] at hm ⊢
      simp only [FileEvent.update, Mask.union, Bool.or_eq_true]
      exact hm.imp Or.inr Or.inr
    unfold InUse Poll.maskOf
    rw [hmax, hev]
    split
    · exact Or.inr ⟨fd, rfl, by rwa [Function.update_self]⟩
    · next hle =>
      rcases h with h | ⟨j, hj, hu⟩
      · omega
      · refine Or.inr ⟨j, hj, ?_⟩
        by_cases he : j = fd
        · subst j
          rwa [Function.update_self]
        · rwa [Function.update_of_ne he]
  · have he : (p.fileEventUpdate api fd mask proc d).1 = p := by
      unfold Poll.fileEventUpdate
      split
      · next hfd =>
        rw [if_neg fun ha => hok ⟨hfd, ha⟩]
      · rfl
    rwa [he]

theorem inUse_delete (h : InUse p) : InUse (p.fileEventDelete fd mask) := by
  by_cases hok : fd < p.setsize ∧ p.maskOf fd ≠ .none
  · obtain ⟨-, hev, hmax⟩ := fileEventDelete_used mask hok.1 hok.2
    unfold InUse Poll.maskOf
    rw [hmax]
    split
    · exact lastUsed_inUse
    · next hn =>
      rw [hev]
      refine h.imp_right ?_
      rintro ⟨j, hj, hu⟩
      refine ⟨j, hj, ?_⟩
      by_cases he : j = fd
      · subst j
        rw [Function.update_self]
        exact fun hm => hn ⟨hj, hm⟩
      · rwa [Function.update_of_ne he]
  · rwa [Poll.fileEventDelete, if_neg hok]

theorem inUse_resize (h : InUse p) : InUse (p.resize setsize).1 := by
  unfold Poll.resize
  split
  · exact h
  · split
    · exact h
    · next hm =>
      refine h.imp_right ?_
      rintro ⟨j, hj, hu⟩
      refine ⟨j, hj, ?_⟩
      have := (p.used j hu).2
      have hlt : j < p.setsize ∧ j < setsize := by
        constructor
        · exact this
        · omega
      change (if j < p.setsize ∧ j < setsize then p.events j else FileEvent.empty).mask ≠ .none
      rwa [if_pos hlt]

theorem inUse_step {a : TableCall D × TableResult D} (hn : Named a.1) (hst : p.Step a p')
    (h : InUse p) : InUse p' := by
  obtain ⟨c, r⟩ := a
  have he : (p.exec c).2 = p' := congrArg Prod.snd hst
  subst he
  cases c with
  | create api fd mask proc d => exact inUse_update hn h
  | update api fd mask proc d => exact inUse_update hn h
  | delete fd mask => exact inUse_delete h
  | get fd => exact h
  | process timeout batch => exact h
  | resize setsize => exact inUse_resize h

/-- `eco_poll_resize` is refused exactly when a descriptor with an event would not fit; the slot at
the new size less one may be in use. -/
theorem resize_refused_iff (hc : Table.create setsize = some t₀)
    (h : Run (Guarded (fun _ a => Named a.1) Table.Step) t₀ as t) (hn : n ≠ t.setsize) :
    (∃ t', t.resize n = some (.status false, t')) ↔
      ∃ fd s m, n ≤ fd ∧ load t.events fd = some s ∧ s.mask = some m ∧ m ≠ .none := by
  obtain ⟨t₁, h₁, hr⟩ := represents_create (D := D) setsize
  obtain rfl := Option.some.inj (hc.symm.trans h₁)
  have hsim := h.simulation (R := fun t p => Represents t p ∧ InUse p) (l := fun a => [a])
    (fun t a u p hp hst => by
      obtain ⟨p', hp', hu⟩ := represents_step hp.1 hst.2
      refine ⟨p', hp', hu, ?_⟩
      cases hp' with
      | step hs hrest =>
        cases hrest
        exact inUse_step hst.1 hs hp.2) ⟨hr, Or.inl rfl⟩
  obtain ⟨p, -, hr, hu⟩ := hsim
  obtain ⟨t', ht, -⟩ := resize_refines n hr
  have hres : (∃ t', t.resize n = some (.status false, t')) ↔ (n : ℤ) ≤ p.maxfd := by
    rw [ht]
    unfold Poll.resize
    rw [if_neg fun he => hn (he.trans hr.setsize.symm)]
    by_cases hm : (n : ℤ) ≤ p.maxfd <;> simp [hm]
  rw [hres]
  constructor
  · intro hle
    rcases hu with hu | ⟨fd, hfd, hm⟩
    · omega
    · obtain ⟨s, hs, hf⟩ := hr.load (p.used fd hm).2
      exact ⟨fd, s, _, by omega, hs, hf.mask, hm⟩
  · rintro ⟨fd, s, m, hle, hs, hm, hne⟩
    have hf := hr.slot fd s hs
    have hu : (p.events fd).mask ≠ .none := by
      intro he
      rw [hf.mask, he] at hm
      exact hne (Option.some.inj hm).symm
    have := (p.used fd hu).1
    omega

/-- The second of two slots is in use. -/
theorem resize_refused_iff_second : ∃ t : Table ℕ, t.setsize = 2 ∧
    ((∃ t', t.resize 1 = some (.status false, t')) ↔
      ∃ fd s m, 1 ≤ fd ∧ load t.events fd = some s ∧ s.mask = some m ∧ m ≠ .none) := by
  have hc : (Table.create 2 : Option (Table ℕ)) =
      some ⟨-1, 2, malloc ⟨some .none, none, none, none⟩ 2, malloc none 2, malloc none 2⟩ := rfl
  have hst : Table.Step _ (.create true 1 .all .fileEventProc 7, .status true) _ :=
    rfl (a := Table.exec ⟨-1, 2, malloc ⟨some .none, none, none, none⟩ 2, malloc none 2,
      malloc none 2⟩ (.create true 1 .all .fileEventProc 7))
  refine ⟨_, ?_, resize_refused_iff (n := 1) hc
    (.guard hst (fun h => absurd h (by decide)) .refl) ?_⟩
  · rfl
  · exact fun h => absurd h (by decide)

end CxxFiber.EcoAe
