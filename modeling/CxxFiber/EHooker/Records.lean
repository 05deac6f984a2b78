import CxxFiber.EHooker.Waiters
import CxxFiber.Library.Ownership

/-! The records that `setFileEvent` makes, through the calls of any number of fibers: who deletes
them, and whether `fileEventProc` finds them. -/
namespace CxxFiber.EHooker.Calls

open EcoAe Transition Ownership

variable {F : Type}

/-- The history of records and slots. A slot is named as the caller named it. -/
abbrev Log := List (Op ℕ ℤ)

/-- What `setFileEvent` does to records; a failed registration deletes the new one. -/
def setOps (w : EIoWaiter F) (api : Bool) (fd : ℤ) (m : Mask) : Log :=
  if (w.poll.fileEventCreate (api && decide (0 ≤ fd)) fd.toNat m .fileEventProc w.next).2 then
    [.store fd w.next, .alloc w.next]
  else [.drop w.next, .alloc w.next]

/-- What `delFileEvent` does to records. The table is not cleared when it is made, so the slot may
hold no record, and neither does what is found in front of the table. -/
def delOps (w : EIoWaiter F) (fd : ℤ) : Log :=
  if fd < w.poll.setsize then
    [.free fd (if 0 ≤ fd then (w.poll.events fd.toNat).clientData else none)]
  else []

def registerOps (w : EIoWaiter F) (f : F) (api : ℕ → Bool) : List (ℤ × Mask) → Log
  | [] => []
  | (fd, m) :: regs =>
    registerOps (setFileEvent w (api 0) fd m f) f (fun k => api (k + 1)) regs ++
      setOps w (api 0) fd m

/-- Nothing is known after a deletion in front of the table. -/
def deleteOps (w : EIoWaiter F) (m : Mask) : List ℤ → Log
  | [] => []
  | fd :: fds =>
    (if 0 ≤ fd then deleteOps (w.delFileEvent fd.toNat m) m fds else []) ++ delOps w fd

/-- `fileEventProc` reads the record of every event that reaches it. -/
def dispatchOps (w : EIoWaiter F) (timeout : ℤ) (batch : List (ℕ × EpollEvents)) : Log :=
  (((w.poll.processFileEvents timeout batch).filter fun i => i.proc = .fileEventProc).map
    (·.clientData)).map .use

def Act.ops (s : State F) : Act F → Log
  | .enter f c api => registerOps s.waiter f api c.regs
  | .dispatch timeout batch => dispatchOps s.waiter timeout batch
  | .leave _ c _ =>
    deleteOps (if c.timer then cancelTimer s.waiter else s.waiter) c.delMask c.dels

/-- A step of the calls, with its history. -/
def Logged (s : State F × Log) (a : Act F) (t : State F × Log) : Prop :=
  Step s.1 a t.1 ∧ t.2 = a.ops s.1 ++ s.2

/-- The slot of the signal pipe. -/
def PipeSlot (fe : FileEvent ℕ) : Prop :=
  fe.mask = ⟨true, false⟩ ∧ fe.rfileProc = some .pipeEventProc

/-- No event on the slot reaches `fileEventProc`. -/
def Quiet (fe : FileEvent ℕ) : Prop := fe.mask = .none ∨ PipeSlot fe

/-- A new `EIoWaiter`: no fiber is parked, and there is no record. -/
structure New (s : State F × Log) : Prop where
  parked : s.1.parked = []
  heap : ∀ a, s.1.waiter.heap a = none
  clientData : ∀ fd, (s.1.waiter.poll.events fd).clientData = none
  quiet : ∀ fd, Quiet (s.1.waiter.poll.events fd)
  log : s.2 = []

/-- No descriptor of the call is negative or named twice, each registration in the table succeeds,
and no other call in progress has the slot. -/
structure Alone (s : State F) (c : Call) (api : ℕ → Bool) : Prop where
  nonneg : ∀ fd ∈ c.dels, 0 ≤ fd
  nodup : c.dels.Nodup
  accepted : ∀ k fd m, c.regs[k]? = some (fd, m) → fd < (s.waiter.poll.setsize : ℤ) → api k = true
  free : ∀ fd ∈ c.dels, fd < (s.waiter.poll.setsize : ℤ) → ∀ p ∈ s.parked, fd ∉ p.2.dels

def CallsAlone (s : State F × Log) : Act F → Prop
  | .enter _ c api => Alone s.1 c api
  | _ => True

/-- The table, its records and their history, where `H` tells the slots that calls in progress
hold. -/
structure Table (w : EIoWaiter F) (log : Log) (H : ℕ → Prop) : Prop where
  owned : Owned log
  live : ∀ a, w.heap a ≠ none ↔ Live log a
  fresh : ∀ a, .alloc a ∈ log → a < w.next
  stored : ∀ (fd a : ℕ), (w.poll.events fd).clientData = some a → .store (fd : ℤ) a ∈ log
  held : ∀ a, w.heap a ≠ none → ∃ fd, H fd ∧ (w.poll.events fd).clientData = some a
  slot : ∀ fd, H fd → fd < w.poll.setsize ∧ w.named fd ≠ none
  quiet : ∀ fd, ¬ H fd → Quiet (w.poll.events fd)

variable {w w' : EIoWaiter F} {f : F} {api : ℕ → Bool} {fd : ℕ} {m : Mask} {c : Call} {b ok : Bool}
  {fds : List ℤ} {regs : List (ℤ × Mask)} {log : Log} {H H' : ℕ → Prop}

theorem Table.congr (h : Table w log H) (hH : ∀ fd, H fd ↔ H' fd) : Table w log H' := by
  obtain rfl : H = H' := funext fun fd => propext (hH fd)
  exact h

theorem Table.next_notMem (h : Table w log H) : .alloc w.next ∉ log := by
  intro hmem
  have := h.fresh w.next hmem
  omega

theorem Table.heap_next (h : Table w log H) : w.heap w.next = none := by
  by_contra hne
  exact h.next_notMem ((h.live w.next).mp hne).1

/-- Once the next record is made, all have names before the one that follows. -/
theorem Table.alloc_le {a : ℕ} (h : Table w log H) (ha : a = w.next ∨ .alloc a ∈ log) :
    a < w.next + 1 := by
  rcases ha with rfl | ha
  · exact Nat.lt_succ_self _
  · exact Nat.lt_succ_of_lt (h.fresh a ha)

/-- A record that was not registered is gone again. -/
theorem table_drop (h : Table w log H) (hn : ¬ (fd < w.poll.setsize ∧ ok = true)) :
    Table (w.setFileEvent ok fd m f) (.drop w.next :: .alloc w.next :: log) H := by
  have hres : (w.poll.fileEventCreate ok fd m .fileEventProc w.next).2 = false := by
    rw [← Bool.not_eq_true, Poll.fileEventCreate_ok]
    exact hn
  have hheap : (w.setFileEvent ok fd m f).heap = w.heap := by
    simp only [EIoWaiter.setFileEvent, hres]
    rfl
  have hevents : ∀ i, (w.setFileEvent ok fd m f).poll.events i = w.poll.events i := by
    intro i
    rw [EIoWaiter.setFileEvent, Poll.fileEventCreate_events, if_neg fun h' => hn h'.2]
  have hlive := h.owned.live_alloc (a := w.next) h.next_notMem
  constructor
  case owned => exact ⟨hlive.mpr (Or.inl rfl), h.next_notMem, h.owned⟩
  case live =>
    intro a
    rw [hheap, live_drop, h.owned.live_alloc h.next_notMem]
    constructor
    · intro ha
      refine ⟨Or.inr ((h.live a).mp ha), ?_⟩
      rintro rfl
      exact ha h.heap_next
    · rintro ⟨rfl | ha, hne⟩
      · exact (hne rfl).elim
      · exact (h.live a).mpr ha
  case fresh =>
    intro a ha
    exact h.alloc_le (by simpa using ha)
  case stored =>
    intro i a ha
    rw [hevents] at ha
    exact List.mem_cons_of_mem _ (List.mem_cons_of_mem _ (h.stored i a ha))
  case held =>
    intro a ha
    rw [hheap] at ha
    obtain ⟨i, hi, hc⟩ := h.held a ha
    exact ⟨i, hi, by rwa [hevents]⟩
  case slot =>
    intro i hi
    obtain ⟨hlt, hnamed⟩ := h.slot i hi
    refine ⟨by simpa using hlt, ?_⟩
    rwa [EIoWaiter.setFileEvent_named, if_neg fun h' => hn h'.2]
  case quiet =>
    intro i hi
    rw [hevents]
    exact h.quiet i hi

/-- A registered record is held by the slot that it was put into, if nobody else had the slot. -/
theorem table_store (h : Table w log H) (hlt : fd < w.poll.setsize) (hn : ¬ H fd) :
    Table (w.setFileEvent true fd m f) (.store (fd : ℤ) w.next :: .alloc w.next :: log)
      fun i => H i ∨ i = fd := by
  have hres : (w.poll.fileEventCreate true fd m .fileEventProc w.next).2 = true :=
    Poll.fileEventCreate_ok.mpr ⟨hlt, rfl⟩
  have hheap : (w.setFileEvent true fd m f).heap = Function.update w.heap w.next (some f) := by
    simp only [EIoWaiter.setFileEvent, hres]
    rfl
  have hself : (w.setFileEvent true fd m f).poll.events fd =
      (w.poll.events fd).register m .fileEventProc w.next := by
    rw [EIoWaiter.setFileEvent, Poll.fileEventCreate_events, if_pos ⟨rfl, hlt, rfl⟩]
  have hother : ∀ i, i ≠ fd → (w.setFileEvent true fd m f).poll.events i = w.poll.events i := by
    intro i hi
    rw [EIoWaiter.setFileEvent, Poll.fileEventCreate_events, if_neg fun h' => hi h'.1]
  have hne : ∀ i, H i → i ≠ fd := by
    rintro i hi rfl
    exact hn hi
  have hlive := h.owned.live_alloc (a := w.next) h.next_notMem
  constructor
  case owned => exact ⟨hlive.mpr (Or.inl rfl), h.next_notMem, h.owned⟩
  case live =>
    intro a
    rw [hheap, live_store, h.owned.live_alloc h.next_notMem, ← h.live]
    by_cases ha : a = w.next
    · simp [ha]
    · simp [ha]
  case fresh =>
    intro a ha
    exact h.alloc_le (by simpa using ha)
  case stored =>
    intro i a ha
    by_cases hi : i = fd
    · subst hi
      rw [hself] at ha
      obtain rfl : w.next = a := Option.some.inj ha
      exact List.mem_cons_self
    · rw [hother i hi] at ha
      exact List.mem_cons_of_mem _ (List.mem_cons_of_mem _ (h.stored i a ha))
  case held =>
    intro a ha
    by_cases hnew : a = w.next
    · exact ⟨fd, Or.inr rfl, by rw [hself, hnew]; rfl⟩
    · rw [hheap, Function.update_of_ne hnew] at ha
      obtain ⟨i, hi, hc⟩ := h.held a ha
      exact ⟨i, Or.inl hi, by rwa [hother i (hne i hi)]⟩
  case slot =>
    intro i hi
    rw [EIoWaiter.setFileEvent_setsize, EIoWaiter.setFileEvent_named]
    rcases hi with hi | rfl
    · obtain ⟨hi', hnamed⟩ := h.slot i hi
      rw [if_neg fun h' => hne i hi h'.1]
      exact ⟨hi', hnamed⟩
    · rw [if_pos ⟨rfl, hlt, rfl⟩]
      exact ⟨hlt, Option.some_ne_none f⟩
  case quiet =>
    intro i hi
    obtain ⟨hi, hifd⟩ := not_or.mp hi
    rw [hother i hifd]
    exact h.quiet i hi

/-- A slot that a call holds gives up a live record that was stored there. -/
theorem table_free (h : Table w log H) (hfd : H fd) (hq : Quiet ((w.poll.events fd).clear m)) :
    Table (w.delFileEvent fd m) (.free (fd : ℤ) (w.poll.events fd).clientData :: log)
      fun i => H i ∧ i ≠ fd := by
  obtain ⟨hlt, hnamed⟩ := h.slot fd hfd
  obtain ⟨a, hc⟩ : ∃ a, (w.poll.events fd).clientData = some a := by
    cases hc : (w.poll.events fd).clientData with
    | none => exact (hnamed (by simp [EIoWaiter.named, hc])).elim
    | some a => exact ⟨a, rfl⟩
  have ha : w.heap a ≠ none := by simpa [EIoWaiter.named, hc] using hnamed
  have hheap : (w.delFileEvent fd m).heap = Function.update w.heap a none := by
    simp [EIoWaiter.delFileEvent, hlt, hc]
  have hdata : ∀ i, ((w.delFileEvent fd m).poll.events i).clientData =
      (w.poll.events i).clientData := by
    intro i
    rw [EIoWaiter.delFileEvent, if_pos hlt]
    exact Poll.fileEventDelete_clientData
  have hnext : (w.delFileEvent fd m).next = w.next := by
    rw [EIoWaiter.delFileEvent, if_pos hlt]
  rw [hc]
  refine ⟨⟨⟨a, rfl, h.stored fd a hc, (h.live a).mp ha⟩, h.owned⟩, fun b => ?_, fun b hb => ?_,
    fun i b hb => ?_, fun b hb => ?_, fun i hi => ?_, fun i hi => ?_⟩
  · rw [hheap, live_free, ← h.live]
    by_cases hb : b = a
    · simp [hb]
    · simp [hb]
  · rw [hnext]
    exact h.fresh b (by simpa using hb)
  · rw [hdata] at hb
    exact List.mem_cons_of_mem _ (h.stored i b hb)
  · have hne : b ≠ a := by
      rintro rfl
      rw [hheap, Function.update_self] at hb
      exact hb rfl
    rw [hheap, Function.update_of_ne hne] at hb
    obtain ⟨i, hi, hci⟩ := h.held b hb
    refine ⟨i, ⟨hi, ?_⟩, by rwa [hdata]⟩
    rintro rfl
    exact hne (Option.some.inj (hci.symm.trans hc))
  · obtain ⟨hi', hname⟩ := h.slot i hi.1
    rw [EIoWaiter.delFileEvent_setsize, EIoWaiter.delFileEvent_named, if_neg fun h' => hi.2 h'.1]
    exact ⟨hi', hname⟩
  · by_cases hifd : i = fd
    · rw [hifd, delFileEvent_events, if_pos ⟨rfl, hlt⟩]
      exact hq
    · rw [delFileEvent_events, if_neg fun h' => hifd h'.1]
      exact h.quiet i fun hH => hi ⟨hH, hifd⟩

/-- All registrations of a call, none of which finds its slot taken. -/
theorem table_register (h : Table w log H) (hpos : ∀ fd ∈ regs.map Prod.fst, 0 ≤ fd)
    (hnd : (regs.map Prod.fst).Nodup)
    (hacc : ∀ k fd m, regs[k]? = some (fd, m) → fd < (w.poll.setsize : ℤ) → api k = true)
    (hfree : ∀ fd : ℕ, (fd : ℤ) ∈ regs.map Prod.fst → fd < w.poll.setsize → ¬ H fd) :
    Table (setFileEvents w f api regs) (registerOps w f api regs ++ log)
      fun i => H i ∨ (i : ℤ) ∈ regs.map Prod.fst ∧ i < w.poll.setsize := by
  induction regs generalizing w api log H with
  | nil => exact h.congr fun fd => by simp
  | cons r regs ih =>
    obtain ⟨fd', m⟩ := r
    obtain ⟨hfd, hrest⟩ := List.nodup_cons.mp hnd
    obtain ⟨n, rfl⟩ := Int.eq_ofNat_of_zero_le (hpos fd' List.mem_cons_self)
    have hset : setFileEvent w (api 0) (n : ℤ) m f = w.setFileEvent (api 0) n m f := by
      simp [setFileEvent]
    have hsize : (w.setFileEvent (api 0) n m f).poll.setsize = w.poll.setsize := by simp
    have hpos' : ∀ fd ∈ regs.map Prod.fst, 0 ≤ fd :=
      fun fd hmem => hpos fd (List.mem_cons_of_mem _ hmem)
    have hacc' : ∀ k fd m, regs[k]? = some (fd, m) → fd < (w.poll.setsize : ℤ) →
        api (k + 1) = true := fun k fd m hk => hacc (k + 1) fd m hk
    simp only [setFileEvents, registerOps, List.append_assoc, hset]
    by_cases hlt : n < w.poll.setsize
    · have hapi : api 0 = true := hacc 0 n m rfl (by exact_mod_cast hlt)
      have hnH : ¬ H n := hfree n List.mem_cons_self hlt
      have hops : setOps w (api 0) n m = [.store (n : ℤ) w.next, .alloc w.next] := by
        simp [setOps, hapi, Poll.fileEventCreate_ok.mpr ⟨hlt, rfl⟩]
      rw [hops]
      have hstep := table_store (m := m) (f := f) h hlt hnH
      rw [← hapi] at hstep
      refine (ih hstep hpos' hrest (by rwa [hsize]) ?_).congr fun i => ?_
      · intro i hmem hi
        rw [hsize] at hi
        refine not_or.mpr ⟨hfree i (List.mem_cons_of_mem _ hmem) hi, ?_⟩
        rintro rfl
        exact hfd hmem
      · rw [hsize, List.map_cons, List.mem_cons]
        constructor
        · rintro ((hi | rfl) | hi)
          · exact Or.inl hi
          · exact Or.inr ⟨Or.inl rfl, hlt⟩
          · exact Or.inr ⟨Or.inr hi.1, hi.2⟩
        · rintro (hi | ⟨hi | hi, hil⟩)
          · exact Or.inl (Or.inl hi)
          · exact Or.inl (Or.inr (Int.ofNat.inj hi))
          · exact Or.inr ⟨hi, hil⟩
    · have hn : ¬ (n < w.poll.setsize ∧ api 0 = true) := fun h' => hlt h'.1
      have hops : setOps w (api 0) n m = [.drop w.next, .alloc w.next] := by
        have hres : (w.poll.fileEventCreate (api 0) n m .fileEventProc w.next).2 = false := by
          rw [← Bool.not_eq_true, Poll.fileEventCreate_ok]
          exact hn
        simp [setOps, hres]
      rw [hops]
      refine (ih (table_drop h hn) hpos' hrest (by rwa [hsize]) ?_).congr fun i => ?_
      · intro i hmem hi
        exact hfree i (List.mem_cons_of_mem _ hmem) (by rwa [hsize] at hi)
      · rw [hsize, List.map_cons, List.mem_cons]
        constructor
        · rintro (hi | hi)
          · exact Or.inl hi
          · exact Or.inr ⟨Or.inr hi.1, hi.2⟩
        · rintro (hi | ⟨hi | hi, hil⟩)
          · exact Or.inl hi
          · exact (hlt (Int.ofNat.inj hi ▸ hil)).elim
          · exact Or.inr ⟨hi, hil⟩

/-- All deletions of a call whose slots hold its records. -/
theorem table_delete (h : Table w log H) (hnd : fds.Nodup)
    (hslot : ∀ fd : ℕ, (fd : ℤ) ∈ fds → fd < w.poll.setsize →
      H fd ∧ Quiet ((w.poll.events fd).clear m))
    (hdel : delFileEvents w m fds = .ok w') :
    Table w' (deleteOps w m fds ++ log) fun i => H i ∧ (i : ℤ) ∉ fds := by
  induction fds generalizing w log H with
  | nil =>
    obtain rfl := Except.ok.inj hdel
    exact h.congr fun fd => by simp
  | cons fd' fds ih =>
    obtain ⟨hfd, hrest⟩ := List.nodup_cons.mp hnd
    obtain ⟨hpos, hdel⟩ := delFileEvents_cons_ok hdel
    obtain ⟨n, rfl⟩ := Int.eq_ofNat_of_zero_le hpos
    rw [Int.toNat_natCast] at hdel
    simp only [deleteOps, hpos, if_true, List.append_assoc, Int.toNat_natCast]
    by_cases hlt : n < w.poll.setsize
    · obtain ⟨hH, hq⟩ := hslot n List.mem_cons_self hlt
      have hops : delOps w n = [.free (n : ℤ) (w.poll.events n).clientData] := by
        simp [delOps, hlt]
      rw [hops]
      refine (ih (table_free h hH hq) hrest ?_ hdel).congr fun i => ?_
      · intro i hmem hi
        rw [EIoWaiter.delFileEvent_setsize] at hi
        obtain ⟨hHi, hqi⟩ := hslot i (List.mem_cons_of_mem _ hmem) hi
        have hne : i ≠ n := by
          rintro rfl
          exact hfd hmem
        rw [delFileEvent_events, if_neg fun h' => hne h'.1]
        exact ⟨⟨hHi, hne⟩, hqi⟩
      · rw [List.mem_cons, not_or, and_assoc, Int.natCast_inj]
    · have hsame : w.delFileEvent n m = w := by
        rw [EIoWaiter.delFileEvent, if_neg hlt]
      have hops : delOps w n = [] := by simp [delOps, hlt]
      rw [hsame] at hdel
      rw [hsame, hops]
      refine (ih h hrest (fun i hmem hi => hslot i (List.mem_cons_of_mem _ hmem) hi) hdel).congr
        fun i => ?_
      rw [List.mem_cons, not_or]
      refine ⟨fun hi => ⟨hi.1, ?_, hi.2⟩, fun hi => ⟨hi.1, hi.2.2⟩⟩
      intro heq
      exact hlt (Int.ofNat.inj heq ▸ (h.slot i hi.1).1)

theorem PipeSlot.dispatch {fe : FileEvent ℕ} {i : Invocation ℕ} (h : PipeSlot fe)
    (hi : i ∈ fe.dispatch fd m) : i.proc = .pipeEventProc := by
  simp only [FileEvent.dispatch, h.1, h.2, Option.toList_some, List.map_cons, List.map_nil,
    Bool.false_and, Bool.true_and, Bool.false_eq_true, if_false, List.append_nil] at hi
  split at hi
  · rw [List.mem_singleton.mp hi]
  · exact absurd hi List.not_mem_nil

/-- Every record that `fileEventProc` reads is live. -/
theorem table_dispatch (h : Table w log H) (timeout : ℤ) (batch : List (ℕ × EpollEvents)) :
    Table w (dispatchOps w timeout batch ++ log) H := by
  have huses : ∀ d ∈ ((w.poll.processFileEvents timeout batch).filter
      fun i => i.proc = .fileEventProc).map (·.clientData), ∃ a, d = some a ∧ Live log a := by
    intro d hd
    obtain ⟨i, hi, rfl⟩ := List.mem_map.mp hd
    obtain ⟨hi, hproc⟩ := List.mem_filter.mp hi
    have hproc : i.proc = .fileEventProc := of_decide_eq_true hproc
    unfold Poll.processFileEvents at hi
    split at hi
    · obtain ⟨e, -, he⟩ := List.mem_flatMap.mp hi
      have hH : H e.1 := by
        by_contra hn
        rcases h.quiet e.1 hn with hm | hpipe
        · exact dispatch_mask he hm
        · have := hpipe.dispatch he
          rw [hproc] at this
          cases this
      rw [(dispatch_fd he).2]
      have hnamed := (h.slot e.1 hH).2
      cases hc : (w.poll.events e.1).clientData with
      | none => exact (hnamed (by simp [EIoWaiter.named, hc])).elim
      | some a => exact ⟨a, rfl, (h.live a).mp (by simpa [EIoWaiter.named, hc] using hnamed)⟩
    · exact absurd hi List.not_mem_nil
  refine ⟨owned_uses.mpr ⟨huses, h.owned⟩, fun a => ?_, fun a ha => ?_, fun i a ha => ?_, h.held,
    h.slot, h.quiet⟩
  · rw [h.live, dispatchOps, live_uses]
  · refine h.fresh a ?_
    simpa [dispatchOps] using ha
  · exact List.mem_append_right _ (h.stored i a ha)

/-- The slots that calls in progress hold. -/
def Held (s : State F) (fd : ℕ) : Prop :=
  fd < s.waiter.poll.setsize ∧ ∃ p ∈ s.parked, (fd : ℤ) ∈ p.2.dels

/-- The slots of different calls are different, and deleting one leaves it quiet. -/
structure Kept (s : State F × Log) : Prop where
  table : Table s.1.waiter s.2 (Held s.1)
  nonneg : ∀ p ∈ s.1.parked, ∀ fd ∈ p.2.dels, 0 ≤ fd
  nodup : ∀ p ∈ s.1.parked, p.2.dels.Nodup
  apart : s.1.parked.Pairwise fun p q => ∀ fd ∈ p.2.dels,
    fd < (s.1.waiter.poll.setsize : ℤ) → fd ∉ q.2.dels
  clear : ∀ p ∈ s.1.parked, ∀ fd : ℕ, (fd : ℤ) ∈ p.2.dels → fd < s.1.waiter.poll.setsize →
    Quiet ((s.1.waiter.poll.events fd).clear p.2.delMask)

variable {s t : State F × Log} {a : Act F} {as : List (Act F)}

theorem kept_new (h : New s) : Kept s := by
  have hnone : ∀ p, p ∉ s.1.parked := by
    rw [h.parked]
    exact fun p => List.not_mem_nil
  refine ⟨⟨?_, fun a => ?_, fun a ha => ?_, fun i a ha => ?_, fun a ha => ?_, fun i hi => ?_,
    fun i _ => h.quiet i⟩, fun p hp => (hnone p hp).elim, fun p hp => (hnone p hp).elim, ?_,
    fun p hp => (hnone p hp).elim⟩
  · rw [h.log]
    trivial
  · simp [h.heap, h.log, Live]
  · rw [h.log] at ha
    exact absurd ha List.not_mem_nil
  · rw [h.clientData] at ha
    cases ha
  · exact (ha (h.heap a)).elim
  · obtain ⟨-, p, hp, -⟩ := hi
    exact (hnone p hp).elim
  · rw [h.parked]
    exact List.Pairwise.nil

theorem quiet_clear_all {fe : FileEvent ℕ} : Quiet (fe.clear .all) := by
  refine Or.inl ?_
  simp [FileEvent.clear, Mask.diff, Mask.all, Mask.none]

/-- `connect` deletes the one direction that it has registered. -/
theorem quiet_clear_connect {fe : FileEvent ℕ} {d : ℕ} (h : Quiet fe) :
    Quiet ((fe.register ⟨false, true⟩ .fileEventProc d).clear ⟨false, true⟩) := by
  rcases h with h | ⟨h, hproc⟩
  · refine Or.inl ?_
    simp [FileEvent.clear, FileEvent.register, Mask.diff, Mask.union, Mask.none, h]
  · refine Or.inr ⟨?_, hproc⟩
    simp [FileEvent.clear, FileEvent.register, Mask.diff, Mask.union, h]

/-- A slot that a call has registered is quiet again once the call has deleted it. -/
theorem quiet_enter (hq : Quiet (w.poll.events fd)) (hmem : (fd : ℤ) ∈ c.dels)
    (hlt : fd < w.poll.setsize)
    (hacc : ∀ k fd m, c.regs[k]? = some (fd, m) → fd < (w.poll.setsize : ℤ) → api k = true) :
    Quiet (((c.enter w f api).poll.events fd).clear c.delMask) := by
  cases c with
  | connect fd' =>
    obtain rfl : (fd : ℤ) = fd' := List.mem_singleton.mp hmem
    have hapi : api 0 = true := hacc 0 fd _ rfl (by exact_mod_cast hlt)
    rw [enter_events]
    simp only [Call.regs, setFileEvents, setFileEvent, EIoWaiter.setFileEvent,
      Poll.fileEventCreate_events]
    rw [if_pos ⟨by simp, by simpa using hlt, by simp [hapi]⟩, Int.toNat_natCast]
    exact quiet_clear_connect hq
  | poll fds timeout => exact quiet_clear_all
  | select nfds readfds writefds exceptfds milliseconds first => exact quiet_clear_all
  | epollWait epfd timeout => exact quiet_clear_all
  | sleep millis => exact quiet_clear_all
  | tryWait timeout => exact quiet_clear_all

theorem table_enter (h : Table (setFileEvents w f api c.regs) log H) :
    Table (c.enter w f api) log H := by
  unfold Call.enter
  split
  · exact ⟨h.owned, h.live, h.fresh, h.stored, h.held, h.slot, h.quiet⟩
  · exact h

theorem table_disarm (h : Table w log H) : Table (if c.timer then cancelTimer w else w) log H := by
  split
  · exact ⟨h.owned, h.live, h.fresh, h.stored, h.held, h.slot, h.quiet⟩
  · exact h

theorem kept_enter (hs : Kept s) (hg : Alone s.1 c api) : Kept
    (⟨c.enter s.1.waiter f api, (f, c) :: s.1.parked⟩, registerOps s.1.waiter f api c.regs ++ s.2)
    where
  table := by
    have hd := dels_eq_fds hg.nonneg
    have hpos : ∀ fd ∈ c.regs.map Prod.fst, 0 ≤ fd := hd ▸ hg.nonneg
    have hfree : ∀ fd : ℕ, (fd : ℤ) ∈ c.regs.map Prod.fst → fd < s.1.waiter.poll.setsize →
        ¬ Held s.1 fd := by
      rintro fd hmem hlt ⟨-, p, hp, hfd⟩
      exact hg.free fd (hd ▸ hmem) (by exact_mod_cast hlt) p hp hfd
    have ht := table_register (f := f) hs.table hpos (hd ▸ hg.nodup) hg.accepted hfree
    refine (table_enter ht).congr fun fd => ?_
    unfold Held
    rw [enter_setsize, ← hd]
    constructor
    · rintro (⟨hlt, p, hp, hfd⟩ | ⟨hmem, hlt⟩)
      · exact ⟨hlt, p, List.mem_cons_of_mem _ hp, hfd⟩
      · exact ⟨hlt, (f, c), List.mem_cons_self, hmem⟩
    · rintro ⟨hlt, p, hp, hfd⟩
      rcases List.mem_cons.mp hp with rfl | hp
      · exact Or.inr ⟨hfd, hlt⟩
      · exact Or.inl ⟨hlt, p, hp, hfd⟩
  nonneg p hp := by
    rcases List.mem_cons.mp hp with rfl | hp
    · exact hg.nonneg
    · exact hs.nonneg p hp
  nodup p hp := by
    rcases List.mem_cons.mp hp with rfl | hp
    · exact hg.nodup
    · exact hs.nodup p hp
  apart := by
    rw [enter_setsize]
    exact List.Pairwise.cons (fun q hq fd hfd hlt => hg.free fd hfd hlt q hq) hs.apart
  clear p hp fd hfd hlt := by
    rw [enter_setsize] at hlt
    rcases List.mem_cons.mp hp with rfl | hp
    · refine quiet_enter (hs.table.quiet fd ?_) hfd hlt hg.accepted
      rintro ⟨-, q, hq, hqfd⟩
      exact hg.free fd hfd (by exact_mod_cast hlt) q hq hqfd
    · have hnot : (fd : ℤ) ∉ c.regs.map Prod.fst := by
        rw [← dels_eq_fds hg.nonneg]
        exact fun hmem => hg.free fd hmem (by exact_mod_cast hlt) p hp hfd
      rw [enter_events, setFileEvents_events_of_notMem hnot]
      exact hs.clear p hp fd hfd hlt

theorem kept_leave {ps qs : List (F × Call)} (hs : Kept s) (hp : s.1.parked = ps ++ (f, c) :: qs)
    (hl : c.leave s.1.waiter b = .ok w) :
    Kept (⟨w, ps ++ qs⟩, deleteOps (if c.timer then cancelTimer s.1.waiter else s.1.waiter)
      c.delMask c.dels ++ s.2) := by
  have hmem : (f, c) ∈ s.1.parked := hp ▸ List.mem_append_right _ List.mem_cons_self
  have hrest : ∀ p ∈ ps ++ qs, p ∈ s.1.parked := by
    intro p hp'
    rw [hp]
    rcases List.mem_append.mp hp' with hp' | hp'
    · exact List.mem_append_left _ hp'
    · exact List.mem_append_right _ (List.mem_cons_of_mem _ hp')
  have hsize := leave_setsize hl
  have hpair := hs.apart
  rw [hp, List.pairwise_append] at hpair
  obtain ⟨hps, hqs, hcross⟩ := hpair
  -- The slots of the call that ends belong to no other call.
  have hnot : ∀ p ∈ ps ++ qs, ∀ fd : ℕ, (fd : ℤ) ∈ p.2.dels → fd < s.1.waiter.poll.setsize →
      (fd : ℤ) ∉ c.dels := by
    intro p hp' fd hfd hlt hc
    have hlt : (fd : ℤ) < (s.1.waiter.poll.setsize : ℤ) := by exact_mod_cast hlt
    rcases List.mem_append.mp hp' with hp' | hp'
    · exact hcross p hp' (f, c) List.mem_cons_self fd hfd hlt hc
    · exact (List.pairwise_cons.mp hqs).1 p hp' fd hc hlt hfd
  refine ⟨?_, fun p hp' => hs.nonneg p (hrest p hp'), fun p hp' => hs.nodup p (hrest p hp'), ?_, ?_⟩
  · rw [leave_eq] at hl
    have hslot : ∀ fd : ℕ, (fd : ℤ) ∈ c.dels →
        fd < (if c.timer then cancelTimer s.1.waiter else s.1.waiter).poll.setsize →
        Held s.1 fd ∧ Quiet (((if c.timer then cancelTimer s.1.waiter
          else s.1.waiter).poll.events fd).clear c.delMask) := by
      intro fd hfd hlt
      have hlt : fd < s.1.waiter.poll.setsize := by
        split at hlt <;> exact hlt
      refine ⟨⟨hlt, (f, c), hmem, hfd⟩, ?_⟩
      have hq := hs.clear (f, c) hmem fd hfd hlt
      split <;> exact hq
    refine (table_delete (table_disarm hs.table) (hs.nodup _ hmem) hslot hl).congr fun fd => ?_
    unfold Held
    simp only [hsize, hp]
    constructor
    · rintro ⟨⟨hlt, p, hp', hfd⟩, hc⟩
      refine ⟨hlt, p, ?_, hfd⟩
      rcases List.mem_append.mp hp' with hp' | hp'
      · exact List.mem_append_left _ hp'
      · rcases List.mem_cons.mp hp' with rfl | hp'
        · exact (hc hfd).elim
        · exact List.mem_append_right _ hp'
    · rintro ⟨hlt, p, hp', hfd⟩
      exact ⟨⟨hlt, p, hp ▸ hrest p hp', hfd⟩, hnot p hp' fd hfd hlt⟩
  · rw [hsize]
    exact List.pairwise_append.mpr ⟨hps, (List.pairwise_cons.mp hqs).2,
      fun p hp' q hq => hcross p hp' q (List.mem_cons_of_mem _ hq)⟩
  · intro p hp' fd hfd hlt
    rw [hsize] at hlt
    rw [leave_events_of_notMem hl (hnot p hp' fd hfd hlt)]
    exact hs.clear p (hrest p hp') fd hfd hlt

theorem kept_step (hs : Kept s) (h : Guarded CallsAlone Logged s a t) : Kept t := by
  obtain ⟨s, log⟩ := s
  obtain ⟨t, log'⟩ := t
  obtain ⟨hg, hstep, hlog⟩ := h
  obtain rfl : log' = a.ops s ++ log := hlog
  cases hstep with
  | enter hf hp => exact kept_enter hs hg
  | dispatch => exact ⟨table_dispatch hs.table _ _, hs.nonneg, hs.nodup, hs.apart, hs.clear⟩
  | leave hp hl => exact kept_leave hs hp hl
  | @stray f c b fd hp hl =>
    -- A call without negative descriptors has a result.
    obtain ⟨w, hw⟩ : ∃ w, c.leave s.waiter b = .ok w := by
      rw [leave_eq]
      exact delFileEvents_ok.mpr (hs.nonneg (f, c) hp)
    rw [hw] at hl
    cases hl

/-- Where every call is alone on its slots and the kernel accepts its registrations, each record is
deleted once, and not before its call ends; nothing else is deleted, and no record is read after. -/
theorem records_owned (hs : New s) (h : Run (Guarded CallsAlone Logged) s as t) : Owned t.2 ∧
    ∀ a, .alloc a ∈ t.2 → deletions t.2 a = 1 ∨ deletions t.2 a = 0 ∧
      ∃ p ∈ t.1.parked, ∃ fd : ℕ, (fd : ℤ) ∈ p.2.dels ∧
        (t.1.waiter.poll.events fd).clientData = some a := by
  have hk : Kept t := h.invariant (fun _ _ _ => kept_step) (kept_new hs)
  refine ⟨hk.table.owned, fun a ha => ?_⟩
  by_cases hlive : Live t.2 a
  · obtain ⟨fd, ⟨-, p, hp, hfd⟩, hc⟩ := hk.table.held a ((hk.table.live a).mpr hlive)
    exact Or.inr ⟨hlive.2, p, hp, fd, hfd, hc⟩
  · exact Or.inl (hk.table.owned.deletions_eq_one ha hlive)

/-- One call on a new table of eight, from its start to its end. -/
theorem run_once {c : Call} {w : EIoWaiter Unit} {G : State Unit × Log → Act Unit → Prop}
    (hp : c.parks = true) (hl : c.leave (c.enter (.create 8) () fun _ => true) true = .ok w)
    (hg : G (⟨.create 8, []⟩, []) (.enter () c fun _ => true))
    (hg' : ∀ s, G s (.leave () c true)) :
    Run (Guarded G Logged) (⟨.create 8, []⟩, []) [.enter () c fun _ => true, .leave () c true]
      (⟨w, []⟩, deleteOps (if c.timer then cancelTimer (c.enter (.create 8) () fun _ => true)
        else c.enter (.create 8) () fun _ => true) c.delMask c.dels ++
          (registerOps (.create 8) () (fun _ => true) c.regs ++ [])) := by
  have hleave : Step (⟨c.enter (.create 8) () fun _ => true, [] ++ ((), c) :: []⟩ : State Unit)
      (.leave () c true) ⟨w, [] ++ []⟩ := .leave rfl hl
  have hlast : Logged (⟨c.enter (.create 8) () fun _ => true, [((), c)]⟩,
      registerOps (.create 8) () (fun _ => true) c.regs ++ []) (.leave () c true) (⟨w, []⟩,
      deleteOps (if c.timer then cancelTimer (c.enter (.create 8) () fun _ => true)
        else c.enter (.create 8) () fun _ => true) c.delMask c.dels ++
          (registerOps (.create 8) () (fun _ => true) c.regs ++ [])) := ⟨hleave, rfl⟩
  exact .step ⟨hg, .enter List.not_mem_nil hp, rfl⟩ (.step ⟨hg' _, hlast⟩ .refl)

theorem records_owned_poll : ∃ t : State Unit × Log, Run (Guarded CallsAlone Logged)
    (⟨.create 8, []⟩, []) [.enter () poll₃ fun _ => true, .leave () poll₃ true] t ∧
    Owned t.2 ∧ deletions t.2 0 = 1 := by
  have halone : Alone (⟨.create 8, []⟩ : State Unit) poll₃ fun _ => true :=
    ⟨by decide, by decide, fun _ _ _ _ _ => rfl, fun _ _ _ p hp => absurd hp List.not_mem_nil⟩
  have hnew : New ((⟨.create 8, []⟩, []) : State Unit × Log) :=
    ⟨rfl, fun _ => rfl, fun _ => rfl, fun _ => Or.inl rfl, rfl⟩
  have hrun := run_once (G := CallsAlone) (c := poll₃) rfl rfl halone fun _ => trivial
  refine ⟨_, hrun, (records_owned hnew hrun).1, ?_⟩
  rcases (records_owned hnew hrun).2 0 (by decide) with h | ⟨-, p, hp, -⟩
  · exact h
  · exact absurd hp List.not_mem_nil

/-- Descriptor 3 twice in one poll. -/
def pollTwice : Call := .poll [⟨3, ⟨true, false⟩⟩, ⟨3, ⟨false, true⟩⟩] 100

/-- The first record is never deleted, the second one twice. -/
theorem records_not_owned : ∃ t : State Unit × Log,
    Run (Guarded (fun _ _ => True) Logged) (⟨.create 8, []⟩, [])
      [.enter () pollTwice fun _ => true, .leave () pollTwice true] t ∧
    t.1.parked = [] ∧ .alloc 0 ∈ t.2 ∧ deletions t.2 0 = 0 ∧ deletions t.2 1 = 2 ∧ ¬ Owned t.2 := by
  have hrun := run_once (G := fun _ _ => True) (c := pollTwice) rfl rfl trivial fun _ => trivial
  refine ⟨_, hrun, rfl, by decide, by decide, by decide, fun h => ?_⟩
  exact absurd (h.deletions_le_one (a := 1)) (by decide)

end CxxFiber.EHooker.Calls
