import CxxFiber.EHooker.Calls

/-! The counter of waiters: what each call adds and takes away, and what it comes to in a run. -/
namespace CxxFiber.EHooker.Calls

open EcoAe Transition

variable {F : Type}

/-- A call that starts with the table `w` and is resumed with the table `v` ends, deletes live
records only, each once, adds to the counter what it takes away, and leaves the slots that it was
not asked for as they are. -/
def Balanced (c : Call) (w v : EIoWaiter F) (f : F) (api : ℕ → Bool) (isWaitTimeout : Bool) :
    Prop :=
  ∃ v', c.leave v isWaitTimeout = .ok v' ∧
    Deletes v c.delMask (c.dels.map Int.toNat) ∧
    (c.enter w f api).waiters - w.waiters + (v'.waiters - v.waiters) = 0 ∧
    ∀ fd : ℕ, c.asks fd = false → (c.enter w f api).poll.events fd = w.poll.events fd ∧
      v'.poll.events fd = v.poll.events fd

/-- No descriptor that is deleted is negative, none that is registered is outside the table. -/
structure Within (c : Call) (setsize : ℕ) : Prop where
  nonneg : ∀ fd ∈ c.dels, 0 ≤ fd
  lt : ∀ fd ∈ c.regs.map Prod.fst, fd < setsize

/-- Every slot that the call deletes has null, or a live record and its descriptor only once in the
call. -/
def Sound (c : Call) (v : EIoWaiter F) : Prop :=
  ∀ fd ∈ c.dels, v.Null fd.toNat ∨ (v.named fd.toNat).isSome = true ∧ c.dels.count fd = 1

/-- The condition under which a call that parks is balanced. -/
structure Fits (c : Call) (w v : EIoWaiter F) : Prop extends Within c w.poll.setsize where
  sound : Sound c v

variable {w v w' v' : EIoWaiter F} {f : F} {api : ℕ → Bool} {fd : ℕ} {m : Mask} {c : Call}
  {b : Bool} {fds : List ℤ} {regs : List (ℤ × Mask)} {s t : State F} {a : Act F} {as : List (Act F)}

theorem setFileEvents_waiters :
    (setFileEvents w f api regs).waiters = w.waiters + regs.length := by
  induction regs generalizing w api with
  | nil => simp [setFileEvents]
  | cons r regs ih =>
    rw [setFileEvents, ih]
    simp only [setFileEvent, EIoWaiter.setFileEvent, List.length_cons]
    omega

theorem enter_waiters : (c.enter w f api).waiters = w.waiters + c.weight := by
  unfold Call.enter Call.weight
  split
  · simp only [setupTimer, setFileEvents_waiters]
    omega
  · simp only [setFileEvents_waiters]
    omega

theorem delFileEvents_waiters (h : delFileEvents w m fds = .ok w') :
    w'.waiters = w.waiters - fds.countP fun fd => decide (fd < (w.poll.setsize : ℤ)) := by
  induction fds generalizing w with
  | nil =>
    obtain rfl := Except.ok.inj h
    simp
  | cons fd fds ih =>
    obtain ⟨hfd, h⟩ := delFileEvents_cons_ok h
    rw [ih h, List.countP_cons, EIoWaiter.delFileEvent_setsize]
    by_cases hlt : fd < (w.poll.setsize : ℤ)
    · have hdel : (w.delFileEvent fd.toNat m).waiters = w.waiters - 1 := by
        rw [EIoWaiter.delFileEvent, if_pos (by omega)]
      simp only [hdel, hlt, decide_true, if_true]
      omega
    · have hdel : w.delFileEvent fd.toNat m = w := by
        rw [EIoWaiter.delFileEvent, if_neg (by omega)]
      simp [hdel, hlt]

theorem leave_waiters (h : c.leave w b = .ok w') : w'.waiters = w.waiters -
    ((c.dels.countP fun fd => decide (fd < (w.poll.setsize : ℤ))) +
      if c.timer then 1 else 0 : ℕ) := by
  rw [leave_eq] at h
  have hsize : (if c.timer then cancelTimer w else w).poll.setsize = w.poll.setsize := by
    split <;> rfl
  rw [delFileEvents_waiters h, hsize]
  split
  · simp only [cancelTimer]
    omega
  · omega

theorem countP_lt_eq {n : ℕ} : (c.regs.map Prod.fst).countP (fun fd => decide (fd < (n : ℤ))) =
    c.regs.length ↔ ∀ fd ∈ c.regs.map Prod.fst, fd < (n : ℤ) := by
  rw [← List.length_map (f := Prod.fst), List.countP_eq_length]
  simp

theorem setFileEvent_events {fd' : ℕ} {fd : ℤ} {ok : Bool} :
    (setFileEvent w ok fd m f).poll.events fd' =
      if (fd' : ℤ) = fd ∧ fd' < w.poll.setsize ∧ ok = true then
        (w.poll.events fd').register m .fileEventProc w.next
      else w.poll.events fd' := by
  simp only [setFileEvent, EIoWaiter.setFileEvent, Poll.fileEventCreate_events]
  by_cases h : (fd' : ℤ) = fd ∧ fd' < w.poll.setsize ∧ ok = true
  · obtain ⟨rfl, hlt, rfl⟩ := h
    simp [hlt]
  · rw [if_neg h, if_neg]
    rintro ⟨rfl, hlt, hok⟩
    simp only [Bool.and_eq_true, decide_eq_true_eq] at hok
    exact h ⟨Int.toNat_of_nonneg hok.2, hlt, hok.1⟩

/-- The loop leaves the slots alone that are not in its list. -/
theorem setFileEvents_events_of_notMem (h : (fd : ℤ) ∉ regs.map Prod.fst) :
    (setFileEvents w f api regs).poll.events fd = w.poll.events fd := by
  induction regs generalizing w api with
  | nil => rfl
  | cons r regs ih =>
    obtain ⟨fd', m'⟩ := r
    rw [List.map_cons, List.mem_cons, not_or] at h
    rw [setFileEvents, ih h.2, setFileEvent_events, if_neg fun h' => h.1 h'.1]

theorem clear_of_none {fe : FileEvent ℕ} (h : fe.mask = .none) : fe.clear m = fe := by
  obtain ⟨mask, rfileProc, wfileProc, clientData, hr, hw⟩ := fe
  obtain rfl : mask = .none := h
  simp [FileEvent.clear, Mask.diff, Mask.none]

theorem delFileEvent_events {fd' : ℕ} : (w.delFileEvent fd' m).poll.events fd =
    if fd = fd' ∧ fd' < w.poll.setsize then (w.poll.events fd).clear m else w.poll.events fd := by
  by_cases hlt : fd' < w.poll.setsize
  · rw [EIoWaiter.delFileEvent, if_pos hlt]
    by_cases heq : fd = fd'
    · subst heq
      simp only [Poll.fileEventDelete, hlt, true_and, and_self, if_true]
      split
      · exact Function.update_self ..
      · next hm => exact (clear_of_none (not_not.mp hm)).symm
    · rw [if_neg fun h => heq h.1]
      simp only [Poll.fileEventDelete]
      split
      · exact Function.update_of_ne heq ..
      · rfl
  · rw [EIoWaiter.delFileEvent, if_neg hlt, if_neg fun h => hlt h.2]

theorem delFileEvents_events_of_notMem (h : delFileEvents w m fds = .ok w')
    (hm : (fd : ℤ) ∉ fds) : w'.poll.events fd = w.poll.events fd := by
  induction fds generalizing w with
  | nil =>
    obtain rfl := Except.ok.inj h
    rfl
  | cons fd' fds ih =>
    obtain ⟨hfd, h⟩ := delFileEvents_cons_ok h
    rw [List.mem_cons, not_or] at hm
    rw [ih h hm.2, delFileEvent_events, if_neg]
    rintro ⟨heq, -⟩
    omega

theorem enter_events :
    (c.enter w f api).poll.events = (setFileEvents w f api c.regs).poll.events := by
  unfold Call.enter
  split <;> rfl

/-- The counter is balanced exactly when all that is deleted is in the table. -/
theorem leave_balanced (hv : v.poll.setsize = w.poll.setsize) (h : c.leave v b = .ok v')
    (hd : c.dels = c.regs.map Prod.fst) :
    (c.enter w f api).waiters - w.waiters + (v'.waiters - v.waiters) = 0 ↔
      ∀ fd ∈ c.regs.map Prod.fst, fd < (w.poll.setsize : ℤ) := by
  rw [enter_waiters, leave_waiters h, hd, hv, ← countP_lt_eq, Call.weight]
  omega

theorem leave_events_of_notMem (h : c.leave v b = .ok v') (hm : (fd : ℤ) ∉ c.dels) :
    v'.poll.events fd = v.poll.events fd := by
  rw [leave_eq] at h
  rw [delFileEvents_events_of_notMem h hm]
  split <;> rfl

/-- A call that parks registers only what its caller has named. -/
theorem asks_of_mem_regs {fd : ℤ} (hp : c.parks = true) (h : fd ∈ c.regs.map Prod.fst) :
    c.asks fd = true := by
  cases c with
  | poll fds timeout =>
    obtain ⟨⟨_, m⟩, hr, rfl⟩ := List.mem_map.mp h
    obtain ⟨e, he, heq⟩ := List.mem_map.mp hr
    obtain ⟨rfl, -⟩ := Prod.mk.inj heq
    exact List.any_eq_true.mpr ⟨e, (List.mem_filter.mp he).1, beq_self_eq_true _⟩
  | select nfds readfds writefds exceptfds milliseconds first =>
    rw [select_regs hp] at h
    exact nomatch h
  | connect fd' => exact beq_iff_eq.mpr (List.mem_singleton.mp h)
  | epollWait epfd timeout => exact beq_iff_eq.mpr (List.mem_singleton.mp h)
  | sleep millis => exact nomatch h
  | tryWait timeout => exact nomatch h

/-- The closed form of the soundness of all deletions. -/
theorem deletes_iff_sound (hpos : ∀ fd ∈ c.dels, 0 ≤ fd)
    (hlt : ∀ fd ∈ c.dels, fd < (v.poll.setsize : ℤ)) :
    Deletes v c.delMask (c.dels.map Int.toNat) ↔ Sound c v := by
  rw [deletes_toNat_iff hpos]
  exact forall₂_congr fun fd hfd => forall_prop_of_true (hlt fd hfd)

theorem balanced_iff_fits (hp : c.parks = true) (hv : v.poll.setsize = w.poll.setsize) :
    Balanced c w v f api b ↔ Fits c w v := by
  constructor
  · rintro ⟨v', hl, hdel, hcount, -⟩
    have hpos : ∀ fd ∈ c.dels, 0 ≤ fd := by
      rw [leave_eq] at hl
      exact delFileEvents_ok.mp ⟨v', hl⟩
    have hd := dels_eq_fds hpos
    have hlt := (leave_balanced hv hl hd).mp hcount
    exact ⟨⟨hpos, hlt⟩, (deletes_iff_sound hpos (by rwa [hd, hv])).mp hdel⟩
  · intro hfit
    have hd := dels_eq_fds hfit.nonneg
    obtain ⟨v', hl⟩ : ∃ v', c.leave v b = .ok v' := by
      rw [leave_eq]
      exact delFileEvents_ok.mpr hfit.nonneg
    refine ⟨v', hl, (deletes_iff_sound hfit.nonneg ?_).mpr hfit.sound,
      (leave_balanced hv hl hd).mpr hfit.lt, fun fd ha => ?_⟩
    · rw [hd, hv]
      exact hfit.lt
    · have hnot : (fd : ℤ) ∉ c.regs.map Prod.fst := by
        intro hmem
        rw [asks_of_mem_regs hp hmem] at ha
        cases ha
      refine ⟨?_, leave_events_of_notMem hl (hd ▸ hnot)⟩
      rw [enter_events]
      exact setFileEvents_events_of_notMem hnot

/-- No fiber is parked on a new `EIoWaiter`. -/
structure Initial (s : State F) : Prop where
  waiters : s.waiter.waiters = 0
  parked : s.parked = []

/-- Only calls within the table are made, they delete live records only, and no event reaches a slot
whose record has been deleted. -/
def CallsWithin (s : State F) : Act F → Prop
  | .enter _ c _ => Within c s.waiter.poll.setsize
  | .dispatch timeout batch => ∀ i ∈ s.waiter.poll.processFileEvents timeout batch,
      i.proc = .fileEventProc → (i.clientData.bind s.waiter.heap).isSome = true
  | .leave _ c _ => Sound c s.waiter

/-- The counter is what the parked calls have added. -/
structure Accounted (s : State F) : Prop where
  waiters : s.waiter.waiters = (s.parked.map fun p => p.2.weight).sum
  within : ∀ p ∈ s.parked, Within p.2 s.waiter.poll.setsize

theorem Within.leave_waiters (h : Within c v.poll.setsize) (hl : c.leave v b = .ok v') :
    v'.waiters = v.waiters - c.weight := by
  rw [Calls.leave_waiters hl, dels_eq_fds h.nonneg, countP_lt_eq.mpr h.lt]
  rfl

theorem accounted_step (hs : Accounted s) (h : Guarded CallsWithin Step s a t) : Accounted t := by
  obtain ⟨hg, h⟩ := h
  cases h with
  | enter hf hp =>
    refine ⟨?_, fun p hp => ?_⟩
    · simp only [enter_waiters, hs.waiters, List.map_cons, List.sum_cons]
      omega
    · rw [enter_setsize]
      rcases List.mem_cons.mp hp with rfl | hp
      · exact hg
      · exact hs.within p hp
  | dispatch => exact hs
  | @leave f c b w ps qs hp hl =>
    have hc : Within c s.waiter.poll.setsize :=
      hs.within (f, c) (hp ▸ List.mem_append_right _ List.mem_cons_self)
    refine ⟨?_, fun p hmem => ?_⟩
    · rw [hc.leave_waiters hl, hs.waiters, hp]
      simp only [List.map_append, List.map_cons, List.sum_append, List.sum_cons]
      omega
    · rw [leave_setsize hl]
      refine hs.within p ?_
      rw [hp]
      rcases List.mem_append.mp hmem with hmem | hmem
      · exact List.mem_append_left _ hmem
      · exact List.mem_append_right _ (List.mem_cons_of_mem _ hmem)
  | stray _ _ => exact hs

theorem accounted_run (hs : Initial s) (h : Run (Guarded CallsWithin Step) s as t) :
    Accounted t := by
  refine h.invariant (fun _ _ _ => accounted_step) ⟨?_, ?_⟩
  · rw [hs.waiters, hs.parked]
    rfl
  · rw [hs.parked]
    exact fun p hp => absurd hp List.not_mem_nil

theorem weight_pos (h : c.waits = true) : 0 < c.weight := by
  simp only [Call.waits, Bool.or_eq_true, Bool.not_eq_true', List.isEmpty_eq_false_iff] at h
  unfold Call.weight
  rcases h with h | h
  · have := List.length_pos_iff.mpr h
    omega
  · simp [h]

theorem Accounted.nonneg (hs : Accounted s) : 0 ≤ s.waiter.waiters := by
  rw [hs.waiters]
  exact Int.natCast_nonneg _

theorem Accounted.pos (hs : Accounted s) {p : F × Call} (hp : p ∈ s.parked)
    (hw : p.2.waits = true) : 0 < s.waiter.waiters := by
  have hle := List.le_sum_of_mem (List.mem_map_of_mem (f := fun p => p.2.weight) hp)
  have := weight_pos hw
  rw [hs.waiters]
  omega

/-- Every call that parks is balanced just where it fits; in a run of such calls the counter is
never negative, and positive while a fiber waits for a file event or a timer. -/
theorem waiters_balanced :
    (∀ (c : Call) (w v : EIoWaiter F) (f : F) (api : ℕ → Bool) (b : Bool), c.parks = true →
      v.poll.setsize = w.poll.setsize → (Balanced c w v f api b ↔ Fits c w v)) ∧
    ∀ (s t : State F) (as : List (Act F)), Initial s → Run (Guarded CallsWithin Step) s as t →
      0 ≤ t.waiter.waiters ∧
        ((∃ p ∈ t.parked, p.2.waits = true) → 0 < t.waiter.waiters) := by
  refine ⟨fun c w v f api b hp hv => balanced_iff_fits hp hv, fun s t as hs h => ?_⟩
  have ha := accounted_run hs h
  refine ⟨ha.nonneg, ?_⟩
  rintro ⟨p, hp, hw⟩
  exact ha.pos hp hw

/-- A poll of descriptor 3 in a table of eight. -/
def poll₃ : Call := .poll [⟨3, ⟨true, false⟩⟩] 100

theorem within_poll₃ : Within poll₃ 8 := ⟨by decide, by decide⟩

theorem waiters_balanced_poll :
    Balanced poll₃ (.create 8) (poll₃.enter (.create 8) () fun _ => true) () (fun _ => true) false ∧
    0 < (poll₃.enter (.create 8) () fun _ => true).waiters := by
  have hfits : Fits poll₃ (.create 8 : EIoWaiter Unit)
      (poll₃.enter (.create 8) () fun _ => true) := by
    refine ⟨within_poll₃, fun fd hfd => ?_⟩
    obtain rfl := List.mem_singleton.mp hfd
    exact Or.inr ⟨rfl, rfl⟩
  have hrun : Run (Guarded CallsWithin Step) (⟨.create 8, []⟩ : State Unit)
      [.enter () poll₃ fun _ => true] ⟨poll₃.enter (.create 8) () fun _ => true, [((), poll₃)]⟩ :=
    .step ⟨within_poll₃, .enter List.not_mem_nil rfl⟩ .refl
  exact ⟨(waiters_balanced.1 poll₃ (.create 8) (poll₃.enter (.create 8) () fun _ => true) () _ false
      rfl rfl).mpr hfits,
    (waiters_balanced.2 _ _ _ ⟨rfl, rfl⟩ hrun).2 ⟨((), poll₃), List.mem_cons_self, rfl⟩⟩

/-- An entry that `poll` ignores. -/
def pollIgnored : Call := .poll [⟨3, ⟨true, false⟩⟩, ⟨-1, ⟨true, false⟩⟩] 100

def pollBeyond : Call := .poll [⟨9, ⟨true, false⟩⟩] 100

/-- The ignored entry is deleted all the same; a descriptor beyond the table is counted on the way
in only; and where the kernel refuses a descriptor, what its slot happens to hold is deleted. -/
theorem waiters_unbalanced :
    ¬ Balanced pollIgnored (.create 8) (pollIgnored.enter (.create 8) () fun _ => true) ()
      (fun _ => true) false ∧
    (pollBeyond.leave (pollBeyond.enter (.create 8) () fun _ => true) true).map EIoWaiter.waiters =
      .ok 1 ∧
    ¬ Balanced poll₃ (.create 8) (poll₃.enter (.create 8) () fun _ => false) ()
      (fun _ => false) false := by
  refine ⟨fun h => ?_, rfl, fun h => ?_⟩
  · have hfits := (balanced_iff_fits rfl enter_setsize).mp h
    exact absurd (hfits.nonneg (-1) (by decide)) (by decide)
  · have hfits := (balanced_iff_fits rfl enter_setsize).mp h
    rcases hfits.sound 3 List.mem_cons_self with hnull | ⟨hlive, -⟩
    · exact absurd hnull.2 nofun
    · cases hlive

end CxxFiber.EHooker.Calls
