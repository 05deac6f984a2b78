import CxxFiber.EHooker.Hooks
import CxxFiber.Library.Counting

/-! What `poll` and `select` report when a batch of events has resumed the fiber. -/
namespace CxxFiber.EcoAe

inductive Direction
  | read
  | write
  deriving DecidableEq, Repr

def Mask.has (m : Mask) : Direction → Bool
  | .read => m.readable
  | .write => m.writable

@[simp] theorem Mask.has_union {m n : Mask} {d : Direction} :
    (m.union n).has d = (m.has d || n.has d) := by
  cases d <;> rfl

theorem Mask.ne_none_iff_has {m : Mask} : m ≠ .none ↔ ∃ d, m.has d = true := by
  rw [Mask.ne_none]
  constructor
  · rintro (h | h)
    · exact ⟨.read, h⟩
    · exact ⟨.write, h⟩
  · rintro ⟨d | d, h⟩
    · exact Or.inl h
    · exact Or.inr h

end CxxFiber.EcoAe

namespace CxxFiber.EHooker

open EcoAe

variable {F : Type}

namespace HookCall

def polls : HookCall → Bool
  | .poll .. => true
  | .select .. => true
  | _ => false

/-- `poll` on distinct descriptors, or `select`. -/
def Distinct : HookCall → Prop
  | .poll fds _ => (fds.map (·.fd)).Nodup
  | .select .. => True
  | _ => False

/-- The directions that the call can report: `select` needs the set. -/
def given : HookCall → Direction → Bool
  | .select _ readfds writefds _ _ _, d => match d with
    | .read => readfds.isSome
    | .write => writefds.isSome
  | _, _ => true

/-- The pairs that a fiber resumed with this flag and this table reports. The first, immediate
`poll` has found nothing, so every `revents` is zero. -/
def reports (c : HookCall) (w : EIoWaiter F) (isWaitTimeout : Bool) : ℕ → Direction → Prop :=
  match c with
  | .poll fds _ => fun fd d =>
    ∃ e ∈ (pollResume w isWaitTimeout (fds.map fun e => { e with revents := ⟨false, false⟩ })).1,
      e.fd = fd ∧ (pollEvent2EEvent e.revents).has d = true
  | .select _ readfds writefds _ _ _ => fun fd d =>
    let r := (selectResume w isWaitTimeout readfds writefds c.fds).1
    match d with
    | .read => fd ∈ r.1
    | .write => fd ∈ r.2
  | _ => fun _ _ => False

/-- The value that the fiber returns then. -/
def returns (c : HookCall) (w : EIoWaiter F) (isWaitTimeout : Bool) : ℕ :=
  match c with
  | .poll fds _ =>
    (pollResume w isWaitTimeout (fds.map fun e => { e with revents := ⟨false, false⟩ })).2
  | .select _ readfds writefds _ _ _ => (selectResume w isWaitTimeout readfds writefds c.fds).2
  | _ => 0

/-- The flag of a parked fiber until its own timer fires: `setupTimer` has cleared it. -/
def parkedFlag (c : HookCall) (flag : Bool) : Bool := !c.timer && flag

end HookCall

/-- Some entry of the batch has fired in this direction. -/
def Fired (batch : List (ℕ × EpollEvents)) (fd : ℕ) (d : Direction) : Prop :=
  ∃ e, (fd, e) ∈ batch ∧ (firedMask e).has d = true

/-- Dispatching the batch calls back a slot that names `f`. -/
def Resumed (w : EIoWaiter F) (timeout : ℤ) (batch : List (ℕ × EpollEvents)) (f : F) : Prop :=
  ∃ i ∈ w.poll.processFileEvents timeout batch, i.clientData.bind w.heap = some f

/-- All that was asked for and has fired is among what the call hands to `setFileEvent`. -/
def HookCall.Complete (c : HookCall) (batch : List (ℕ × EpollEvents)) : Prop :=
  ∀ fd d, (c.asks fd).has d = true → Fired batch fd d → fd ∈ c.fds

/-- The call reports just the requested pairs that fired, and counts their descriptors. -/
def Real (w : EIoWaiter F) (f : F) (api : ℕ → Bool) (flag : Bool) (c : HookCall)
    (batch : List (ℕ × EpollEvents)) : Prop :=
  let table := register w f api c.regs
  (∀ fd d, c.reports table (c.parkedFlag flag) fd d ↔
    (c.asks fd).has d = true ∧ Fired batch fd d) ∧
  c.returns table (c.parkedFlag flag) =
    Set.ncard {fd | ∃ d, c.reports table (c.parkedFlag flag) fd d}

/-- Whether the registration of `fd` succeeds when `epoll_ctl` answers `ok`. -/
def Registers (w : EIoWaiter F) (ok : Bool) (fd : ℕ) : Prop := fd < w.poll.setsize ∧ ok = true

/-- What the slot of `fd` holds while the fiber is parked, when `m` was to be registered. -/
def Holds (w : EIoWaiter F) (ok : Bool) (fd : ℕ) (m : Mask) (d : Direction) : Prop :=
  (w.mask fd).has d = true ∨ Registers w ok fd ∧ m.has d = true

/-- When a registration is read back as what has fired of it: nothing is registered or already
held in a reported direction that was not asked for or has not fired, nothing that was asked
for and has fired is missing, and the slot is empty in the directions that are not reported
unless it holds a reported one. -/
structure Exact (w : EIoWaiter F) (ok : Bool) (c : HookCall)
    (batch : List (ℕ × EpollEvents)) (fd : ℕ) (m : Mask) : Prop where
  held : ∀ d, c.given d = true → (w.mask fd).has d = true →
    (c.asks fd).has d = true ∧ Fired batch fd d
  registered : Registers w ok fd → ∀ d, c.given d = true → m.has d = true →
    (c.asks fd).has d = true ∧ Fired batch fd d
  found : ∀ d, (c.asks fd).has d = true → Fired batch fd d → Holds w ok fd m d
  counted : ∀ d, Holds w ok fd m d → ∃ d', c.given d' = true ∧ Holds w ok fd m d'

variable {w : EIoWaiter F} {f : F} {api : ℕ → Bool} {flag : Bool} {c : HookCall} {fd : ℕ} {m : Mask}
  {d : Direction} {batch : List (ℕ × EpollEvents)} {regs : List (ℕ × Mask)}
  {readfds writefds : FdSet}

theorem register_mask_of_notMem (h : fd ∉ regs.map Prod.fst) :
    (register w f api regs).mask fd = w.mask fd := by
  induction regs generalizing w api with
  | nil => rfl
  | cons r regs ih =>
    obtain ⟨hr, hregs⟩ := not_or.mp (fun h' => h (by simpa using h'))
    rw [register, ih (by simpa using hregs), EIoWaiter.setFileEvent_mask,
      if_neg (fun h' => hr h'.1)]

theorem register_mask {k : ℕ} (hn : (regs.map Prod.fst).Nodup) (h : regs[k]? = some (fd, m)) :
    ((register w f api regs).mask fd).has d = true ↔ Holds w (api k) fd m d := by
  induction regs generalizing w api k with
  | nil => exact nomatch h
  | cons r regs ih =>
    obtain ⟨fd', m'⟩ := r
    obtain ⟨hfd, hn⟩ := List.nodup_cons.mp hn
    cases k with
    | zero =>
      obtain ⟨rfl, rfl⟩ := Prod.mk.inj (Option.some.inj h)
      rw [register, register_mask_of_notMem hfd, EIoWaiter.setFileEvent_mask]
      by_cases hr : fd' < w.poll.setsize ∧ api 0 = true
      · simp [Holds, Registers, hr]
      · simp [Holds, Registers, hr]
    | succ k =>
      have hin : (fd, m) ∈ regs := List.mem_of_getElem? h
      have hne : fd ≠ fd' := by
        rintro rfl
        exact hfd (by simpa using List.mem_map_of_mem (f := Prod.fst) hin)
      rw [register, ih hn h, Holds, Holds, EIoWaiter.setFileEvent_mask, if_neg (fun h' => hne h'.1)]
      simp [Registers]

theorem register_mask_mono (h : (w.mask fd).has d = true) :
    ((register w f api regs).mask fd).has d = true := by
  induction regs generalizing w api with
  | nil => exact h
  | cons r regs ih =>
    refine ih ?_
    rw [EIoWaiter.setFileEvent_mask]
    split
    · next hr =>
      rw [hr.1] at h
      simp [h]
    · exact h

/-- One turn of the loop of `select`. -/
theorem selectRegs_cons (readfds writefds : FdSet) (events : Mask) (fd : ℕ) (fds : List ℕ) :
    ∃ events', selectRegs readfds writefds events (fd :: fds) =
      if events' = .none then selectRegs readfds writefds events' fds
      else (fd, events') :: selectRegs readfds writefds events' fds := ⟨_, rfl⟩

theorem selectRegs_fds (events : Mask) (fds : List ℕ) :
    ((selectRegs readfds writefds events fds).map Prod.fst).Sublist fds := by
  induction fds generalizing events with
  | nil => exact List.Sublist.slnil
  | cons fd fds ih =>
    obtain ⟨events', heq⟩ := selectRegs_cons readfds writefds events fd fds
    rw [heq]
    split
    · exact (ih _).cons fd
    · exact (ih _).cons_cons fd

theorem pollResume_snd {fds : List PollFd} :
    (pollResume w false fds).2 = (readBack w (fds.map (·.fd))).1.countP (· ≠ .none) := by
  have hlen : (readBack w (fds.map (·.fd))).1.length ≤ fds.length := by simp
  simp only [pollResume, Bool.false_eq_true, if_false]
  rw [← List.map_uncurry_zip_eq_zipWith, List.countP_map]
  conv_rhs => rw [← List.map_snd_zip hlen, List.countP_map]
  refine List.countP_congr fun x _ => ?_
  simp [Function.uncurry, eEvent2PollEvent, Mask.ext_iff, Mask.none]

theorem selectResume_snd {pfds : List ℕ} : (selectResume w false readfds writefds pfds).2 =
    (readBack w pfds).1.countP (· ≠ .none) := by
  have hlen : (readBack w pfds).1.length ≤ pfds.length := by simp
  conv_rhs => rw [← List.map_snd_zip hlen, List.countP_map]
  rfl

/-- On distinct descriptors, `poll` reports what the slots held. -/
theorem pollResume_of_nodup {fds : List PollFd} (hn : (fds.map (·.fd)).Nodup) :
    pollResume w false fds =
      (fds.map fun e => { e with revents := eEvent2PollEvent (w.mask e.fd) },
        fds.countP fun e => w.mask e.fd ≠ .none) := by
  have hz : fds.zipWith (fun e m => { e with revents := eEvent2PollEvent m })
      (readBack w (fds.map (·.fd))).1 =
      fds.map fun e => { e with revents := eEvent2PollEvent (w.mask e.fd) } := by
    rw [readBack_fst hn, List.map_map, List.zipWith_map_right, List.zipWith_self]
    rfl
  refine Prod.ext hz ?_
  rw [pollResume_snd, readBack_fst hn, List.map_map, List.countP_map]
  rfl

theorem selectResume_of_nodup {pfds : List ℕ} (hn : pfds.Nodup) :
    selectResume w false readfds writefds pfds =
      ((pfds.filter fun fd => readfds.isSome && (w.mask fd).readable,
        pfds.filter fun fd => writefds.isSome && (w.mask fd).writable),
        pfds.countP fun fd => w.mask fd ≠ .none) := by
  have hz : pfds.zip (readBack w pfds).1 = pfds.map fun fd => (fd, w.mask fd) := by
    rw [readBack_fst hn, ← List.map_prod_left_eq_zip]
  simp only [selectResume, hz, List.filter_map, List.map_map, List.countP_map, Function.comp_def,
    List.map_id', Bool.false_eq_true, if_false]

namespace HookCall

theorem Distinct.nodup (h : c.Distinct) : c.fds.Nodup := by
  cases c with
  | poll fds timeout => simpa [HookCall.fds, regs, Distinct, Function.comp_def] using h
  | select nfds readfds writefds exceptfds ms first =>
    exact (selectRegs_fds _ _).nodup List.nodup_range
  | connect fd => exact h.elim
  | epollWait epfd timeout => exact h.elim

/-- `poll` hands over every entry. -/
theorem complete_poll {fds : List PollFd} {timeout : ℤ} : (poll fds timeout).Complete batch := by
  intro fd d h _
  simp only [asks, HookCall.fds, regs] at h ⊢
  induction fds with
  | nil => cases d <;> exact nomatch h
  | cons e fds ih =>
    by_cases he : e.fd = fd
    · simp [he]
    · rw [List.filter_cons_of_neg (by simpa using he)] at h
      exact List.mem_cons_of_mem _ (ih h)

/-- A `select` that parks has handed over nothing. -/
theorem complete_select {nfds : ℕ} {exceptfds : FdSet} {ms : ℤ} {first : SelectF}
    (h : (select nfds readfds writefds exceptfds ms first).parks = true) :
    (select nfds readfds writefds exceptfds ms first).Complete batch ↔
      ∀ fd d, ((select nfds readfds writefds exceptfds ms first).asks fd).has d = true →
        ¬ Fired batch fd d := by
  have hnil : (select nfds readfds writefds exceptfds ms first).fds = [] := by
    rw [HookCall.fds, select_regs h]
    rfl
  unfold Complete
  rw [hnil]
  simp

theorem given_of_asks (h : (c.asks fd).has d = true) : c.given d = true := by
  cases c with
  | select nfds readfds writefds exceptfds ms first =>
    simp only [asks] at h
    split at h
    · cases d with
      | read => cases readfds <;> first | rfl | exact nomatch h
      | write => cases writefds <;> first | rfl | exact nomatch h
    · cases d <;> exact nomatch h
  | poll fds timeout => rfl
  | connect fd => rfl
  | epollWait epfd timeout => rfl

theorem reports_flag : ¬ c.reports w true fd d := by
  cases c with
  | poll fds timeout =>
    rintro ⟨e, he, -, hd⟩
    obtain ⟨e', -, rfl⟩ := List.mem_map.mp he
    cases d <;> exact nomatch hd
  | select nfds readfds writefds exceptfds ms first => cases d <;> exact nofun
  | connect fd => exact id
  | epollWait epfd timeout => exact id

theorem returns_flag : c.returns w true = 0 := by
  cases c <;> rfl

/-- A registered slot is counted. -/
theorem returns_ne_zero (hp : c.polls = true) (hfd : fd ∈ c.fds) (hw : w.mask fd ≠ .none) :
    c.returns w false ≠ 0 := by
  obtain ⟨m, hm, hne⟩ := readBack_ne_none hfd hw
  have hpos : 0 < (readBack w c.fds).1.countP (· ≠ .none) :=
    List.countP_pos_iff.mpr ⟨m, hm, by simpa using hne⟩
  cases c with
  | poll fds timeout =>
    have hfds : (fds.map fun e => { e with revents := ⟨false, false⟩ }).map (·.fd) =
        (poll fds timeout).fds := by
      simp [HookCall.fds, regs]
    rw [returns, pollResume_snd, hfds]
    omega
  | select nfds readfds writefds exceptfds ms first =>
    rw [returns, selectResume_snd]
    omega
  | connect fd => exact nomatch hp
  | epollWait epfd timeout => exact nomatch hp

/-- What is read back is what the slots held, for each direction that can be reported. -/
theorem reports_iff (hc : c.Distinct) : c.reports w false fd d ↔
    fd ∈ c.fds ∧ c.given d = true ∧ (w.mask fd).has d = true := by
  have hn := hc.nodup
  cases c with
  | poll fds timeout =>
    have hd : (fds.map (·.fd)).Nodup := hc
    rw [reports, pollResume_of_nodup (by simpa [Function.comp_def] using hd)]
    simp only [HookCall.fds, regs, given, List.map_map, List.mem_map, Function.comp_apply,
      true_and, exists_exists_and_eq_and]
    constructor
    · rintro ⟨e, he, rfl, hd⟩
      exact ⟨⟨e, he, rfl⟩, hd⟩
    · rintro ⟨⟨e, he, rfl⟩, hd⟩
      exact ⟨e, he, rfl, hd⟩
  | select nfds readfds writefds exceptfds ms first =>
    rw [reports, selectResume_of_nodup hn]
    cases d with
    | read => simp [given, Mask.has]
    | write => simp [given, Mask.has]
  | connect fd => exact hc.elim
  | epollWait epfd timeout => exact hc.elim

theorem returns_eq (hc : c.Distinct) :
    c.returns w false = Set.ncard {fd | fd ∈ c.fds ∧ w.mask fd ≠ .none} := by
  have hn := hc.nodup
  cases c with
  | poll fds timeout =>
    have hd : (fds.map (·.fd)).Nodup := hc
    rw [returns, pollResume_of_nodup (by simpa [Function.comp_def] using hd),
      Counting.ncard_setOf_mem hn]
    simp [HookCall.fds, regs, List.countP_map, Function.comp_def]
  | select nfds readfds writefds exceptfds ms first =>
    rw [returns, selectResume_of_nodup hn, Counting.ncard_setOf_mem hn]
  | connect fd => exact hc.elim
  | epollWait epfd timeout => exact hc.elim

end HookCall

open HookCall in
/-- The count is right when every slot that is found in use reports a direction. -/
theorem returns_eq_ncard (hc : c.Distinct) :
    c.returns w false = Set.ncard {fd | ∃ d, c.reports w false fd d} ↔
      ∀ fd ∈ c.fds, w.mask fd ≠ .none → ∃ d, c.given d = true ∧ (w.mask fd).has d = true := by
  have hsub : {fd | ∃ d, c.reports w false fd d} ⊆ {fd | fd ∈ c.fds ∧ w.mask fd ≠ .none} := by
    rintro fd ⟨d, hr⟩
    obtain ⟨hfd, -, hd⟩ := (reports_iff hc).mp hr
    exact ⟨hfd, Mask.ne_none_iff_has.mpr ⟨d, hd⟩⟩
  have hfin : {fd | fd ∈ c.fds ∧ w.mask fd ≠ .none}.Finite :=
    c.fds.finite_toSet.subset fun fd h => h.1
  rw [returns_eq hc]
  constructor
  · intro h fd hfd hm
    have heq := Set.eq_of_subset_of_ncard_le hsub (Nat.le_of_eq h) hfin
    have hmem : fd ∈ {fd | ∃ d, c.reports w false fd d} := by
      rw [heq]
      exact ⟨hfd, hm⟩
    obtain ⟨d, hr⟩ := hmem
    exact ⟨d, ((reports_iff hc).mp hr).2⟩
  · intro h
    refine congrArg Set.ncard (Set.Subset.antisymm (fun fd hfd => ?_) hsub)
    obtain ⟨d, hd⟩ := h fd hfd.1 hfd.2
    exact ⟨d, (reports_iff hc).mpr ⟨hfd.1, hd⟩⟩

/-- The flag was left set and no timer is armed: nothing is reported. -/
theorem real_of_flag (hp : c.parkedFlag flag = true) : Real w f api flag c batch ↔
    ∀ fd d, (c.asks fd).has d = true → ¬ Fired batch fd d := by
  simp [Real, hp, HookCall.reports_flag, HookCall.returns_flag]

theorem real_of_table (hc : c.Distinct) (hp : c.parkedFlag flag = false) :
    Real w f api flag c batch ↔
      (∀ k fd m, c.regs[k]? = some (fd, m) → Exact w (api k) c batch fd m) ∧
        c.Complete batch := by
  simp only [Real, hp]
  rw [returns_eq_ncard hc]
  simp only [HookCall.reports_iff hc]
  have hmask : ∀ k fd m, c.regs[k]? = some (fd, m) → ∀ d,
      (((register w f api c.regs).mask fd).has d = true ↔ Holds w (api k) fd m d) :=
    fun k fd m hm d => register_mask hc.nodup hm
  constructor
  · rintro ⟨hpairs, hcount⟩
    refine ⟨fun k fd m hm => ?_, fun fd d ha hf => ((hpairs fd d).mpr ⟨ha, hf⟩).1⟩
    have hfd : fd ∈ c.fds := HookCall.mem_fds.mpr ⟨k, m, hm⟩
    have hpair : ∀ d, c.given d = true ∧ Holds w (api k) fd m d ↔
        (c.asks fd).has d = true ∧ Fired batch fd d := by
      intro d
      rw [← hpairs, hmask k fd m hm]
      exact (and_iff_right hfd).symm
    refine ⟨fun d hg hw => (hpair d).mp ⟨hg, Or.inl hw⟩,
      fun hr d hg hd => (hpair d).mp ⟨hg, Or.inr ⟨hr, hd⟩⟩,
      fun d ha hf => ((hpair d).mpr ⟨ha, hf⟩).2, fun d hd => ?_⟩
    obtain ⟨d', hg, hd'⟩ := hcount fd hfd
      (Mask.ne_none_iff_has.mpr ⟨d, (hmask k fd m hm d).mpr hd⟩)
    exact ⟨d', hg, (hmask k fd m hm d').mp hd'⟩
  · rintro ⟨h, hall⟩
    constructor
    · intro fd d
      constructor
      · rintro ⟨hfd, hg, hd⟩
        obtain ⟨k, m, hm⟩ := HookCall.mem_fds.mp hfd
        rcases (hmask k fd m hm d).mp hd with hw | ⟨hr, hd⟩
        · exact (h k fd m hm).held d hg hw
        · exact (h k fd m hm).registered hr d hg hd
      · rintro ⟨ha, hf⟩
        have hfd := hall fd d ha hf
        obtain ⟨k, m, hm⟩ := HookCall.mem_fds.mp hfd
        have hd := (hmask k fd m hm d).mpr ((h k fd m hm).found d ha hf)
        exact ⟨hfd, HookCall.given_of_asks ha, hd⟩
    · intro fd hfd hw
      obtain ⟨k, m, hm⟩ := HookCall.mem_fds.mp hfd
      obtain ⟨d, hd⟩ := Mask.ne_none_iff_has.mp hw
      obtain ⟨d', hg, hd'⟩ := (h k fd m hm).counted d ((hmask k fd m hm d).mp hd)
      exact ⟨d', hg, (hmask k fd m hm d').mpr hd'⟩

end CxxFiber.EHooker
