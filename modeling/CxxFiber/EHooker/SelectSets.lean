import CxxFiber.EHooker.Readiness
import CxxFiber.EHooker.Calls

/-! What `select` hands to the `EIoWaiter`, against the sets that the caller gave: the loop itself,
and the loop on the sets that `select_f` has left. -/
namespace CxxFiber.EHooker.SelectSets

open EcoAe Calls

/-- The directions of the sets that `fd` is in. -/
def directions (readfds writefds : FdSet) (fd : ℕ) : Mask := ⟨readfds.isset fd, writefds.isset fd⟩

/-- One registration for each descriptor of `fds` that is in a set. -/
def asked (readfds writefds : FdSet) (fds : List ℕ) : List (ℕ × Mask) :=
  (fds.filter fun fd => directions readfds writefds fd ≠ .none).map
    fun fd => (fd, directions readfds writefds fd)

/-- The registrations are the ones asked for, and where the kernel takes them a table that had
nothing of these descriptors has their directions. -/
structure Registered (F : Type) (nfds : ℤ) (readfds writefds exceptfds : FdSet)
    (milliseconds : ℤ) (first : SelectF) : Prop where
  handed : (Call.select nfds readfds writefds exceptfds milliseconds first).regs =
    (asked readfds writefds (List.range nfds.toNat)).map fun r => ((r.1 : ℤ), r.2)
  table : ∀ (w : EIoWaiter F) (f : F) (fd : ℕ), fd < w.poll.setsize →
    ((fd : ℤ) < nfds → w.mask fd = .none) →
    (setFileEvents w f (fun _ => true)
      (Call.select nfds readfds writefds exceptfds milliseconds first).regs).mask fd =
      if (fd : ℤ) < nfds then directions readfds writefds fd else w.mask fd

/-- When the loop does what the sets that it finds ask for: no descriptor is in both sets, and after
one that is in a set all are. -/
structure OneRun (nfds : ℕ) (readfds writefds : FdSet) : Prop where
  apart : ∀ fd < nfds, ¬ (readfds.isset fd = true ∧ writefds.isset fd = true)
  gapless : ∀ fd fd', fd < fd' → fd' < nfds → directions readfds writefds fd ≠ .none →
    directions readfds writefds fd' ≠ .none

variable {F : Type} {readfds writefds exceptfds : FdSet} {events : Mask} {fd : ℕ} {fds : List ℕ}
  {nfds milliseconds : ℤ} {first : SelectF}

theorem directions_eq_none : directions readfds writefds fd = .none ↔
    readfds.isset fd = false ∧ writefds.isset fd = false := by
  simp only [directions, Mask.ext_iff, Mask.none]

/-- The tests of one turn: the last set wins, and without a set the last direction stays. -/
def turn (readfds writefds : FdSet) (events : Mask) (fd : ℕ) : Mask :=
  let events := if readfds.isset fd then ⟨true, false⟩ else events
  if writefds.isset fd then ⟨false, true⟩ else events

theorem turn_of_none (h : directions readfds writefds fd = .none) :
    turn readfds writefds events fd = events := by
  obtain ⟨hr, hw⟩ := directions_eq_none.mp h
  simp [turn, hr, hw]

theorem turn_ne_none (h : directions readfds writefds fd ≠ .none) :
    turn readfds writefds events fd ≠ .none := by
  rw [ne_eq, directions_eq_none] at h
  unfold turn
  cases hr : readfds.isset fd <;> cases hw : writefds.isset fd <;> simp_all [Mask.none]

theorem turn_eq_directions (h : directions readfds writefds fd ≠ .none) :
    turn readfds writefds events fd = directions readfds writefds fd ↔
      ¬ (readfds.isset fd = true ∧ writefds.isset fd = true) := by
  rw [ne_eq, directions_eq_none] at h
  unfold turn directions
  cases hr : readfds.isset fd <;> cases hw : writefds.isset fd <;> simp_all

theorem asked_cons : asked readfds writefds (fd :: fds) =
    if directions readfds writefds fd = .none then asked readfds writefds fds
    else (fd, directions readfds writefds fd) :: asked readfds writefds fds := by
  simp only [asked, List.filter_cons]
  split <;> split <;> simp_all

theorem selectRegs_turn : selectRegs readfds writefds events (fd :: fds) =
    if turn readfds writefds events fd = .none
    then selectRegs readfds writefds (turn readfds writefds events fd) fds
    else (fd, turn readfds writefds events fd) ::
      selectRegs readfds writefds (turn readfds writefds events fd) fds := rfl

theorem mem_of_mem_asked {r : ℕ × Mask} (h : r ∈ asked readfds writefds fds) : r.1 ∈ fds := by
  obtain ⟨fd, hfd, rfl⟩ := List.mem_map.mp h
  exact (List.mem_filter.mp hfd).1

/-- The loop, with what `events` has from the turns before. -/
theorem selectRegs_eq_iff (hn : fds.Nodup) :
    selectRegs readfds writefds events fds = asked readfds writefds fds ↔
      (events = .none ∨ ∀ fd ∈ fds, directions readfds writefds fd ≠ .none) ∧
      (∀ fd ∈ fds, ¬ (readfds.isset fd = true ∧ writefds.isset fd = true)) ∧
      fds.Pairwise fun fd fd' => directions readfds writefds fd ≠ .none →
        directions readfds writefds fd' ≠ .none := by
  induction fds generalizing events with
  | nil => simp [selectRegs, asked]
  | cons fd fds ih =>
    obtain ⟨hfd, hn⟩ := List.nodup_cons.mp hn
    rw [selectRegs_turn, asked_cons, List.forall_mem_cons, List.forall_mem_cons,
      List.pairwise_cons]
    by_cases hd : directions readfds writefds fd = .none
    · obtain ⟨hr, hw⟩ := directions_eq_none.mp hd
      rw [turn_of_none hd, if_pos hd]
      by_cases he : events = .none
      · rw [if_pos he, ih hn]
        simp [he, hd, hr]
      · -- the direction of an earlier descriptor is registered for this one
        rw [if_neg he]
        refine iff_of_false (fun h => ?_) fun h => ?_
        · have hmem : (fd, events) ∈ asked readfds writefds fds := h ▸ List.mem_cons_self
          exact hfd (mem_of_mem_asked hmem)
        · exact (h.1.resolve_left he).1 hd
    · rw [if_neg (turn_ne_none hd), if_neg hd, List.cons.injEq, ih hn, Prod.mk.injEq]
      rw [turn_eq_directions hd]
      have hne : turn readfds writefds events fd ≠ .none := turn_ne_none hd
      constructor
      · rintro ⟨⟨-, hb⟩, hall, hapart, hp⟩
        have hrest := hall.resolve_left hne
        exact ⟨Or.inr ⟨hd, hrest⟩, ⟨hb, hapart⟩, fun fd' h' _ => hrest fd' h', hp⟩
      · rintro ⟨-, ⟨hb, hapart⟩, hfrom, hp⟩
        exact ⟨⟨rfl, hb⟩, Or.inr fun fd' h' => hfrom fd' h' hd, hapart, hp⟩

/-- The loop registers what is asked for in the sets that it finds exactly when each descriptor is
in one set at most, and the ones in a set are the last ones below `nfds`. -/
theorem loop_iff {nfds : ℕ} : selectRegs readfds writefds .none (List.range nfds) =
    asked readfds writefds (List.range nfds) ↔ OneRun nfds readfds writefds := by
  rw [selectRegs_eq_iff List.nodup_range]
  constructor
  · rintro ⟨-, hapart, hp⟩
    constructor
    case apart => exact fun fd hfd => hapart fd (List.mem_range.mpr hfd)
    case gapless =>
      intro fd fd' hlt hfd'
      have hp := List.pairwise_iff_getElem.mp hp fd fd' (by simp; omega) (by simp; omega) hlt
      simpa using hp
  · rintro ⟨hapart, hgap⟩
    refine ⟨Or.inl rfl, fun fd hfd => hapart fd (List.mem_range.mp hfd), ?_⟩
    have hp : (List.range nfds).Pairwise (· < ·) := List.pairwise_lt_range
    exact hp.imp_of_mem fun {fd fd'} _ hfd' hlt => hgap fd fd' hlt (List.mem_range.mp hfd')

theorem asked_eq_nil : asked readfds writefds fds = [] ↔
    ∀ fd ∈ fds, directions readfds writefds fd = .none := by
  simp [asked, List.filter_eq_nil_iff]

/-- Where `select` reaches its loop, what the caller asked for is registered exactly when that is
nothing: `select_f` has emptied the sets. -/
theorem registered_iff (h : first.ret = 0) :
    Registered F nfds readfds writefds exceptfds milliseconds first ↔
      ∀ fd : ℕ, (fd : ℤ) < nfds → directions readfds writefds fd = .none := by
  have hbelow : ∀ fd : ℕ, fd ∈ List.range nfds.toNat ↔ (fd : ℤ) < nfds := by
    intro fd
    rw [List.mem_range]
    omega
  constructor
  · intro hr
    have hnil := hr.handed
    rw [select_regs_of_ret h, eq_comm, List.map_eq_nil_iff, asked_eq_nil] at hnil
    exact fun fd hfd => hnil fd ((hbelow fd).mpr hfd)
  · intro hnone
    have hnil : asked readfds writefds (List.range nfds.toNat) = [] :=
      asked_eq_nil.mpr fun fd hfd => hnone fd ((hbelow fd).mp hfd)
    refine ⟨by rw [select_regs_of_ret h, hnil]; rfl, fun w f fd hfd hfree => ?_⟩
    rw [select_regs_of_ret h]
    split
    · next hlt => exact (hfree hlt).trans (hnone fd hlt).symm
    · rfl

/-- What `select_f` does when nothing is ready. -/
def nothingReady : SelectF :=
  ⟨0, fun _ => false, fun _ => false, fun _ => false, fun _ _ => ⟨rfl, rfl, rfl⟩⟩

/-- A `select` that waits for its timeout with empty sets. -/
theorem registered_empty : Registered Unit 5 (some fun _ => false) none none 1000 nothingReady :=
  (registered_iff rfl).mpr fun _ _ => rfl

/-- Descriptor 3 is asked for and not registered. If the sets were as the caller gave them, the loop
would register 4 as well, which is in no set, and 6 for one direction of two. -/
theorem nothing_registered :
    (Call.select 4 (some fun fd => fd == 3) none none 1000 nothingReady).parks = true ∧
    (Call.select 4 (some fun fd => fd == 3) none none 1000 nothingReady).regs = [] ∧
    ¬ Registered Unit 4 (some fun fd => fd == 3) none none 1000 nothingReady ∧
    selectRegs (some fun fd => fd == 3) none .none (List.range 5) =
      [(3, ⟨true, false⟩), (4, ⟨true, false⟩)] ∧
    selectRegs (some fun fd => fd == 6) (some fun fd => fd == 6) .none (List.range 7) =
      [(6, ⟨false, true⟩)] := by
  refine ⟨rfl, select_regs_of_ret rfl, fun h => ?_, by decide, by decide⟩
  exact absurd ((registered_iff rfl).mp h 3 (by decide)) (by decide)

end CxxFiber.EHooker.SelectSets
