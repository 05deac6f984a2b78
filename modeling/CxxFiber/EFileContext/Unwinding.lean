import CxxFiber.EFileContext.Manager
import CxxFiber.Library.Runs

/-! What a context whose constructor throws leaves behind. -/
namespace CxxFiber.Manager

open Descriptors (Table)
open Transition

section Operations

variable {X : Type} [DecidableEq X] [AlignUp] {s t : State X} {k : Table X Flags} {fd : ℤ}
  {a : Answers} {act : Act X} {acts : List (Act X)} {maxfd : ℕ}

/-- `get` has returned or thrown, its lock is free again, and if it has thrown the table and the
descriptor's flag are as before. -/
structure Unwound (s : State X) (fd : ℤ) (a : Answers) : Prop where
  inside : (s.get fd a).1 ≠ .undefined
  free : (s.get fd a).2.pool (lockFor fd) = false
  table : (s.get fd a).1 = .thrown → (s.get fd a).2.hookedFiles = s.hookedFiles
  nonblock : (s.get fd a).1 = .thrown → ((s.get fd a).2.kernel.read fd.toNat).map Flags.nonblock =
    (s.kernel.read fd.toNat).map Flags.nonblock

/-- An operation leaves no trace of a failure, and no lock on which a later one would wait. -/
structure NoTrace (s : State X) (act : Act X) (t : State X) : Prop where
  get : ∀ fd a, act = .get fd a → Unwound s fd a
  remove : ∀ fd, act = .remove fd → s.remove fd ≠ none
  free : ∀ i, t.pool i = false

/-- The descriptor has a place, and the constructor, if it is called, finds it open and, for a
socket, the receive timeout. -/
def Succeeds (s : State X) : Act X → Prop
  | .get fd a => ∃ e, s.element fd = some e ∧ (e = none → Builds s.kernel fd.toNat a)
  | .remove fd => s.element fd ≠ none
  | _ => True

theorem succeeds_of_unwound (h : Unwound s fd a) : Succeeds s (.get fd a) := by
  cases he : s.element fd with
  | none => exact (h.inside (get_undefined he)).elim
  | some e =>
    refine ⟨e, he, fun hnone => ?_⟩
    subst hnone
    by_contra hn
    exact nomatch (get_thrown he hn).2.1.symm.trans h.free

theorem unwound_of_returned {c : Context} (h : s.pool (lockFor fd) = false)
    (hc : (s.get fd a).1 = .returned c) : Unwound s fd a where
  inside := by rw [hc]; exact nofun
  free := by rw [get_pool h hc]; exact h
  table ht := nomatch hc.symm.trans ht
  nonblock ht := nomatch hc.symm.trans ht

theorem noTrace_iff (hs : ∀ i, s.pool i = false) (hst : Step s act t) :
    NoTrace s act t ↔ Succeeds s act := by
  cases hst with
  | @get fd a hl =>
    constructor
    · exact fun h => succeeds_of_unwound (h.get fd a rfl)
    · intro h
      obtain ⟨e, he, hb⟩ := h
      obtain ⟨c, hc⟩ := get_returned he hb
      refine ⟨fun fd' a' he => ?_, nofun, fun i => ?_⟩
      · obtain ⟨rfl, rfl⟩ := Act.get.inj he
        exact unwound_of_returned hl hc
      · rw [get_pool hl hc]
        exact hs i
  | @remove fd t hl ht =>
    rw [remove_eq, Option.map_eq_some_iff] at ht
    obtain ⟨e, he, rfl⟩ := ht
    refine iff_of_true ⟨nofun, fun fd' he' => ?_, fun i => ?_⟩ (by simp [Succeeds, he])
    · obtain rfl := Act.remove.inj he'
      simp [remove_eq, he]
    · exact congrFun (setLock_pool hl) i |>.trans (hs i)
  | @stray fd hl ht =>
    rw [remove_eq, Option.map_eq_none_iff] at ht
    exact iff_of_false (fun h => h.remove fd rfl (by simp [remove_eq, ht])) (by simp [Succeeds, ht])
  | clear => exact iff_of_true ⟨nofun, nofun, hs⟩ trivial
  | world => exact iff_of_true ⟨nofun, nofun, hs⟩ trivial

/-- Failures leave no trace in a run exactly when no constructor throws in it. -/
theorem no_trace_iff : Run (Guarded Succeeds Step) (State.create k maxfd) acts s ↔
    Run (Showing NoTrace Step) (State.create k maxfd) acts s :=
  Run.guarded_iff_showing (I := fun s => ∀ i, s.pool i = false) (fun _ _ _ _ _ h => h.free)
    (fun _ _ _ hs hst => noTrace_iff hs hst) fun _ => rfl

end Operations

/-- `connect` on descriptor 5, which is not open: the lock stays taken, and a later call for 46
waits for it. A socket whose receive timeout cannot be read stays in non-blocking mode. -/
theorem lock_left_taken :
    (∃ s : State Unit, Run Step (State.create ⟨fun _ => none, fun _ => ⟨false, 0⟩⟩ 1024)
      [.get 5 ⟨true, false, none, none⟩] s ∧ s.pool 5 = true ∧ (∀ a t, ¬ Step s (.get 46 a) t) ∧
      ¬ NoTrace (State.create ⟨fun _ => none, fun _ => ⟨false, 0⟩⟩ 1024)
        (.get 5 ⟨true, false, none, none⟩) s) ∧
    ∃ s : State Unit, Run Step (State.create ⟨fun _ => some (), fun _ => ⟨false, 0⟩⟩ 1024)
      [.get 7 ⟨true, true, none, none⟩] s ∧ s.pool 7 = true ∧
      (s.kernel.read 7).map Flags.nonblock = some true := by
  constructor
  · have hempty : (State.create (⟨fun _ => none, fun _ => ⟨false, 0⟩⟩ : Table Unit Flags)
        1024).element 5 = some none := element_create ⟨by decide, by decide, by decide⟩
    have hthrown := get_thrown (a := ⟨true, false, none, none⟩) hempty
      (by simp [Builds, State.create, Table.read])
    refine ⟨_, .step (.get rfl) .refl, hthrown.2.1, fun a t hst => ?_, fun h => ?_⟩
    · cases hst with
      | get hl => cases hthrown.2.1.symm.trans hl
    · cases hthrown.2.1.symm.trans (h.free 5)
  · have hempty : (State.create (⟨fun _ => some (), fun _ => ⟨false, 0⟩⟩ : Table Unit Flags)
        1024).element 7 = some none := element_create ⟨by decide, by decide, by decide⟩
    have hthrown := get_thrown (a := ⟨true, true, none, none⟩) hempty (by simp [Builds])
    refine ⟨_, .step (.get rfl) .refl, hthrown.2.1, ?_⟩
    rw [hthrown.2.2]
    rfl

end CxxFiber.Manager
