import CxxFiber.EFileContext.Slots
import CxxFiber.Library.Grid
import CxxFiber.Library.MachineInt

/-! `EFileContextManager` with its vectors, its pool of locks and all calls of the constructor of a
context. -/
namespace CxxFiber.Manager

open Descriptors (Table)
open EFileContextManager AlignUp MachineInt

structure Timeval where
  tv_sec : ℤ
  tv_usec : ℤ
  deriving DecidableEq, Repr

/-- Stored in an `int`. -/
def Timeval.toMillis (tv : Timeval) : ℤ := narrow 32 (tv.tv_sec * 1000 + tv.tv_usec.tdiv 1000)

/-- All fields of a context. `number` is history: how many were built before it. -/
structure Context extends EFileContext where
  sysNonBlocked : Bool
  recvTimeout : ℤ
  sendTimeout : ℤ
  number : ℕ
  deriving DecidableEq, Repr

/-- What the calls of the constructor after `F_GETFL` return: whether `F_SETFL` succeeds, what
`isSocketFile` finds, and the two calls of `getsockopt`. -/
structure Answers where
  setfl : Bool
  isSocketFile : Bool
  rcvtimeo : Option Timeval
  sndtimeo : Option Timeval
  deriving DecidableEq, Repr

variable {X : Type} [DecidableEq X]

/-- The constructor; none where it throws `EFileNotFoundException`. The result of the second
`getsockopt` is not looked at: `tv` is then what the first one has left. -/
def construct (k : Table X Flags) (number fd : ℕ) (a : Answers) : Option Context × Table X Flags :=
  match k.read fd with
  | none => (none, k)
  | some flags =>
    let k := if !flags.nonblock && a.setfl then k.write fd { flags with nonblock := true } else k
    let c : Context := ⟨⟨fd, flags.nonblock⟩, !flags.nonblock, 0, 0, number⟩
    if a.isSocketFile then
      match a.rcvtimeo with
      | none => (none, k)
      | some tv =>
        let sent := a.sndtimeo.getD tv
        (some { c with recvTimeout := tv.toMillis, sendTimeout := sent.toMillis }, k)
    else (some c, k)

def POLLSIZE : ℕ := 41

/-- The lock that `LOCKFOR` picks: the descriptor is made a pointer and read as an `es_size_t`. -/
def lockFor (fd : ℤ) : ℕ := (fd % 2 ^ 64).toNat % POLLSIZE

/-- `pool i`: the lock is taken. `built` is history: the number of contexts built. -/
structure State (X : Type) where
  kernel : Table X Flags
  hookedFiles : List (List (Option Context))
  pool : ℕ → Bool
  built : ℕ

/-- What `get` comes to; `undefined` is an access outside of the vectors. -/
inductive Result
  | returned (c : Context)
  | thrown
  | undefined
  deriving DecidableEq, Repr

namespace State

def setLock (s : State X) (fd : ℤ) (taken : Bool) : State X :=
  { s with pool := Function.update s.pool (lockFor fd) taken }

variable [AlignUp]

def create (k : Table X Flags) (maxfd : ℕ) : State X where
  kernel := k
  hookedFiles := Grid.create (alignUp maxfd FD_CHUNK_CAPACITY / FD_CHUNK_CAPACITY)
    FD_CHUNK_CAPACITY none
  pool _ := false
  built := 0

/-- `hookedFiles[index0][index1]`. The remainder of a negative descriptor is not positive, so that
its `index1` is negative. -/
def element (s : State X) (fd : ℤ) : Option (Option Context) :=
  if 0 ≤ fd then Grid.read s.hookedFiles (index0 fd.toNat) (index1 fd.toNat) else none

def store (s : State X) (fd : ℤ) (c : Option Context) : State X :=
  { s with hookedFiles := Grid.write s.hookedFiles (index0 fd.toNat) (index1 fd.toNat) c }

/-- `get`, once it has the lock. -/
def get (s : State X) (fd : ℤ) (a : Answers) : Result × State X :=
  let s := s.setLock fd true
  match s.element fd with
  | none => (.undefined, s)
  | some (some c) => (.returned c, s.setLock fd false)
  | some none =>
    match construct s.kernel s.built fd.toNat a with
    | (none, k) => (.thrown, { s with kernel := k })
    | (some c, k) =>
      let s := { s with kernel := k, built := s.built + 1 }
      (.returned c, (s.store fd (some c)).setLock fd false)

/-- `remove` in a fiber, once it has the lock; none for an access outside of the vectors. -/
def remove (s : State X) (fd : ℤ) : Option (State X) :=
  let s := s.setLock fd true
  match s.element fd with
  | none => none
  | some _ => some ((s.store fd none).setLock fd false)

/-- `clear`, outside of fibers: every context is destroyed, and the outer vector is left empty. -/
def clear (s : State X) : State X :=
  { s with
    kernel := (s.hookedFiles.flatten.filterMap id).foldl
      (fun k c => EFileContext.destroy false k c.toEFileContext) s.kernel
    hookedFiles := [] }

end State

/-- `world` is anything that others do to the descriptors. -/
inductive Act (X : Type)
  | get (fd : ℤ) (a : Answers)
  | remove (fd : ℤ)
  | clear
  | world (k : Table X Flags)

variable [AlignUp]

/-- `get` and `remove` first wait until the lock is free. -/
inductive Step (s : State X) : Act X → State X → Prop
  | get {fd a} : s.pool (lockFor fd) = false → Step s (.get fd a) (s.get fd a).2
  | remove {fd t} : s.pool (lockFor fd) = false → s.remove fd = some t → Step s (.remove fd) t
  | stray {fd} : s.pool (lockFor fd) = false → s.remove fd = none → Step s (.remove fd) s
  | clear : Step s .clear s.clear
  | world {k} : Step s (.world k) { s with kernel := k }

variable {s t : State X} {k k' : Table X Flags} {fd fd' : ℤ} {a : Answers} {c : Context}
  {e e' : Option Context} {b : Bool} {n m maxfd : ℕ} {act : Act X}

/-- When the constructor succeeds. -/
def Builds (k : Table X Flags) (fd : ℕ) (a : Answers) : Prop :=
  k.read fd ≠ none ∧ (a.isSocketFile = true → a.rcvtimeo ≠ none)

section

omit [AlignUp]

theorem construct_isSome : (construct k n m a).1.isSome = true ↔ Builds k m a := by
  unfold construct Builds
  cases k.read m with
  | none => simp
  | some flags =>
    cases a.isSocketFile with
    | false => simp
    | true => cases a.rcvtimeo <;> simp

theorem construct_number (h : (construct k n m a).1 = some c) : c.number = n := by
  unfold construct at h
  split at h
  · exact nomatch h
  · simp only at h
    split at h
    · split at h
      · exact nomatch h
      · rw [← Option.some.inj h]
    · rw [← Option.some.inj h]

end

section Elements

section

omit [DecidableEq X]

@[simp] theorem setLock_element : (s.setLock fd b).element fd' = s.element fd' := rfl

/-- A descriptor that the vectors made for `maxfd` have a place for. -/
def Fits (maxfd : ℕ) (fd : ℤ) : Prop :=
  0 ≤ fd ∧ fd < maxfd ∧ fd.toNat % FD_CHUNK_CAPACITY ≠ 0

theorem element_create (h : Fits maxfd fd) : (State.create k maxfd).element fd = some none := by
  obtain ⟨h0, hlt, hc⟩ := h
  have hin : Inside (EFileContextManager.create maxfd) (index0 fd.toNat) (index1 fd.toNat) :=
    inside_create (by omega) hc
  rw [State.element, if_pos h0, State.create, Grid.read_create]
  exact if_pos hin

theorem element_store_self (h : s.element fd = some e) : (s.store fd e').element fd = some e' := by
  unfold State.element at h ⊢
  split at h
  · next h0 =>
    rw [if_pos h0]
    exact Grid.read_write_self h
  · exact nomatch h

theorem element_store_of_ne (h : s.element fd = some e) (hne : fd' ≠ fd) :
    (s.store fd e').element fd' = s.element fd' := by
  unfold State.element at h ⊢
  split at h
  · next h0 =>
    split
    · refine Grid.read_write_of_ne h fun hij => hne ?_
      have heq := index_inj hij.1 hij.2
      omega
    · rfl
  · exact nomatch h

end

end Elements

/-- What `get` does, with the lock taken first. -/
inductive Got (s : State X) (fd : ℤ) (a : Answers) : Result → State X → Prop
  | outside : s.element fd = none → Got s fd a .undefined (s.setLock fd true)
  | old {c : Context} : s.element fd = some (some c) →
      Got s fd a (.returned c) ((s.setLock fd true).setLock fd false)
  | thrown : s.element fd = some none → ¬ Builds s.kernel fd.toNat a →
      Got s fd a .thrown
        { s.setLock fd true with kernel := (construct s.kernel s.built fd.toNat a).2 }
  | new {c : Context} : s.element fd = some none → Builds s.kernel fd.toNat a →
      (construct s.kernel s.built fd.toNat a).1 = some c →
      Got s fd a (.returned c)
        ((State.store { s.setLock fd true with
          kernel := (construct s.kernel s.built fd.toNat a).2
          built := s.built + 1 } fd (some c)).setLock fd false)

theorem get_cases (s : State X) (fd : ℤ) (a : Answers) :
    Got s fd a (s.get fd a).1 (s.get fd a).2 := by
  have hb := construct_isSome (k := s.kernel) (n := s.built) (m := fd.toNat) (a := a)
  unfold State.get
  cases he : s.element fd with
  | none =>
    simp only [setLock_element, he]
    exact .outside he
  | some e =>
    cases e with
    | some c =>
      simp only [setLock_element, he]
      exact .old he
    | none =>
      simp only [setLock_element, he]
      cases hp : construct s.kernel s.built fd.toNat a with
      | mk o k =>
        rw [hp] at hb
        cases o with
        | none =>
          have hg := Got.thrown (a := a) he (by simpa using hb)
          rw [hp] at hg
          have hk : construct (s.setLock fd true).kernel (s.setLock fd true).built fd.toNat a =
            (none, k) := hp
          rw [hk]
          exact hg
        | some c =>
          have hg := Got.new (a := a) (c := c) he (hb.mp rfl) (by rw [hp])
          rw [hp] at hg
          have hk : construct (s.setLock fd true).kernel (s.setLock fd true).built fd.toNat a =
            (some c, k) := hp
          rw [hk]
          exact hg

theorem get_undefined (he : s.element fd = none) : (s.get fd a).1 = .undefined := by
  have hg := get_cases s fd a
  generalize s.get fd a = p at hg ⊢
  obtain ⟨r, t⟩ := p
  cases hg with
  | outside => rfl
  | old h | thrown h | new h => exact nomatch h.symm.trans he

/-- A context that is there is returned, one that is not is built if the constructor succeeds. -/
theorem get_returned (he : s.element fd = some e) (hb : e = none → Builds s.kernel fd.toNat a) :
    ∃ c, (s.get fd a).1 = .returned c := by
  have hg := get_cases s fd a
  generalize s.get fd a = p at hg ⊢
  obtain ⟨r, t⟩ := p
  cases hg with
  | outside h => exact nomatch h.symm.trans he
  | old | new => exact ⟨_, rfl⟩
  | thrown h hn => exact (hn (hb (Option.some.inj (he.symm.trans h)))).elim

/-- A constructor that throws leaves the lock taken, and what it has done to the descriptor. -/
theorem get_thrown (he : s.element fd = some none) (hn : ¬ Builds s.kernel fd.toNat a) :
    (s.get fd a).1 = .thrown ∧ (s.get fd a).2.pool (lockFor fd) = true ∧
      (s.get fd a).2.kernel = (construct s.kernel s.built fd.toNat a).2 := by
  have hg := get_cases s fd a
  generalize s.get fd a = p at hg ⊢
  obtain ⟨r, t⟩ := p
  cases hg with
  | outside h | old h => exact nomatch h.symm.trans he
  | thrown => exact ⟨rfl, Function.update_self .., rfl⟩
  | new _ hb => exact (hn hb).elim

section

omit [DecidableEq X] [AlignUp]

/-- A lock that was free is free again after `lock` and `unlock`. -/
theorem setLock_pool (h : s.pool (lockFor fd) = false) :
    Function.update (Function.update s.pool (lockFor fd) true) (lockFor fd) false = s.pool := by
  rw [Function.update_idem, ← h, Function.update_eq_self]

end

/-- `get` gives the lock back unless the constructor throws. -/
theorem get_pool (h : s.pool (lockFor fd) = false) {c : Context}
    (hr : (s.get fd a).1 = .returned c) : (s.get fd a).2.pool = s.pool := by
  have hg := get_cases s fd a
  generalize s.get fd a = p at hg hr
  obtain ⟨r, t⟩ := p
  cases hg with
  | outside | thrown => exact nomatch hr
  | old | new => exact setLock_pool h

section

omit [DecidableEq X]

theorem remove_eq : s.remove fd = (s.element fd).map fun _ =>
    (State.store (s.setLock fd true) fd none).setLock fd false := by
  unfold State.remove
  simp only [setLock_element]
  cases s.element fd <;> rfl

/-- The kernel and the table as `Files` has them. -/
def State.toFiles (s : State X) : Files X where
  kernel := s.kernel
  manager := ⟨s.hookedFiles.length,
    fun i j => (Grid.read s.hookedFiles i j).join.map Context.toEFileContext⟩

/-- Every chunk has the same length. -/
def State.Shaped (s : State X) : Prop :=
  ∀ i j, (Grid.read s.hookedFiles i j).isSome ↔ Inside s.toFiles.manager i j

theorem element_read (h : s.element fd = some e) :
    Grid.read s.hookedFiles (index0 fd.toNat) (index1 fd.toNat) = some e := by
  unfold State.element at h
  split at h
  · exact h
  · exact nomatch h

theorem shaped_create : (State.create k maxfd).Shaped := by
  intro i j
  have hlen : (State.create k maxfd).hookedFiles.length =
      alignUp maxfd FD_CHUNK_CAPACITY / FD_CHUNK_CAPACITY := List.length_replicate
  simp only [State.create] at hlen ⊢
  rw [Grid.read_create, Option.isSome_ite, Inside, State.toFiles, hlen]

theorem Shaped.store (hs : s.Shaped) (h : s.element fd = some e) : (s.store fd e').Shaped := by
  intro i j
  have hlen : (s.store fd e').hookedFiles.length = s.hookedFiles.length := List.length_modify ..
  have hread : (Grid.read (s.store fd e').hookedFiles i j).isSome =
      (Grid.read s.hookedFiles i j).isSome := Grid.read_write_isSome (element_read h)
  rw [hread, hs i j, Inside, Inside, State.toFiles, State.toFiles, hlen]

end

/-- The shape stays, also when the vectors are cleared. -/
theorem shaped_step (hst : Step s act t) (hs : s.Shaped) : t.Shaped := by
  cases hst with
  | @get fd a =>
    have hg := get_cases s fd a
    generalize s.get fd a = p at hg ⊢
    obtain ⟨r, t⟩ := p
    cases hg with
    | outside | old | thrown => exact hs
    | new h => exact Shaped.store hs h
  | @remove fd t _ hr =>
    rw [remove_eq] at hr
    obtain ⟨e, he, rfl⟩ := Option.map_eq_some_iff.mp hr
    exact Shaped.store hs he
  | stray | world => exact hs
  | clear =>
    intro i j
    have hnil : s.clear.hookedFiles = [] := rfl
    rw [hnil, Grid.read_nil, Inside, State.toFiles, hnil]
    simp only [Option.isSome_none, Bool.false_eq_true, false_iff, List.length_nil]
    omega

section

omit [AlignUp]

theorem construct_create (hc : (construct k n m a).1 = some c) (ha : a.setfl = true) :
    ∃ flags, k.read m = some flags ∧
      EFileContext.create k m flags = (c.toEFileContext, (construct k n m a).2) := by
  unfold construct at hc ⊢
  cases hk : k.read m with
  | none => simp [hk] at hc
  | some flags =>
    refine ⟨flags, rfl, ?_⟩
    have hcreate : EFileContext.create k m flags = (⟨m, flags.nonblock⟩,
        if !flags.nonblock && a.setfl then k.write m { flags with nonblock := true } else k) := by
      cases hb : flags.nonblock <;> simp [EFileContext.create, hb, ha]
    rw [hcreate]
    simp only [hk] at hc
    cases hs : a.isSocketFile with
    | false =>
      rw [hs] at hc
      simp only [Bool.false_eq_true, if_false] at hc ⊢
      rw [← Option.some.inj hc]
    | true =>
      cases hr : a.rcvtimeo with
      | none => simp [hs, hr] at hc
      | some tv =>
        simp only [hs, hr, if_true] at hc ⊢
        rw [← Option.some.inj hc]

end

section

omit [DecidableEq X]

theorem toFiles_put (h : s.element fd = some e) (h0 : 0 ≤ index0 fd.toNat ∧ 0 ≤ index1 fd.toNat) :
    (s.store fd e').toFiles.manager = s.toFiles.manager.put
      ((index0 fd.toNat).toNat, (index1 fd.toNat).toNat) (e'.map Context.toEFileContext) := by
  have hread := element_read h
  refine congrArg₂ EFileContextManager.mk (List.length_modify ..)
    (funext fun i => funext fun j => ?_)
  change (Grid.read (Grid.write s.hookedFiles _ _ e') i j).join.map _ =
    (EFileContextManager.put _ _ _).hookedFiles i j
  simp only [EFileContextManager.put]
  by_cases hij : (i : ℤ) = index0 fd.toNat ∧ (j : ℤ) = index1 fd.toNat
  · have hi : i = (index0 fd.toNat).toNat := by omega
    have hj : j = (index1 fd.toNat).toNat := by omega
    rw [hij.1, hij.2, Grid.read_write_self hread, hi, hj, Function.update_self,
      Function.update_self]
    rfl
  · rw [Grid.read_write_of_ne hread hij]
    by_cases hi : i = (index0 fd.toNat).toNat
    · have hj : j ≠ (index1 fd.toNat).toNat := by omega
      rw [hi, Function.update_self, Function.update_of_ne hj]
      rfl
    · rw [Function.update_of_ne hi]
      rfl

end

/-- A context that `get` returns is the one of `Files.get`, and what it leaves is the same. -/
theorem get_toFiles (hs : s.Shaped) (ha : a.setfl = true) (hc : (s.get fd a).1 = .returned c) :
    s.toFiles.get fd.toNat = .ok (c.toEFileContext, (s.get fd a).2.toFiles) := by
  have hslot : ∀ e, s.element fd = some e → (0 ≤ index0 fd.toNat ∧ 0 ≤ index1 fd.toNat) ∧
      s.toFiles.manager.slot fd.toNat =
        some ((index0 fd.toNat).toNat, (index1 fd.toNat).toNat) ∧
      s.toFiles.manager.hookedFiles (index0 fd.toNat).toNat (index1 fd.toNat).toNat =
        e.map Context.toEFileContext := by
    intro e he
    have hread := element_read he
    have hin := (hs _ _).mp (Option.isSome_iff_exists.mpr ⟨e, hread⟩)
    refine ⟨⟨hin.1.1, hin.2.1⟩, ?_, ?_⟩
    · rw [slot]
      exact if_pos ⟨hin.1.1, hin.1.2, hin.2.1⟩
    · change (Grid.read s.hookedFiles _ _).join.map _ = _
      rw [Int.toNat_of_nonneg hin.1.1, Int.toNat_of_nonneg hin.2.1, hread]
      rfl
  have hg := get_cases s fd a
  generalize s.get fd a = p at hg hc ⊢
  obtain ⟨r, t⟩ := p
  cases hg with
  | outside | thrown => cases hc
  | old h =>
    obtain ⟨_, hp, hh⟩ := hslot _ h
    obtain rfl := Result.returned.inj hc
    rw [Files.get]
    simp only [hp, hh]
    rfl
  | @new c' h _ hcon =>
    obtain ⟨h0, hp, hh⟩ := hslot _ h
    obtain ⟨flags, hread, hcreate⟩ := construct_create hcon ha
    have hread : s.toFiles.kernel.read fd.toNat = some flags := hread
    have hcreate : EFileContext.create s.toFiles.kernel fd.toNat flags = _ := hcreate
    rw [Files.get, ← Result.returned.inj hc]
    simp only [hp, hh, hread, hcreate]
    have hput : (State.store s fd (some c')).toFiles.manager = _ := toFiles_put h h0
    exact congrArg (fun m => Except.ok (c'.toEFileContext, Files.mk _ m)) hput.symm

end CxxFiber.Manager
