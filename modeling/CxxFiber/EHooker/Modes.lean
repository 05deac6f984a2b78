import CxxFiber.EFileContext
import CxxFiber.Library.Runs

/-! The blocking mode that the hooks show to the user, for calls in fibers on stream descriptors. -/
namespace CxxFiber

open Descriptors (Table)
open Transition

section Hooks

variable [AlignUp] {X : Type} [DecidableEq X]

namespace Files

/-- `fcntl(fd, F_GETFL)`: the flags of the kernel, with the bit of the user's mode. -/
def fcntlGetFl (s : Files X) (fd : ℕ) : Except Fault (Option Flags × Files X) :=
  (s.get fd).map fun r =>
    ((r.2.kernel.read fd).map fun flags => { flags with nonblock := r.1.userNonBlocked }, r.2)

/-- `fcntl(fd, F_SETFL, flags)`. -/
def fcntlSetFl (s : Files X) (fd : ℕ) (flags : Flags) : Except Fault (Files X) :=
  (s.get fd).map fun r => r.2.setUserNonBlock fd r.1 flags.nonblock

/-- `ioctl(fd, FIONBIO, &arg)`. -/
def ioctlFionbio (s : Files X) (fd : ℕ) (arg : ℤ) : Except Fault (Files X) :=
  (s.get fd).map fun r => r.2.setUserNonBlock fd r.1 (arg ≠ 0)

/-- The mode test at the head of `comm_io_on_fiber`. -/
def isUNB (s : Files X) (fd : ℕ) : Except Fault (Bool × Files X) :=
  (s.get fd).map fun r => (r.1.userNonBlocked, r.2)

def close (s : Files X) (fd : ℕ) : Except Fault (Files X) :=
  (s.remove fd).map fun t => { t with kernel := t.kernel.close fd }

/-- The part that `dup2` and `dup3` share; the call of the kernel may fail after the context of
`newfd` has been dropped. -/
def dup (s : Files X) (oldfd newfd : ℕ) (fails : Bool) : Except Fault (ℤ × Files X) :=
  (if (s.kernel.file newfd).isSome then s.remove newfd else .ok s).map fun t =>
    if fails then (-1, t) else (newfd, { t with kernel := t.kernel.dup oldfd newfd })

def dup2 (s : Files X) (oldfd newfd : ℕ) (fails : Bool) : Except Fault (ℤ × Files X) :=
  if oldfd = newfd then .ok (0, s) else s.dup oldfd newfd fails

/-- With `EINVAL` for equal descriptors; `O_CLOEXEC` is not a status flag. -/
def dup3 (s : Files X) (oldfd newfd : ℕ) (fails : Bool) : Except Fault (ℤ × Files X) :=
  if oldfd = newfd then .ok (-1, s) else s.dup oldfd newfd fails

end Files

namespace Modes

/-- Calls in fibers, the opening of a descriptor by any call that makes one, the end of `join`. -/
inductive Op (X : Type)
  | opened (fd : ℕ) (x : X) (flags : Flags)
  | close (fd : ℕ)
  | setFl (fd : ℕ) (flags : Flags)
  | fionbio (fd : ℕ) (arg : ℤ)
  | getFl (fd : ℕ)
  | io (fd : ℕ)
  | dup2 (oldfd newfd : ℕ) (fails : Bool)
  | dup3 (oldfd newfd : ℕ) (fails : Bool)
  | clear

namespace Op

/-- Descriptors are open, or free and given a new description. -/
def Possible (s : Files X) : Op X → Prop
  | .opened fd x _ => s.kernel.file fd = none ∧ ∀ fd', s.kernel.file fd' ≠ some x
  | .close fd | .setFl fd _ | .fionbio fd _ | .getFl fd | .io fd => s.kernel.file fd ≠ none
  | .dup2 oldfd _ fails | .dup3 oldfd _ fails => fails = false → s.kernel.file oldfd ≠ none
  | .clear => True

def run (s : Files X) : Op X → Except Fault (Files X)
  | .opened fd x flags => .ok { s with kernel := s.kernel.install fd x flags }
  | .close fd => s.close fd
  | .setFl fd flags => s.fcntlSetFl fd flags
  | .fionbio fd arg => s.ioctlFionbio fd arg
  | .getFl fd => (s.fcntlGetFl fd).map Prod.snd
  | .io fd => (s.isUNB fd).map Prod.snd
  | .dup2 oldfd newfd fails => (s.dup2 oldfd newfd fails).map Prod.snd
  | .dup3 oldfd newfd fails => (s.dup3 oldfd newfd fails).map Prod.snd
  | .clear => .ok s.clear

/-- The user's own account: the mode a descriptor was opened with, last set to or copied from. -/
def modeAfter (mode : ℕ → Bool) : Op X → ℕ → Bool
  | .opened fd _ flags | .setFl fd flags => Function.update mode fd flags.nonblock
  | .fionbio fd arg => Function.update mode fd (arg ≠ 0)
  | .dup2 oldfd newfd false | .dup3 oldfd newfd false =>
    Function.update mode newfd (mode oldfd)
  | _ => mode

end Op

/-- `undefined` once a call has gone outside of the vectors. -/
structure State (X : Type) where
  files : Files X
  mode : ℕ → Bool
  undefined : Bool

def initial (status : X → Flags) (maxfd : ℕ) : State X where
  files := ⟨⟨fun _ => none, status⟩, .create maxfd⟩
  mode _ := false
  undefined := false

inductive Step (s : State X) : Op X → State X → Prop
  | run {a t} : a.Possible s.files → a.run s.files = .ok t →
      Step s a { s with files := t, mode := a.modeAfter s.mode }
  | fault {a e} : a.Possible s.files → a.run s.files = .error e →
      Step s a { s with undefined := true }

/-- A descriptor has a place in the vectors, which the end of `join` leaves empty. -/
def InTable (s : Files X) (fd : ℕ) : Prop :=
  fd % FD_CHUNK_CAPACITY ≠ 0 ∧ fd / FD_CHUNK_CAPACITY < s.manager.chunks

/-- The contexts that a call reaches for are inside the vectors. -/
def HasSlot (s : Files X) : Op X → Prop
  | .close fd | .setFl fd _ | .fionbio fd _ | .getFl fd | .io fd => InTable s fd
  | .dup2 oldfd newfd _ | .dup3 oldfd newfd _ =>
    oldfd ≠ newfd → s.kernel.file newfd ≠ none → InTable s newfd
  | .opened _ _ _ | .clear => True

variable {s t : Files X} {fd fd' oldfd newfd : ℕ} {c : EFileContext} {a : Op X} {mode : ℕ → Bool}
  {fails : Bool}

section

omit [DecidableEq X]

theorem slot_none : s.manager.slot fd = none ↔ ¬ InTable s fd := by
  rw [Option.eq_none_iff_forall_ne_some]
  constructor
  · intro h hin
    exact h _ (EFileContextManager.slot_eq_some.mpr ⟨hin.1, hin.2, rfl⟩)
  · intro h p hp
    obtain ⟨hr, hq, _⟩ := EFileContextManager.slot_eq_some.mp hp
    exact h ⟨hr, hq⟩

end

section

omit [AlignUp]

theorem map_error {α β : Type} {x : Except Fault α} {f : α → β} :
    (∃ e, x.map f = .error e) ↔ ∃ e, x = .error e := by
  cases x <;> simp [Except.map]

theorem map_ok {α β : Type} {x : Except Fault α} {f : α → β} {b : β} :
    x.map f = .ok b ↔ ∃ a, x = .ok a ∧ f a = b := by
  cases x <;> simp [Except.map]

end

theorem dup_error : (∃ e, s.dup oldfd newfd fails = .error e) ↔
    s.kernel.file newfd ≠ none ∧ ¬ InTable s newfd := by
  unfold Files.dup
  rw [map_error]
  cases hf : s.kernel.file newfd with
  | none => simp
  | some x => simpa using Files.remove_error.trans slot_none

/-- A call goes outside of the vectors exactly when it has no place in them. -/
theorem run_error (hp : a.Possible s) : (∃ e, a.run s = .error e) ↔ ¬ HasSlot s a := by
  cases a with
  | opened fd x flags => simp [Op.run, HasSlot]
  | close fd => exact map_error.trans (Files.remove_error.trans slot_none)
  | setFl fd flags | fionbio fd arg => exact map_error.trans ((Files.get_error hp).trans slot_none)
  | getFl fd | io fd =>
    exact map_error.trans (map_error.trans ((Files.get_error hp).trans slot_none))
  | dup2 oldfd newfd fails | dup3 oldfd newfd fails =>
    refine map_error.trans ?_
    by_cases he : oldfd = newfd
    · simp [Files.dup2, Files.dup3, HasSlot, he]
    · simp only [Files.dup2, Files.dup3, HasSlot, he, if_false, dup_error]
      simp [he]
  | clear => simp [Op.run, HasSlot]

section

omit [DecidableEq X]

theorem coherent_kernel {k : Table X Flags} (hs : s.Coherent)
    (hk : ∀ fd, s.manager.find fd ≠ none → k.read fd = s.kernel.read fd) :
    Files.Coherent { s with kernel := k } := by
  intro i j c hc
  obtain ⟨hp, hb⟩ := hs i j c hc
  have hf : s.manager.find c.fd ≠ none := by
    rw [EFileContextManager.find_of_slot hp, hc]
    simp
  refine ⟨hp, ?_⟩
  rw [Files.nonblock, hk c.fd hf]
  exact hb

end

/-- What `dup` leaves before the call of the kernel: no context of `newfd`. -/
theorem dup_ok {r : ℤ × Files X} (hs : s.Coherent) (h : s.dup oldfd newfd fails = .ok r) :
    ∃ t, t.kernel = s.kernel ∧ t.Coherent ∧ t.manager.find newfd = none ∧
      (∀ fd, fd ≠ newfd → t.manager.find fd = s.manager.find fd) ∧
      r.2 = if fails then t else { t with kernel := t.kernel.dup oldfd newfd } := by
  obtain ⟨t, ht, rfl⟩ := map_ok.mp h
  refine ⟨t, ?_⟩
  cases hf : s.kernel.file newfd with
  | none =>
    obtain rfl : s = t := by simpa [hf] using ht
    have hn : s.manager.find newfd = none := by
      by_contra hn
      exact hs.open hn hf
    refine ⟨rfl, hs, hn, fun _ _ => rfl, ?_⟩
    split <;> rfl
  | some x =>
    have ht : s.remove newfd = .ok t := by simpa [hf] using ht
    obtain ⟨hk, hn, hne, _⟩ := Files.remove_ok ht
    refine ⟨hk, Files.coherent_remove hs ht, hn, hne, ?_⟩
    split <;> rfl

theorem coherent_dup {r : ℤ × Files X} (hs : s.Coherent) (h : s.dup oldfd newfd fails = .ok r) :
    r.2.Coherent := by
  obtain ⟨t, hk, ht, hn, hne, hr⟩ := dup_ok hs h
  cases fails with
  | true => exact hr ▸ ht
  | false =>
    rw [hr]
    refine coherent_kernel ht fun fd hf => Table.read_dup_of_ne ?_
    rintro rfl
    exact hf hn

theorem coherent_run (hs : s.Coherent) (hp : a.Possible s) (h : a.run s = .ok t) : t.Coherent := by
  cases a with
  | opened fd x flags =>
    cases h
    refine coherent_kernel hs fun fd' hf => Table.read_install_of_ne hp.2 ?_
    rintro rfl
    exact hs.open hf hp.1
  | close fd =>
    obtain ⟨u, hu, rfl⟩ := map_ok.mp h
    refine coherent_kernel (Files.coherent_remove hs hu) fun fd' hf => Table.read_close_of_ne ?_
    rintro rfl
    exact hf (Files.remove_ok hu).2.1
  | setFl fd flags | fionbio fd arg =>
    obtain ⟨⟨c, u⟩, hu, rfl⟩ := map_ok.mp h
    have hg := Files.get_ok hu
    exact Files.coherent_setUser hg.find (hg.coherent hs)
  | getFl fd | io fd =>
    obtain ⟨r, hr, rfl⟩ := map_ok.mp h
    obtain ⟨⟨c, u⟩, hu, rfl⟩ := map_ok.mp hr
    exact (Files.get_ok hu).coherent hs
  | dup2 oldfd newfd fails | dup3 oldfd newfd fails =>
    obtain ⟨r, hr, rfl⟩ := map_ok.mp h
    by_cases he : oldfd = newfd
    · simp only [Files.dup2, Files.dup3, he, if_true] at hr
      cases hr
      exact hs
    · simp only [Files.dup2, Files.dup3, he, if_false] at hr
      exact coherent_dup hs hr
  | clear =>
    cases h
    exact Files.coherent_clear

/-- Every open descriptor shows its mode. -/
def Shows (s : Files X) (mode : ℕ → Bool) : Prop :=
  ∀ fd, s.kernel.file fd ≠ none → s.visible fd = some (mode fd)

/-- The call leaves the modes that the user sees alone: a context that sets the kernel's flag is
made for a description with no other descriptor, a duplicated descriptor shows the kernel's flag,
and so does one whose context is dropped in vain. -/
def Kept (s : Files X) : Op X → Prop
  | .setFl fd _ | .fionbio fd _ | .getFl fd | .io fd =>
    s.manager.find fd = none → s.nonblock fd = some false → s.kernel.Alone fd
  | .dup2 oldfd newfd false | .dup3 oldfd newfd false =>
    oldfd ≠ newfd → s.visible oldfd = s.nonblock oldfd
  | .dup2 oldfd newfd true | .dup3 oldfd newfd true =>
    oldfd ≠ newfd → s.visible newfd = s.nonblock newfd
  | _ => True

theorem shows_get (hs : s.Coherent) (hm : Shows s mode) (hp : s.kernel.file fd ≠ none)
    (hg : Files.Got s fd c t) : Shows t mode ↔
      (s.manager.find fd = none → s.nonblock fd = some false → s.kernel.Alone fd) := by
  constructor
  · intro ht hn hb fd' hne hopen hf
    have hn' : s.manager.find fd' = none := by
      by_contra hc
      obtain ⟨c', hc'⟩ := Option.ne_none_iff_exists'.mp hc
      have hb' := (hs.find hc').2
      rw [Files.nonblock_of_file hf, hb] at hb'
      cases hb'
    -- another descriptor without a context showed false and shows true now
    have hopen' : s.kernel.file fd' ≠ none := hf ▸ hopen
    have h₁ := hm fd' hopen'
    have h₂ := ht fd' (hg.file ▸ hopen')
    rw [hg.visible_of_ne hne, if_pos ⟨hn, hn', hf⟩] at h₂
    rw [Files.visible_of_none hn', Files.nonblock_of_file hf, hb] at h₁
    exact Bool.false_ne_true (Option.some.inj (h₁.trans h₂.symm))
  · intro h fd' hopen
    rw [hg.file] at hopen
    by_cases hne : fd' = fd
    · subst fd'
      exact hg.visible_self.trans (hm fd hopen)
    · rw [hg.visible_of_ne hne]
      split
      · next hsh =>
        obtain ⟨hn, hn', hf⟩ := hsh
        have h₁ := hm fd' hopen
        rw [Files.visible_of_none hn', Files.nonblock_of_file hf] at h₁
        cases hmode : mode fd' with
        | true => rfl
        | false => exact (h hn (hmode ▸ h₁) fd' hne hp hf).elim
      · exact hm fd' hopen

section

omit [DecidableEq X]

/-- Setting the mode of one descriptor. -/
theorem shows_setUser {b : Bool} (hc : s.manager.find fd = some c)
    (hv : s.kernel.file fd ≠ none → s.visible fd = some (mode fd)) :
    Shows (s.setUserNonBlock fd c b) (Function.update mode fd b) ↔ Shows s mode := by
  have hother : ∀ fd', fd' ≠ fd →
      ((s.setUserNonBlock fd c b).visible fd' = some (Function.update mode fd b fd') ↔
        s.visible fd' = some (mode fd')) := by
    intro fd' hne
    rw [Files.visible_setUser_of_ne hc hne, Function.update_of_ne hne]
  unfold Shows
  rw [Files.kernel_setUser hc]
  constructor
  · intro h fd' hopen
    by_cases hne : fd' = fd
    · subst fd'
      exact hv hopen
    · exact (hother fd' hne).mp (h fd' hopen)
  · intro h fd' hopen
    by_cases hne : fd' = fd
    · subst fd'
      rw [Files.visible_of_find (Files.find_setUser_self hc), Function.update_self]
    · exact (hother fd' hne).mpr (h fd' hopen)

theorem visible_congr (hf : t.manager.find fd = s.manager.find fd)
    (hr : t.kernel.read fd = s.kernel.read fd) : t.visible fd = s.visible fd := by
  simp only [Files.visible, Files.nonblock, hf, hr]

end

theorem shows_dup {r : ℤ × Files X} (hs : s.Coherent) (hm : Shows s mode)
    (hp : s.kernel.file oldfd ≠ none) (h : s.dup oldfd newfd false = .ok r) :
    Shows r.2 (Function.update mode newfd (mode oldfd)) ↔ s.visible oldfd = s.nonblock oldfd := by
  obtain ⟨t, hk, ht, hn, hne, hr⟩ := dup_ok hs h
  have hr : r.2 = { t with kernel := t.kernel.dup oldfd newfd } := hr
  have hnew : r.2.visible newfd = s.nonblock oldfd := by
    have hn : r.2.manager.find newfd = none := by
      rw [hr]
      exact hn
    rw [Files.visible_of_none hn, hr]
    simp only [Files.nonblock, Table.read_dup_self, hk]
  rw [hm oldfd hp]
  constructor
  · intro hs
    have hopen : r.2.kernel.file newfd ≠ none := by
      rw [hr]
      simpa [Table.dup, hk] using hp
    have hv := hs newfd hopen
    rw [hnew, Function.update_self] at hv
    exact hv.symm
  · intro hv fd hopen
    by_cases hfd : fd = newfd
    · subst fd
      rw [hnew, Function.update_self, hv]
    · have hopen : s.kernel.file fd ≠ none := by
        rw [hr] at hopen
        simpa [Table.dup, hfd, hk] using hopen
      rw [Function.update_of_ne hfd, ← hm fd hopen, hr]
      refine visible_congr (hne fd hfd) ?_
      rw [← hk]
      exact Table.read_dup_of_ne hfd

theorem shows_dup_fails {r : ℤ × Files X} (hs : s.Coherent) (hm : Shows s mode)
    (h : s.dup oldfd newfd true = .ok r) :
    Shows r.2 mode ↔ s.visible newfd = s.nonblock newfd := by
  obtain ⟨t, hk, ht, hn, hne, hr⟩ := dup_ok hs h
  have hr : r.2 = t := hr
  have hnew : r.2.visible newfd = s.nonblock newfd := by
    rw [hr, Files.visible_of_none hn]
    simp only [Files.nonblock, hk]
  have hfile : r.2.kernel.file = s.kernel.file := by rw [hr, hk]
  constructor
  · intro hv
    by_cases hopen : s.kernel.file newfd = none
    · have hn : s.manager.find newfd = none := by
        by_contra hn
        exact hs.open hn hopen
      exact Files.visible_of_none hn
    · rw [hm newfd hopen, ← hnew]
      exact (hv newfd (hfile ▸ hopen)).symm
  · intro hv fd hopen
    rw [hfile] at hopen
    by_cases hfd : fd = newfd
    · subst fd
      rw [hnew, ← hv]
      exact hm newfd hopen
    · rw [← hm fd hopen, hr]
      exact visible_congr (hne fd hfd) (by rw [hk])

/-- A call that goes through keeps what is shown in line with the modes exactly when it is kept. -/
theorem shows_run (hs : s.Coherent) (hm : Shows s mode) (hp : a.Possible s)
    (h : a.run s = .ok t) (ha : a ≠ .clear) : Shows t (a.modeAfter mode) ↔ Kept s a := by
  cases a with
  | opened fd x flags =>
    cases h
    refine iff_of_true (fun fd' hopen => ?_) trivial
    by_cases hfd : fd' = fd
    · subst fd'
      have hn : s.manager.find fd = none := by
        by_contra hn
        exact hs.open hn hp.1
      rw [Files.visible_of_none (s := { s with kernel := s.kernel.install fd x flags }) hn,
        Files.nonblock, Table.read_install_self]
      simp [Op.modeAfter]
    · have hopen : s.kernel.file fd' ≠ none := by simpa [Table.install, hfd] using hopen
      rw [Op.modeAfter, Function.update_of_ne hfd, ← hm fd' hopen]
      exact visible_congr rfl (Table.read_install_of_ne hp.2 hfd)
  | close fd =>
    obtain ⟨u, hu, rfl⟩ := map_ok.mp h
    obtain ⟨hk, hn, hne, _⟩ := Files.remove_ok hu
    refine iff_of_true (fun fd' hopen => ?_) trivial
    have hfd : fd' ≠ fd := by
      rintro rfl
      simp [Table.close] at hopen
    have hopen : s.kernel.file fd' ≠ none := by simpa [Table.close, hfd, hk] using hopen
    refine Eq.trans (visible_congr (hne fd' hfd) ?_) (hm fd' hopen)
    rw [← hk]
    exact Table.read_close_of_ne hfd
  | setFl fd flags | fionbio fd arg =>
    obtain ⟨⟨c, u⟩, hu, rfl⟩ := map_ok.mp h
    have hg := Files.get_ok hu
    refine (shows_setUser hg.find fun hopen => ?_).trans (shows_get hs hm hp hg)
    rw [hg.file] at hopen
    exact hg.visible_self.trans (hm fd hopen)
  | getFl fd | io fd =>
    obtain ⟨r, hr, rfl⟩ := map_ok.mp h
    obtain ⟨⟨c, u⟩, hu, rfl⟩ := map_ok.mp hr
    exact shows_get hs hm hp (Files.get_ok hu)
  | dup2 oldfd newfd fails | dup3 oldfd newfd fails =>
    obtain ⟨r, hr, rfl⟩ := map_ok.mp h
    by_cases he : oldfd = newfd
    · subst he
      simp only [Files.dup2, Files.dup3, if_true] at hr
      cases hr
      cases fails <;> simp [Op.modeAfter, Kept, hm]
    · simp only [Files.dup2, Files.dup3, he, if_false] at hr
      cases fails with
      | false =>
        refine (shows_dup hs hm (hp rfl) hr).trans ?_
        simp [Kept, he]
      | true =>
        refine (shows_dup_fails hs hm hr).trans ?_
        simp [Kept, he]
  | clear => exact (ha rfl).elim

/-- The mode of a descriptor is what `F_GETFL` reports and what the I/O hooks act on, and what is
left in the kernel once the contexts are gone; until then the kernel's flag stays set. -/
structure Virtual (s : State X) : Prop where
  defined : s.undefined = false
  shows : Shows s.files s.mode
  reported : ∀ fd flags t, s.files.kernel.file fd ≠ none →
    s.files.fcntlGetFl fd = .ok (flags, t) → flags.map Flags.nonblock = some (s.mode fd)
  acted : ∀ fd b t, s.files.kernel.file fd ≠ none → s.files.isUNB fd = .ok (b, t) → b = s.mode fd
  kernel : ∀ fd, s.files.manager.find fd ≠ none → s.files.nonblock fd = some true
  restored : s.files.manager.chunks = 0 → ∀ fd, s.files.kernel.file fd ≠ none →
    s.files.nonblock fd = some (s.mode fd)

theorem virtual_iff {s : State X} (hs : s.files.Coherent) :
    Virtual s ↔ s.undefined = false ∧ Shows s.files s.mode := by
  constructor
  · intro h
    exact ⟨h.defined, h.shows⟩
  · rintro ⟨hd, hm⟩
    have huser : ∀ {fd c t}, s.files.kernel.file fd ≠ none → s.files.get fd = .ok (c, t) →
        c.userNonBlocked = s.mode fd := by
      intro fd c t hopen hg
      have hv := (Files.get_ok hg).user
      exact Option.some.inj (hv.symm.trans (hm fd hopen))
    constructor
    case defined => exact hd
    case shows => exact hm
    case reported =>
      intro fd flags t hopen hr
      obtain ⟨⟨c, u⟩, hu, he⟩ := map_ok.mp hr
      obtain ⟨rfl, rfl⟩ := Prod.mk.inj he
      obtain ⟨x, hx⟩ := Option.ne_none_iff_exists'.mp hopen
      have hx : u.kernel.file fd = some x := by rw [(Files.get_ok hu).file, hx]
      simp [Table.read, hx, huser hopen hu]
    case acted =>
      intro fd b t hopen hr
      obtain ⟨⟨c, u⟩, hu, he⟩ := map_ok.mp hr
      obtain ⟨rfl, rfl⟩ := Prod.mk.inj he
      exact huser hopen hu
    case kernel =>
      intro fd hf
      obtain ⟨c, hc⟩ := Option.ne_none_iff_exists'.mp hf
      exact (hs.find hc).2
    case restored =>
      intro h0 fd hopen
      have hn : s.files.manager.find fd = none := by
        apply EFileContextManager.find_of_no_slot
        rw [slot_none]
        rintro ⟨_, hlt⟩
        rw [h0] at hlt
        exact Nat.not_lt_zero _ hlt
      rw [← Files.visible_of_none hn]
      exact hm fd hopen

/-- Every description has one descriptor. -/
def NoDup (_ : State X) : Op X → Prop
  | .dup2 _ _ _ | .dup3 _ _ _ => False
  | _ => True

theorem file_get (h : s.get fd = .ok (c, t)) : t.kernel.file = s.kernel.file :=
  (Files.get_ok h).file

theorem alone_run {z : State X} (hu : ∀ fd, s.kernel.Alone fd) (hn : NoDup z a) (hp : a.Possible s)
    (h : a.run s = .ok t) (fd : ℕ) : t.kernel.Alone fd := by
  have hsame : t.kernel.file = s.kernel.file → t.kernel.Alone fd := by
    intro hf
    unfold Table.Alone
    rw [hf]
    exact hu fd
  cases a with
  | opened fd₀ x flags =>
    cases h
    intro fd' hne hopen
    by_cases h₀ : fd = fd₀
    · subst fd
      simpa [Table.install, hne] using hp.2 fd'
    · have hold : s.kernel.file fd ≠ none := by simpa [Table.install, h₀] using hopen
      by_cases h₁ : fd' = fd₀
      · subst fd'
        simpa [Table.install, h₀, eq_comm] using hp.2 fd
      · simpa [Table.install, h₀, h₁] using hu fd fd' hne hold
  | close fd₀ =>
    obtain ⟨u, hr, rfl⟩ := map_ok.mp h
    have hk := (Files.remove_ok hr).1
    intro fd' hne hopen
    have h₀ : fd ≠ fd₀ := by
      rintro rfl
      simp [Table.close] at hopen
    have hold : s.kernel.file fd ≠ none := by simpa [Table.close, h₀, hk] using hopen
    by_cases h₁ : fd' = fd₀
    · subst fd'
      simpa [Table.close, h₀, hk, eq_comm] using hold
    · simpa [Table.close, h₀, h₁, hk] using hu fd fd' hne hold
  | setFl fd₀ flags | fionbio fd₀ arg =>
    obtain ⟨⟨c, u⟩, hg, rfl⟩ := map_ok.mp h
    refine hsame ?_
    rw [Files.kernel_setUser (Files.get_ok hg).find, file_get hg]
  | getFl fd₀ | io fd₀ =>
    obtain ⟨r, hr, rfl⟩ := map_ok.mp h
    obtain ⟨⟨c, u⟩, hg, rfl⟩ := map_ok.mp hr
    exact hsame (file_get hg)
  | dup2 | dup3 => exact hn.elim
  | clear =>
    cases h
    exact hsame Files.clear_file

/-- What the calls keep: contexts in their places, and descriptions that are not shared. -/
structure Inv (s : State X) : Prop where
  coherent : s.files.Coherent
  alone : ∀ fd, s.files.kernel.Alone fd

section

omit [DecidableEq X]

theorem initial_coherent {status : X → Flags} {maxfd : ℕ} :
    (initial status maxfd).files.Coherent := by
  intro i j c hc
  cases hc

end

theorem virtual_initial {status : X → Flags} {maxfd : ℕ} : Virtual (initial status maxfd) := by
  apply (virtual_iff initial_coherent).mpr
  constructor
  · rfl
  · intro fd hopen
    exact (hopen rfl).elim

/-- A call that goes outside of the vectors is lost; any other is judged by what it shows. -/
theorem step_virtual {s t : State X} (hi : s.files.Coherent) (hv : Virtual s) (hst : Step s a t) :
    Virtual t ↔ HasSlot s.files a ∧ Shows t.files t.mode := by
  cases hst with
  | @fault e hp he =>
    have hslot := (run_error hp).mp ⟨e, he⟩
    constructor
    · intro h
      exact (Bool.false_ne_true h.defined.symm).elim
    · intro h
      exact (hslot h.1).elim
  | @run t hp hr =>
    have hslot : HasSlot s.files a := by
      by_contra hslot
      obtain ⟨e, he⟩ := (run_error hp).mpr hslot
      cases hr.symm.trans he
    rw [virtual_iff (coherent_run hi hp hr)]
    constructor
    · intro h
      exact ⟨hslot, h.2⟩
    · intro h
      exact ⟨hv.defined, h.2⟩

/-- Where no description is shared, the place in the vectors is all that counts. -/
theorem virtual_step {s t : State X} (hi : Inv s) (hv : Virtual s)
    (hst : Guarded NoDup Step s a t) : Virtual t ↔ HasSlot s.files a := by
  obtain ⟨hn, hst⟩ := hst
  refine (step_virtual hi.coherent hv hst).trans (and_iff_left ?_)
  cases hst with
  | fault => exact hv.shows
  | @run t hp hr =>
    by_cases hc : a = .clear
    · subst a
      cases hr
      intro fd hopen
      rw [Files.clear_file] at hopen
      rw [Files.visible_of_none Files.clear_find, Files.clear_nonblock hi.coherent hi.alone]
      exact hv.shows fd hopen
    · apply (shows_run hi.coherent hv.shows hp hr hc).mpr
      cases a with
      | dup2 | dup3 => exact hn.elim
      | setFl | fionbio | getFl | io => exact fun _ _ => hi.alone _
      | _ => trivial

/-- The modes are virtualised in a run exactly when every call stays inside of the vectors. -/
theorem modes_virtual_iff {status : X → Flags} {maxfd : ℕ} {s : State X} {as : List (Op X)} :
    Run (Guarded (fun s a => HasSlot s.files a) (Guarded NoDup Step)) (initial status maxfd) as s ↔
      Run (Keeping Virtual (Guarded NoDup Step)) (initial status maxfd) as s := by
  apply Run.guarded_iff_keeping (I := Inv)
  · rintro s a t hi ⟨hn, hst⟩
    cases hst with
    | run hp hr => exact ⟨coherent_run hi.coherent hp hr, alone_run hi.alone hn hp hr⟩
    | fault => exact ⟨hi.coherent, hi.alone⟩
  · intro s a t hi hv hst
    exact virtual_step hi hv hst
  · constructor
    · exact initial_coherent
    · intro fd fd' _ hopen
      exact (hopen rfl).elim
  · exact virtual_initial

end Modes

end Hooks

namespace Modes

/-- Standard input is a pipe, and a fiber reads from it. -/
theorem modes_not_virtual : ∃ s : State Unit,
    Reachable (Guarded NoDup Step) (initial (fun _ => ⟨false, 0⟩) 1024) s ∧
      s.mode 0 = false ∧ ¬ Virtual s := by
  have hr : ∃ e, (Op.io (X := Unit) 0).run
      ⟨(initial (fun _ => ⟨false, 0⟩) 1024).files.kernel.install 0 () ⟨false, 0⟩, .create 1024⟩ =
        .error e := by
    apply (run_error (by simp [Op.Possible, Table.install])).mpr
    simp [HasSlot, InTable]
  obtain ⟨e, he⟩ := hr
  refine ⟨_, ⟨[.opened 0 () ⟨false, 0⟩, .io 0],
    .step ⟨trivial, .run ⟨rfl, by simp [initial]⟩ rfl⟩ <|
    .step ⟨trivial, .fault (by simp [Op.Possible, Table.install]) he⟩ .refl⟩, rfl, ?_⟩
  intro h
  exact Bool.false_ne_true h.defined.symm

end Modes

end CxxFiber
