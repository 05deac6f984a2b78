import Mathlib.Data.List.Basic
import Mathlib.Logic.Function.Basic

/-! The interest list of one `epoll` instance, as documented: an entry belongs to a descriptor and
to the file that was open under it, and goes when the last descriptor of that file is closed. -/
namespace Epoll

/-- The descriptors of the process and the entries of the instance; descriptors from `bound` on
are not open. `X` names the open files, `M` is what an entry is interested in. -/
structure Kernel (X M : Type) where
  bound : ℕ
  file : ℕ → Option X
  epoll : ℕ → X → Option M
  low : ∀ fd, file fd ≠ none → fd < bound
  live : ∀ fd x, epoll fd x ≠ none → ∃ fd', file fd' = some x

/-- The operations of `epoll_ctl`. -/
inductive Ctl (M : Type)
  | add (m : M)
  | mod (m : M)
  | del

/-- `other` stands for the reasons not to take a new entry: no memory, no watch left, a file that
cannot be polled. -/
inductive Errno
  | ebadf
  | eexist
  | enoent
  | other
  deriving DecidableEq, Repr

namespace Kernel

variable {X M : Type} [DecidableEq X]

/-- The entry that `epoll_ctl` finds for a descriptor. -/
def entry (k : Kernel X M) (fd : ℕ) : Option M := (k.file fd).bind (k.epoll fd)

def put (k : Kernel X M) (fd : ℕ) (e : Option M) : Kernel X M where
  bound := k.bound
  file := k.file
  epoll fd' x := if fd' = fd ∧ k.file fd = some x then e else k.epoll fd' x
  low := k.low
  live fd' x h := by
    split at h
    · next hx => exact ⟨fd, hx.2⟩
    · exact k.live fd' x h

/-- `epoll_ctl`. Only a new entry may be `refused`. -/
def ctl (k : Kernel X M) (refused : Bool) (fd : ℕ) (op : Ctl M) : Except Errno (Kernel X M) :=
  if (k.file fd).isNone then .error .ebadf
  else match op, k.entry fd with
    | .add _, some _ => .error .eexist
    | .add m, none => if refused then .error .other else .ok (k.put fd (some m))
    | .mod m, some _ => .ok (k.put fd (some m))
    | .mod _, none => .error .enoent
    | .del, some _ => .ok (k.put fd none)
    | .del, none => .error .enoent

/-- Whether a file has a descriptor other than `fd`. -/
def openBeside (k : Kernel X M) (fd : ℕ) (x : X) : Bool :=
  (List.range k.bound).any fun fd' => fd' ≠ fd && k.file fd' = some x

theorem openBeside_iff {k : Kernel X M} {fd : ℕ} {x : X} :
    k.openBeside fd x = true ↔ ∃ fd', fd' ≠ fd ∧ k.file fd' = some x := by
  simp only [openBeside, List.any_eq_true, List.mem_range, Bool.and_eq_true, decide_eq_true_eq]
  constructor
  · rintro ⟨fd', -, h⟩
    exact ⟨fd', h⟩
  · rintro ⟨fd', hne, hx⟩
    exact ⟨fd', k.low fd' (by simp [hx]), hne, hx⟩

/-- `close`. The last descriptor of a file takes its entries with it. -/
def close (k : Kernel X M) (fd : ℕ) : Kernel X M where
  bound := k.bound
  file := Function.update k.file fd none
  epoll fd' x := if k.openBeside fd x then k.epoll fd' x else none
  low fd' h := by
    by_cases hf : fd' = fd
    · simp [hf] at h
    · exact k.low fd' (by simpa [hf] using h)
  live fd' x h := by
    split at h
    · next hx =>
      obtain ⟨fd'', hne, hx⟩ := openBeside_iff.mp hx
      exact ⟨fd'', by simpa [hne] using hx⟩
    · exact absurd rfl h

/-- A free descriptor for `x`: a file that has just been opened, or one that `dup` was given. -/
def install (k : Kernel X M) (fd : ℕ) (x : X) : Kernel X M :=
  if hfree : (k.file fd).isNone then
    { bound := max k.bound (fd + 1)
      file := Function.update k.file fd (some x)
      epoll := k.epoll
      low := fun fd' h => by
        by_cases hf : fd' = fd
        · omega
        · have := k.low fd' (by simpa [hf] using h)
          omega
      live := fun fd' y h => by
        obtain ⟨fd'', hy⟩ := k.live fd' y h
        by_cases hf : fd'' = fd
        · subst hf
          simp [hy] at hfree
        · exact ⟨fd'', by simpa [hf] using hy⟩ }
  else k

/-- `epoll_create`. -/
def create (k : Kernel X M) : Kernel X M where
  bound := k.bound
  file := k.file
  epoll _ _ := none
  low := k.low
  live _ _ h := absurd rfl h

/-- No entry has outlived the descriptor that it was added under. -/
def Current (k : Kernel X M) : Prop := ∀ fd x, k.epoll fd x ≠ none → k.file fd = some x

variable {k k' : Kernel X M} {fd fd' : ℕ} {x : X} {m : M} {e : Option M} {refused : Bool}

omit [DecidableEq X] in
theorem entry_of_closed (h : k.file fd = none) : k.entry fd = none := by
  simp [entry, h]

omit [DecidableEq X] in
theorem file_of_entry (h : k.entry fd ≠ none) : k.file fd ≠ none := by
  intro hf
  exact h (entry_of_closed hf)

theorem put_entry (hf : k.file fd ≠ none) :
    (k.put fd e).entry fd' = if fd' = fd then e else k.entry fd' := by
  by_cases h : fd' = fd
  · subst h
    obtain ⟨x, hx⟩ := Option.ne_none_iff_exists'.mp hf
    simp [entry, put, hx]
  · simp [entry, put, h]

theorem put_current (hc : k.Current) : (k.put fd e).Current := by
  intro fd' x h
  simp only [put] at h ⊢
  split at h
  · next hx => rw [hx.1, hx.2]
  · exact hc fd' x h

theorem ctl_closed {op : Ctl M} (h : k.file fd = none) : k.ctl refused fd op = .error .ebadf := by
  simp [ctl, h]

theorem ctl_add (hf : k.file fd ≠ none) (he : k.entry fd = none) :
    k.ctl refused fd (.add m) = if refused then .error .other else .ok (k.put fd (some m)) := by
  simp [ctl, he, hf]

theorem ctl_add_ok (he : k.entry fd = none) (h : k.ctl refused fd (.add m) = .ok k') :
    k.file fd ≠ none ∧ k' = k.put fd (some m) := by
  by_cases hf : k.file fd = none
  · rw [ctl_closed hf] at h
    cases h
  · refine ⟨hf, ?_⟩
    rw [ctl_add hf he] at h
    split at h
    · cases h
    · exact (Except.ok.inj h).symm

theorem ctl_mod (he : k.entry fd ≠ none) :
    k.ctl refused fd (.mod m) = .ok (k.put fd (some m)) := by
  have hf := file_of_entry he
  obtain ⟨m', hm⟩ := Option.ne_none_iff_exists'.mp he
  simp [ctl, hm, hf]

theorem ctl_del (he : k.entry fd ≠ none) : k.ctl refused fd .del = .ok (k.put fd none) := by
  have hf := file_of_entry he
  obtain ⟨m', hm⟩ := Option.ne_none_iff_exists'.mp he
  simp [ctl, hm, hf]

/-- A descriptor loses its entry when it is closed; the others keep theirs. -/
theorem close_entry : (k.close fd).entry fd' = if fd' = fd then none else k.entry fd' := by
  by_cases h : fd' = fd
  · simp [entry, close, h]
  · cases hx : k.file fd' with
    | none => simp [entry, close, h, hx]
    | some x =>
      have hopen : k.openBeside fd x = true := openBeside_iff.mpr ⟨fd', h, hx⟩
      simp [entry, close, h, hx, hopen]

theorem close_current (hc : k.Current) (he : k.entry fd = none) : (k.close fd).Current := by
  intro fd' x h
  have hold : k.epoll fd' x ≠ none := by
    intro hn
    simp [close, hn] at h
  have hx : k.file fd' = some x := hc fd' x hold
  have hne : fd' ≠ fd := by
    rintro rfl
    exact hold (by simpa [entry, hx] using he)
  simpa [close, hne] using hx

omit [DecidableEq X] in
theorem install_current (hc : k.Current) : (k.install fd x).Current := by
  unfold install
  split
  · next hfree =>
    intro fd' y h
    have hy : k.file fd' = some y := hc fd' y h
    have hne : fd' ≠ fd := by
      rintro rfl
      simp [hy] at hfree
    simpa [hne] using hy
  · exact hc

omit [DecidableEq X] in
/-- A descriptor that comes back finds no entry, if none has been left. -/
theorem install_entry (hc : k.Current) : (k.install fd x).entry fd' = k.entry fd' := by
  unfold install
  split
  · next hfree =>
    by_cases h : fd' = fd
    · subst h
      have hx : k.epoll fd' x = none := by
        by_contra hx
        simp [hc fd' x hx] at hfree
      rw [entry_of_closed (Option.isNone_iff_eq_none.mp hfree)]
      simpa [entry] using hx
    · simp [entry, h]
  · rfl

omit [DecidableEq X] in
theorem create_current : k.create.Current := fun _ _ h => absurd rfl h

omit [DecidableEq X] in
@[simp] theorem create_entry : k.create.entry fd = none := by
  cases hx : k.file fd <;> simp [entry, create, hx]

end Kernel
end Epoll
