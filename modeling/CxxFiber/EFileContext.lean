import CxxFiber.Library.Descriptors
import Mathlib.Data.Int.Notation

/-! `EFileContext` and `EFileContextManager`: the user's blocking mode of a descriptor, beside the
kernel's. -/
namespace CxxFiber

open Descriptors (Table)

/-- File status flags: `O_NONBLOCK`, and the bits that are passed on as they are. -/
structure Flags where
  nonblock : Bool
  rest : ℕ
  deriving DecidableEq, Repr

structure EFileContext where
  fd : ℕ
  userNonBlocked : Bool
  deriving DecidableEq, Repr

namespace EFileContext

variable {X : Type} [DecidableEq X]

/-- The constructor, where `F_GETFL` has returned `flags`. -/
def create (k : Table X Flags) (fd : ℕ) (flags : Flags) : EFileContext × Table X Flags :=
  if flags.nonblock then (⟨fd, true⟩, k)
  else (⟨fd, false⟩, k.write fd { flags with nonblock := true })

/-- The destructor. With `fd` closed both calls of `fcntl` fail. -/
def destroy (fiber : Bool) (k : Table X Flags) (c : EFileContext) : Table X Flags :=
  if fiber then k
  else match k.read c.fd with
    | none => k
    | some flags =>
      if c.userNonBlocked ∧ ¬ flags.nonblock then k.write c.fd { flags with nonblock := true }
      else if ¬ c.userNonBlocked ∧ flags.nonblock then
        k.write c.fd { flags with nonblock := false }
      else k

variable {k : Table X Flags} {fd fd' : ℕ} {flags : Flags} {c : EFileContext}

theorem create_fst : (create k fd flags).1 = ⟨fd, flags.nonblock⟩ := by
  unfold create
  split <;> simp_all

theorem create_file : (create k fd flags).2.file = k.file := by
  unfold create
  split <;> simp

/-- After the constructor the kernel's flag is set, for all descriptors of the description. -/
theorem create_read (h : k.read fd = some flags) :
    ((create k fd flags).2.read fd').map Flags.nonblock =
      if k.file fd' = k.file fd then some true else (k.read fd').map Flags.nonblock := by
  by_cases hf : k.file fd' = k.file fd
  · have hr := Table.read_of_file hf
    cases hb : flags.nonblock <;> simp [create, hb, Table.read_write h, hf, hr, h]
  · cases hb : flags.nonblock <;> simp [create, hb, Table.read_write h, hf]

theorem destroy_file (b : Bool) : (destroy b k c).file = k.file := by
  unfold destroy
  split
  · rfl
  · split
    · rfl
    · split
      · simp
      · split <;> simp

/-- After the destructor, outside of fibers, the kernel's flag is the user's mode. -/
theorem destroy_read (h : k.read c.fd = some flags) :
    ((destroy false k c).read fd').map Flags.nonblock =
      if k.file fd' = k.file c.fd then some c.userNonBlocked
      else (k.read fd').map Flags.nonblock := by
  by_cases hf : k.file fd' = k.file c.fd
  · have hr := Table.read_of_file hf
    cases hb : flags.nonblock <;> cases hc : c.userNonBlocked <;>
      simp [destroy, h, hb, hc, Table.read_write h, hf, hr]
  · cases hb : flags.nonblock <;> cases hc : c.userNonBlocked <;>
      simp [destroy, h, hb, hc, Table.read_write h, hf]

end EFileContext

def FD_CHUNK_CAPACITY : ℕ := 32768

/-- `ES_ALIGN_UP` of the base library: the least multiple of `boundary` from `n` on. -/
class AlignUp where
  alignUp : ℕ → ℕ → ℕ
  dvd_alignUp {n boundary : ℕ} : 0 < boundary → boundary ∣ alignUp n boundary
  le_alignUp {n boundary : ℕ} : 0 < boundary → n ≤ alignUp n boundary
  alignUp_lt {n boundary : ℕ} : 0 < boundary → alignUp n boundary < n + boundary

/-- For given descriptors. -/
instance : AlignUp where
  alignUp n boundary := (n + boundary - 1) / boundary * boundary
  dvd_alignUp _ := Nat.dvd_mul_left _ _
  le_alignUp {n boundary} h := by
    have hd := Nat.lt_div_mul_add (a := n + boundary - 1) h
    omega
  alignUp_lt {n boundary} h := by
    have hd := Nat.div_mul_le_self (n + boundary - 1) boundary
    omega

open AlignUp

variable [AlignUp]

/-- `hookedFiles`: so many chunks, of `FD_CHUNK_CAPACITY` handles each. -/
structure EFileContextManager where
  chunks : ℕ
  hookedFiles : ℕ → ℕ → Option EFileContext

/-- `outOfRange` is an access outside of the vectors, which C++ leaves undefined; `fileNotFound` is
thrown by the constructor of a context. -/
inductive Fault
  | outOfRange
  | fileNotFound
  deriving DecidableEq, Repr

namespace EFileContextManager

def create (maxfd : ℕ) : EFileContextManager where
  chunks := alignUp maxfd FD_CHUNK_CAPACITY / FD_CHUNK_CAPACITY
  hookedFiles _ _ := none

/-- `index0` and `index1` of a descriptor, where the vectors have such a place. -/
def slot (m : EFileContextManager) (fd : ℕ) : Option (ℕ × ℕ) :=
  let index0 : ℤ := (alignUp fd FD_CHUNK_CAPACITY / FD_CHUNK_CAPACITY : ℕ) - 1
  let index1 : ℤ := (fd % FD_CHUNK_CAPACITY : ℕ) - 1
  if 0 ≤ index0 ∧ index0 < m.chunks ∧ 0 ≤ index1 then some (index0.toNat, index1.toNat) else none

/-- The context that the vectors hold for a descriptor. -/
def find (m : EFileContextManager) (fd : ℕ) : Option EFileContext :=
  (m.slot fd).bind fun p => m.hookedFiles p.1 p.2

def put (m : EFileContextManager) (p : ℕ × ℕ) (c : Option EFileContext) : EFileContextManager :=
  { m with
    hookedFiles := Function.update m.hookedFiles p.1 (Function.update (m.hookedFiles p.1) p.2 c) }

/-- All contexts, in the order of their destruction by `clear`. -/
def contexts (m : EFileContextManager) : List EFileContext :=
  (List.range m.chunks).flatMap fun i =>
    (List.range FD_CHUNK_CAPACITY).filterMap (m.hookedFiles i)

section Slots

variable {m : EFileContextManager} {fd fd' : ℕ} {p : ℕ × ℕ} {c : Option EFileContext}

/-- The multiples of the chunk size, 0 among them, have no place. -/
theorem slot_eq_some : m.slot fd = some p ↔
    fd % FD_CHUNK_CAPACITY ≠ 0 ∧ fd / FD_CHUNK_CAPACITY < m.chunks ∧
      p = (fd / FD_CHUNK_CAPACITY, fd % FD_CHUNK_CAPACITY - 1) := by
  have hcap : FD_CHUNK_CAPACITY = 32768 := rfl
  have hpos : 0 < FD_CHUNK_CAPACITY := by decide
  obtain ⟨q, hq⟩ := dvd_alignUp (n := fd) hpos
  have hle := le_alignUp (n := fd) hpos
  have hlt := alignUp_lt (n := fd) hpos
  unfold slot
  rw [hq, Nat.mul_div_cancel_left q hpos, Option.ite_none_right_eq_some, Option.some.injEq]
  rw [hq, hcap] at hle hlt
  constructor
  · rintro ⟨hin, rfl⟩
    rw [hcap] at hin ⊢
    refine ⟨by omega, by omega, Prod.ext ?_ ?_⟩ <;> simp only <;> omega
  · rintro ⟨h1, h0, rfl⟩
    rw [hcap] at h1 h0 ⊢
    refine ⟨by omega, Prod.ext ?_ ?_⟩ <;> simp only <;> omega

theorem slot_inj (h : m.slot fd = some p) (h' : m.slot fd' = some p) : fd' = fd := by
  obtain ⟨h1, _, rfl⟩ := slot_eq_some.mp h
  obtain ⟨h1', _, hp⟩ := slot_eq_some.mp h'
  have hq := congrArg Prod.fst hp
  have hr := congrArg Prod.snd hp
  simp only [FD_CHUNK_CAPACITY] at *
  omega

theorem find_of_slot (h : m.slot fd = some p) : m.find fd = m.hookedFiles p.1 p.2 := by
  simp [find, h]

theorem find_of_no_slot (h : m.slot fd = none) : m.find fd = none := by simp [find, h]

theorem find_put_self (h : m.slot fd = some p) : (m.put p c).find fd = c := by
  have hs : (m.put p c).slot fd = some p := h
  rw [find_of_slot hs]
  simp [put]

theorem find_put_of_ne (h : m.slot fd = some p) (hne : fd' ≠ fd) :
    (m.put p c).find fd' = m.find fd' := by
  cases hp : m.slot fd' with
  | none =>
    have hs : (m.put p c).slot fd' = none := hp
    rw [find_of_no_slot hs, find_of_no_slot hp]
  | some q =>
    have hs : (m.put p c).slot fd' = some q := hp
    rw [find_of_slot hs, find_of_slot hp]
    have hpq : ¬ (q.1 = p.1 ∧ q.2 = p.2) := by
      rintro ⟨h1, h2⟩
      obtain rfl : q = p := Prod.ext h1 h2
      exact hne (slot_inj h hp)
    by_cases h1 : q.1 = p.1
    · have h2 : q.2 ≠ p.2 := fun h2 => hpq ⟨h1, h2⟩
      simp [put, h1, h2]
    · simp [put, h1]

end Slots

end EFileContextManager

/-- The descriptors and the contexts of one scheduler. -/
structure Files (X : Type) where
  kernel : Table X Flags
  manager : EFileContextManager

namespace Files

variable {X : Type}

section Operations

variable [DecidableEq X]

/-- `EFileContextManager::get`. -/
def get (s : Files X) (fd : ℕ) : Except Fault (EFileContext × Files X) :=
  match s.manager.slot fd with
  | none => .error .outOfRange
  | some p =>
    match s.manager.hookedFiles p.1 p.2 with
    | some c => .ok (c, s)
    | none =>
      match s.kernel.read fd with
      | none => .error .fileNotFound
      | some flags =>
        let r := EFileContext.create s.kernel fd flags
        .ok (r.1, ⟨r.2, s.manager.put p (some r.1)⟩)

/-- `EFileContextManager::remove`, called in a fiber. -/
def remove (s : Files X) (fd : ℕ) : Except Fault (Files X) :=
  match s.manager.slot fd with
  | none => .error .outOfRange
  | some p =>
    let k := (s.manager.hookedFiles p.1 p.2).elim s.kernel (EFileContext.destroy true s.kernel)
    .ok ⟨k, s.manager.put p none⟩

/-- `setUserNonBlock` of the context `c` that `get` has returned for `fd`. -/
def setUserNonBlock (s : Files X) (fd : ℕ) (c : EFileContext) (nonblock : Bool) : Files X :=
  match s.manager.slot fd with
  | none => s
  | some p =>
    { s with manager := s.manager.put p (some { c with userNonBlocked := nonblock }) }

/-- `EFileContextManager::clear`, called outside of fibers: the vector of chunks is left empty. -/
def clear (s : Files X) : Files X where
  kernel := s.manager.contexts.foldl (EFileContext.destroy false) s.kernel
  manager := ⟨0, fun _ _ => none⟩

end Operations

/-- The kernel's `O_NONBLOCK` of a descriptor. -/
def nonblock (s : Files X) (fd : ℕ) : Option Bool := (s.kernel.read fd).map Flags.nonblock

/-- The mode that the user sees: the context's, or the one that a new context would take over. -/
def visible (s : Files X) (fd : ℕ) : Option Bool :=
  match s.manager.find fd with
  | some c => some c.userNonBlocked
  | none => s.nonblock fd

/-- A context is in the place of its descriptor, which is open and has the kernel's flag set. -/
def Coherent (s : Files X) : Prop :=
  ∀ i j c, s.manager.hookedFiles i j = some c →
    s.manager.slot c.fd = some (i, j) ∧ s.nonblock c.fd = some true

variable {s t : Files X} {fd fd' : ℕ} {c : EFileContext} {b : Bool} {p : ℕ × ℕ}

theorem visible_of_find (h : s.manager.find fd = some c) :
    s.visible fd = some c.userNonBlocked := by rw [visible, h]

theorem visible_of_none (h : s.manager.find fd = none) : s.visible fd = s.nonblock fd := by
  rw [visible, h]

section

omit [AlignUp]

theorem nonblock_of_file (h : s.kernel.file fd' = s.kernel.file fd) :
    s.nonblock fd' = s.nonblock fd := by
  simp [nonblock, Table.read, h]

theorem nonblock_eq_none : s.nonblock fd = none ↔ s.kernel.file fd = none := by
  simp [nonblock, Table.read]

end

theorem Coherent.find (h : Coherent s) (hc : s.manager.find fd = some c) :
    c.fd = fd ∧ s.nonblock fd = some true := by
  obtain ⟨p, hp, hc⟩ := Option.bind_eq_some_iff.mp hc
  obtain ⟨hs, hb⟩ := h p.1 p.2 c hc
  obtain rfl := EFileContextManager.slot_inj hp hs
  exact ⟨rfl, hb⟩

theorem Coherent.open (h : Coherent s) (hf : s.manager.find fd ≠ none) :
    s.kernel.file fd ≠ none := by
  obtain ⟨c, hc⟩ := Option.ne_none_iff_exists'.mp hf
  intro hn
  have hb := (h.find hc).2
  rw [nonblock_eq_none.mpr hn] at hb
  cases hb

/-- One place of the vectors is written, and no kernel flag is cleared. -/
theorem Coherent.put {d : Option EFileContext} (h : Coherent s)
    (ht : t.manager = s.manager.put p d)
    (hb : ∀ fd, s.nonblock fd = some true → t.nonblock fd = some true)
    (hd : ∀ c, d = some c → s.manager.slot c.fd = some p ∧ t.nonblock c.fd = some true) :
    Coherent t := by
  intro i j c hc
  rw [ht] at hc ⊢
  by_cases hij : i = p.1 ∧ j = p.2
  · obtain ⟨rfl, rfl⟩ := hij
    exact hd c (by simpa [EFileContextManager.put] using hc)
  · have hc : s.manager.hookedFiles i j = some c := by
      by_cases hi : i = p.1
      · subst i
        have hj : j ≠ p.2 := fun hj => hij ⟨rfl, hj⟩
        simpa [EFileContextManager.put, hj] using hc
      · simpa [EFileContextManager.put, hi] using hc
    obtain ⟨hs, hn⟩ := h i j c hc
    exact ⟨hs, hb _ hn⟩

theorem slot_of_find (h : s.manager.find fd = some c) : ∃ p, s.manager.slot fd = some p := by
  cases hp : s.manager.slot fd with
  | none => simp [EFileContextManager.find_of_no_slot hp] at h
  | some p => exact ⟨p, rfl⟩

section SetUser

variable (h : s.manager.find fd = some c)
include h

theorem find_setUser_self : (s.setUserNonBlock fd c b).manager.find fd =
    some { c with userNonBlocked := b } := by
  obtain ⟨p, hp⟩ := slot_of_find h
  rw [setUserNonBlock, hp]
  exact EFileContextManager.find_put_self hp

theorem find_setUser_of_ne (hne : fd' ≠ fd) :
    (s.setUserNonBlock fd c b).manager.find fd' = s.manager.find fd' := by
  obtain ⟨p, hp⟩ := slot_of_find h
  rw [setUserNonBlock, hp]
  exact EFileContextManager.find_put_of_ne hp hne

theorem kernel_setUser : (s.setUserNonBlock fd c b).kernel = s.kernel := by
  obtain ⟨p, hp⟩ := slot_of_find h
  rw [setUserNonBlock, hp]

theorem visible_setUser_of_ne (hne : fd' ≠ fd) :
    (s.setUserNonBlock fd c b).visible fd' = s.visible fd' := by
  rw [visible, visible, find_setUser_of_ne h hne, nonblock, nonblock, kernel_setUser h]

theorem coherent_setUser (hs : Coherent s) : Coherent (s.setUserNonBlock fd c b) := by
  obtain ⟨p, hp⟩ := slot_of_find h
  obtain ⟨hfd, hb⟩ := hs.find h
  have ht : s.setUserNonBlock fd c b =
      { s with manager := s.manager.put p (some { c with userNonBlocked := b }) } := by
    rw [setUserNonBlock, hp]
  rw [ht]
  refine hs.put rfl (fun _ hn => hn) ?_
  rintro _ ⟨⟩
  exact ⟨hfd ▸ hp, hfd ▸ hb⟩

end SetUser

variable [DecidableEq X]

/-- What `get` returns and leaves behind. -/
inductive Got (s : Files X) (fd : ℕ) (c : EFileContext) (t : Files X) : Prop
  | old : s.manager.find fd = some c → t = s → Got s fd c t
  | new (p : ℕ × ℕ) (flags : Flags) : s.manager.slot fd = some p → s.manager.find fd = none →
      s.kernel.read fd = some flags → c = ⟨fd, flags.nonblock⟩ →
      t.kernel = (EFileContext.create s.kernel fd flags).2 →
      t.manager = s.manager.put p (some c) → Got s fd c t

theorem get_ok (h : s.get fd = .ok (c, t)) : Got s fd c t := by
  rw [get] at h
  split at h
  · cases h
  · next p hp =>
    have hfind := EFileContextManager.find_of_slot hp
    split at h
    · next hc =>
      cases h
      exact .old (hfind.trans hc) rfl
    · next hc =>
      split at h
      · cases h
      · next flags hr =>
        cases h
        exact .new p flags hp (hfind.trans hc) hr EFileContext.create_fst rfl rfl

/-- `get` fails exactly where the vectors have no place for the descriptor. -/
theorem get_error (hf : s.kernel.file fd ≠ none) :
    (∃ e, s.get fd = .error e) ↔ s.manager.slot fd = none := by
  obtain ⟨x, hx⟩ := Option.ne_none_iff_exists'.mp hf
  cases hp : s.manager.slot fd with
  | none =>
    rw [get, hp]
    simp
  | some p =>
    cases hc : s.manager.hookedFiles p.1 p.2 with
    | none =>
      rw [get, hp]
      simp [hc, Table.read, hx]
    | some c =>
      rw [get, hp]
      simp [hc]

namespace Got

variable (g : Got s fd c t)
include g

theorem file : t.kernel.file = s.kernel.file := by
  cases g with
  | old _ ht => rw [ht]
  | new p flags _ _ _ _ hk _ => rw [hk, EFileContext.create_file]

theorem chunks : t.manager.chunks = s.manager.chunks := by
  cases g with
  | old _ ht => rw [ht]
  | new p flags _ _ _ _ _ hm => rw [hm]; rfl

theorem find : t.manager.find fd = some c := by
  cases g with
  | old hc ht => rw [ht, hc]
  | new p flags hp _ _ _ _ hm => rw [hm, EFileContextManager.find_put_self hp]

theorem find_of_ne (hne : fd' ≠ fd) : t.manager.find fd' = s.manager.find fd' := by
  cases g with
  | old _ ht => rw [ht]
  | new p flags hp _ _ _ _ hm => rw [hm, EFileContextManager.find_put_of_ne hp hne]

/-- A new context sets the kernel's flag, for every descriptor of the description. -/
theorem nonblock : t.nonblock fd' =
    if s.manager.find fd = none ∧ s.kernel.file fd' = s.kernel.file fd then some true
    else s.nonblock fd' := by
  cases g with
  | old hc ht => simp [ht, hc]
  | new p flags _ hn hr _ hk _ =>
    simp only [Files.nonblock, hk, EFileContext.create_read hr, hn, true_and]

/-- A new context takes over what was visible. -/
theorem user : s.visible fd = some c.userNonBlocked := by
  cases g with
  | old hc _ => exact visible_of_find hc
  | new p flags _ hn hr hc _ _ =>
    rw [visible_of_none hn, hc]
    simp [Files.nonblock, hr]

theorem coherent (h : Coherent s) : Coherent t := by
  have hb : ∀ fd', s.nonblock fd' = some true → t.nonblock fd' = some true := by
    intro fd' hb
    rw [g.nonblock, hb]
    split <;> rfl
  cases g with
  | old _ ht => exact ht ▸ h
  | new p flags hp hn hr hc hk hm =>
    refine h.put hm hb ?_
    rintro _ ⟨⟩
    subst hc
    exact ⟨hp, by rw [(Got.new p flags hp hn hr rfl hk hm).nonblock]; simp [hn]⟩

theorem visible_self : t.visible fd = s.visible fd :=
  (visible_of_find g.find).trans g.user.symm

theorem visible_of_ne (hne : fd' ≠ fd) : t.visible fd' =
    if s.manager.find fd = none ∧ s.manager.find fd' = none ∧
      s.kernel.file fd' = s.kernel.file fd then some true
    else s.visible fd' := by
  cases hc : s.manager.find fd' with
  | some c' =>
    rw [visible_of_find hc, visible_of_find ((g.find_of_ne hne).trans hc)]
    simp
  | none =>
    rw [visible_of_none hc, visible_of_none ((g.find_of_ne hne).trans hc), g.nonblock]
    simp

end Got

/-- `remove` in a fiber drops the context and nothing else. -/
theorem remove_ok (h : s.remove fd = .ok t) : t.kernel = s.kernel ∧ t.manager.find fd = none ∧
    (∀ fd' : ℕ, fd' ≠ fd → t.manager.find fd' = s.manager.find fd') ∧
    t.manager.chunks = s.manager.chunks := by
  rw [remove] at h
  split at h
  · cases h
  · next p hp =>
    cases h
    refine ⟨?_, EFileContextManager.find_put_self hp,
      fun fd' hne => EFileContextManager.find_put_of_ne hp hne, rfl⟩
    cases s.manager.hookedFiles p.1 p.2 <;> rfl

theorem coherent_remove (hs : Coherent s) (h : s.remove fd = .ok t) : Coherent t := by
  have hk := (remove_ok h).1
  rw [remove] at h
  split at h
  · cases h
  · cases h
    refine hs.put rfl (fun fd' hn => ?_) (by simp)
    unfold nonblock
    rw [hk]
    exact hn

theorem remove_error : (∃ e, s.remove fd = .error e) ↔ s.manager.slot fd = none := by
  rw [remove]
  cases s.manager.slot fd <;> simp

section

omit [AlignUp] [DecidableEq X]

theorem mem_contexts : c ∈ s.manager.contexts ↔
    ∃ i < s.manager.chunks, ∃ j < FD_CHUNK_CAPACITY, s.manager.hookedFiles i j = some c := by
  simp [EFileContextManager.contexts]

end

section

omit [DecidableEq X]

/-- The contexts that `clear` destroys are those that `get` would find. -/
theorem Coherent.mem_contexts (h : Coherent s) :
    c ∈ s.manager.contexts ↔ s.manager.find c.fd = some c := by
  rw [Files.mem_contexts]
  constructor
  · rintro ⟨i, _, j, _, hc⟩
    rw [EFileContextManager.find_of_slot (h i j c hc).1]
    exact hc
  · intro hc
    obtain ⟨p, hp, hc⟩ := Option.bind_eq_some_iff.mp hc
    obtain ⟨hr, hq, rfl⟩ := EFileContextManager.slot_eq_some.mp hp
    have hlt := Nat.mod_lt c.fd (show 0 < FD_CHUNK_CAPACITY by decide)
    exact ⟨_, hq, _, by omega, hc⟩

end

section

omit [AlignUp]

/-- Where no description is shared, a destructor touches its own descriptor only. -/
theorem destroy_nonblock {k : Table X Flags} (hu : ∀ fd, k.Alone fd) (hfd : fd ≠ c.fd) :
    ((EFileContext.destroy false k c).read fd).map Flags.nonblock =
      (k.read fd).map Flags.nonblock := by
  cases hr : k.read c.fd with
  | none => simp [EFileContext.destroy, hr]
  | some flags =>
    rw [EFileContext.destroy_read hr, if_neg]
    intro hf
    have hn : k.file c.fd ≠ none := by
      intro hn
      simp [Table.read, hn] at hr
    exact hu c.fd fd hfd hn hf

/-- The destructors of a list of contexts, one of which may be the one of `fd`. -/
theorem destroy_all {k : Table X Flags} {l : List EFileContext} (hu : ∀ fd, k.Alone fd) :
    ((∀ c ∈ l, c.fd ≠ fd) →
      ((l.foldl (EFileContext.destroy false) k).read fd).map Flags.nonblock =
        (k.read fd).map Flags.nonblock) ∧
    ∀ c ∈ l, c.fd = fd → (∀ c' ∈ l, c'.fd = fd → c' = c) → k.file fd ≠ none →
      ((l.foldl (EFileContext.destroy false) k).read fd).map Flags.nonblock =
        some c.userNonBlocked := by
  induction l generalizing k with
  | nil => simp
  | cons d l ih =>
    have hfile := EFileContext.destroy_file (k := k) (c := d) false
    have hu' : ∀ fd, (EFileContext.destroy false k d).Alone fd := by
      intro fd'
      unfold Table.Alone
      rw [hfile]
      exact hu fd'
    obtain ⟨hother, hown⟩ := ih hu'
    constructor
    · intro hl
      have hd := hl d (by simp)
      rw [List.foldl_cons, hother (fun c hc => hl c (by simp [hc]))]
      exact destroy_nonblock hu hd.symm
    · intro c hc hfd huniq hopen
      rw [List.foldl_cons]
      by_cases hmem : c ∈ l
      · refine hown c hmem hfd (fun c' hc' => huniq c' (by simp [hc'])) ?_
        rw [hfile]
        exact hopen
      · -- the context of `fd` is destroyed now, and none of the rest is for `fd`
        obtain rfl : c = d := by simpa [hmem] using hc
        rw [hother]
        · obtain ⟨x, hx⟩ := Option.ne_none_iff_exists'.mp hopen
          have hr : k.read c.fd = some (k.status x) := by simp [Table.read, hfd, hx]
          rw [EFileContext.destroy_read hr, hfd, if_pos rfl]
        · intro c' hc' hfd'
          have he := huniq c' (by simp [hc']) hfd'
          exact hmem (he ▸ hc')

end

/-- `clear` gives every descriptor the user's mode back. -/
theorem clear_nonblock (h : Coherent s) (hu : ∀ fd, s.kernel.Alone fd) :
    s.clear.nonblock fd = s.visible fd := by
  obtain ⟨hother, hown⟩ := @destroy_all X fd _ s.kernel s.manager.contexts hu
  cases hc : s.manager.find fd with
  | none =>
    rw [visible_of_none hc]
    refine hother fun c hmem hfd => ?_
    have hf := h.mem_contexts.mp hmem
    rw [hfd, hc] at hf
    cases hf
  | some c =>
    rw [visible_of_find hc]
    have hfd := (h.find hc).1
    refine hown c (h.mem_contexts.mpr (hfd ▸ hc)) hfd (fun c' hmem hfd' => ?_) ?_
    · have hf := h.mem_contexts.mp hmem
      rw [hfd', hc] at hf
      exact (Option.some.inj hf).symm
    · exact h.open (by simp [hc])

section

omit [AlignUp]

theorem clear_file : s.clear.kernel.file = s.kernel.file := by
  have hf : ∀ (l : List EFileContext) (k : Table X Flags),
      (l.foldl (EFileContext.destroy false) k).file = k.file := by
    intro l
    induction l with
    | nil => exact fun _ => rfl
    | cons d l ih => exact fun k => (ih _).trans (EFileContext.destroy_file false)
  exact hf _ _

end

theorem clear_find : s.clear.manager.find fd = none := by
  have hs : s.clear.manager.slot fd = none := by
    rw [Option.eq_none_iff_forall_ne_some]
    intro p hp
    have hlt := (EFileContextManager.slot_eq_some.mp hp).2.1
    exact Nat.not_lt_zero _ hlt
  exact EFileContextManager.find_of_no_slot hs

theorem coherent_clear : Coherent s.clear := by
  intro i j c hc
  cases hc

end Files

end CxxFiber
