import CxxFiber.EFileContext

/-! The places that `get` and `remove` compute for a descriptor, in the vectors made for `maxfd`. -/
namespace CxxFiber.EFileContextManager

open AlignUp

section Slots

variable [AlignUp] {m : EFileContextManager} {fd fd' maxfd : ℕ}

def index0 (fd : ℕ) : ℤ := (alignUp fd FD_CHUNK_CAPACITY / FD_CHUNK_CAPACITY : ℕ) - 1

def index1 (fd : ℕ) : ℤ := (fd % FD_CHUNK_CAPACITY : ℕ) - 1

/-- An element that the vectors have. -/
def Inside (m : EFileContextManager) (i j : ℤ) : Prop :=
  (0 ≤ i ∧ i < m.chunks) ∧ 0 ≤ j ∧ j < FD_CHUNK_CAPACITY

/-- The place of `fd` is in the vectors, and no other descriptor has it. -/
structure Placed (maxfd fd : ℕ) : Prop where
  inside : Inside (create maxfd) (index0 fd) (index1 fd)
  apart : ∀ fd' < maxfd, index0 fd' = index0 fd → index1 fd' = index1 fd → fd' = fd

theorem slot_isSome : (m.slot fd).isSome ↔ Inside m (index0 fd) (index1 fd) := by
  have hlt : index1 fd < FD_CHUNK_CAPACITY := by
    have hmod := Nat.mod_lt fd (show 0 < FD_CHUNK_CAPACITY by decide)
    unfold index1
    omega
  rw [slot, Option.isSome_ite]
  exact ⟨fun h => ⟨⟨h.1, h.2.1⟩, h.2.2, hlt⟩, fun h => ⟨h.1.1, h.1.2, h.2.1⟩⟩

/-- Rounding up and the remainder agree: both indices together determine the descriptor. -/
theorem index_inj (h0 : index0 fd' = index0 fd) (h1 : index1 fd' = index1 fd) : fd' = fd := by
  have hpos : 0 < FD_CHUNK_CAPACITY := by decide
  obtain ⟨p, hp⟩ := dvd_alignUp (n := fd) hpos
  obtain ⟨q, hq⟩ := dvd_alignUp (n := fd') hpos
  have hle := le_alignUp (n := fd) hpos
  have hlt := alignUp_lt (n := fd) hpos
  have hle' := le_alignUp (n := fd') hpos
  have hlt' := alignUp_lt (n := fd') hpos
  rw [index0, index0, hp, hq, Nat.mul_div_cancel_left p hpos, Nat.mul_div_cancel_left q hpos] at h0
  rw [index1, index1] at h1
  rw [hp] at hle hlt
  rw [hq] at hle' hlt'
  rw [show FD_CHUNK_CAPACITY = 32768 from rfl] at *
  omega

theorem chunks_create (h : fd < maxfd) : fd / FD_CHUNK_CAPACITY < (create maxfd).chunks := by
  have hpos : 0 < FD_CHUNK_CAPACITY := by decide
  obtain ⟨p, hp⟩ := dvd_alignUp (n := maxfd) hpos
  have hle := le_alignUp (n := maxfd) hpos
  rw [create, hp, Nat.mul_div_cancel_left p hpos]
  rw [hp] at hle
  exact Nat.div_lt_of_lt_mul (Nat.lt_of_lt_of_le h hle)

theorem inside_create (h : fd < maxfd) (hc : fd % FD_CHUNK_CAPACITY ≠ 0) :
    Inside (create maxfd) (index0 fd) (index1 fd) := by
  apply slot_isSome.mp
  rw [slot_eq_some.mpr ⟨hc, chunks_create h, rfl⟩]
  rfl

/-- The multiples of the chunk size, and no other descriptors, are outside of the vectors. -/
theorem placed_iff (h : fd < maxfd) : Placed maxfd fd ↔ fd % FD_CHUNK_CAPACITY ≠ 0 := by
  constructor
  · intro hp
    obtain ⟨p, hs⟩ := Option.isSome_iff_exists.mp (slot_isSome.mpr hp.inside)
    exact (slot_eq_some.mp hs).1
  · intro hmod
    exact ⟨inside_create h hmod, fun fd' _ => index_inj⟩

end Slots

theorem placed_three : Placed 1024 3 := (placed_iff (by decide)).mpr (by decide)

/-- Standard input has no place, however large the vectors are. -/
theorem not_placed_zero : index0 0 = -1 ∧ index1 0 = -1 ∧ ¬ Placed 1024 0 := by
  refine ⟨by decide, by decide, fun h => ?_⟩
  have h0 : 0 ≤ index1 0 := h.inside.2.1
  exact absurd h0 (by decide)

end CxxFiber.EFileContextManager
